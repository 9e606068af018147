/-
  Xv6.Fs.State — the state of the file system, and its lowest layer: the log as one
  operation at a time sees it (`kernel/log.c`), and the block allocator (`kernel/fs.c`:
  `bzero`, `balloc`, `bfree`).

  Operations run one after another, so an operation never waits for another one's lock;
  one that waits for a lock it holds itself, or in `begin_op`, stops with `Panic.hang`.

  `data b` is what `bread` finds in block `b`: the buffer if there is one, else the disk.
  `home b` is what the disk holds once every finished transaction is installed. They
  differ in the blocks of the running transaction, which are in `log.lh`, and in a buffer
  changed but never passed to `log_write`, whose change goes when the buffer is evicted.
  There is one disk, `ROOTDEV`, so blocks are named by their number alone. `bufs` are the
  buffers whose lock the running call holds: `bread` adds one and `brelse` takes it out.
-/

import Xv6.Fs.Layout
import Xv6.Lib.First
import Xv6.Lib.Wp
import Xv6.Log.Group

namespace Xv6.Fs

open Lib

/-! ## State -/

abbrev Idx := Fin NINODE

def Idx.zero : Idx := ⟨0, Nat.zero_lt_succ 49⟩

/-- `struct inode`; `lock` is the sleep-lock. -/
structure Inode extends Dinode where
  dev : Nat
  inum : Nat
  ref : Int
  lock : Bool
  valid : Bool

inductive FdType where
  | none
  | pipe
  | inode
  | device
  deriving DecidableEq, Repr

/-- `struct file`; `pipe` is looked at only in a file of type `pipe`, `ip` only in one of
    type `inode` or `device`. -/
structure File where
  type : FdType
  ref : Int
  readable : Bool
  writable : Bool
  pipe : Nat
  ip : Idx
  off : Nat
  major : Int16
  deriving DecidableEq, Repr

/-- A page used as a `struct pipe`, while `alive`; what is in it is left out. -/
structure Pipe where
  alive : Bool
  readopen : Bool
  writeopen : Bool
  deriving DecidableEq, Repr

/-- What `struct proc` holds of the file system; `live` from `fork` until `exit`. -/
structure Proc where
  live : Bool
  cwd : Idx
  ofile : Fin NOFILE → Option (Fin NFILE)

structure St where
  data : Nat → Block
  home : Nat → Block
  log : Log.LogSt
  bufs : List Nat
  inode : Idx → Inode
  file : Fin NFILE → File
  proc : Fin NPROC → Proc
  pipe : Nat → Pipe

inductive Panic where
  | log (p : Log.Panic)
  | freeingFreeBlock
  | igetNoInodes
  | ilock
  | ilockNoType
  | iunlock
  | bmapOutOfRange
  | dirlookupNotDir
  | dirlookupRead
  | dirlinkRead
  | isdiremptyReadi
  | unlinkNlink
  | unlinkWritei
  | filedup
  | fileclose
  | fileread
  | filewrite
  | initExiting
  /-- No panic: a page that was freed is used or freed again. -/
  | stalePage
  /-- No panic: the caller sleeps and nobody will wake it. -/
  | hang
  deriving DecidableEq, Repr

def Panic.msg : Panic → Option String
  | .log p => some p.msg
  | .freeingFreeBlock => some "freeing free block"
  | .igetNoInodes => some "iget: no inodes"
  | .ilock => some "ilock"
  | .ilockNoType => some "ilock: no type"
  | .iunlock => some "iunlock"
  | .bmapOutOfRange => some "bmap: out of range"
  | .dirlookupNotDir => some "dirlookup not DIR"
  | .dirlookupRead => some "dirlookup read"
  | .dirlinkRead => some "dirlink read"
  | .isdiremptyReadi => some "isdirempty: readi"
  | .unlinkNlink => some "unlink: nlink < 1"
  | .unlinkWritei => some "unlink: writei"
  | .filedup => some "filedup"
  | .fileclose => some "fileclose"
  | .fileread => some "fileread"
  | .filewrite => some "filewrite"
  | .initExiting => some "init exiting"
  | .stalePage => none
  | .hang => none

abbrev M (α : Type) := Prog St Panic α

/-! ## Buffers -/

def St.withBufs (s : St) (l : List Nat) : St := { s with bufs := l }

@[simp] theorem St.withBufs_bufs (s : St) (l : List Nat) : (s.withBufs l).bufs = l := rfl

@[simp] theorem St.withBufs_inode (s : St) (l : List Nat) : (s.withBufs l).inode = s.inode := rfl

def bread (b : Nat) : M Block := do
  let s ← get
  set (s.withBufs (b :: s.bufs))
  return s.data b

/-- `bp->data` of a buffer locked before. -/
def bdata (b : Nat) : M Block := do return (← get).data b

/-- Assignments through `bp->data`, all at once. -/
def bput (b : Nat) (d : Block) : M Unit := modify fun s => { s with data := upd s.data b d }

def brelse (b : Nat) : M Unit := modify fun s => s.withBufs (s.bufs.erase b)

/-! ## The log -/

def logWrite (b : Nat) : M Unit := do
  let s ← get
  match Log.logWrite s.log b with
  | .ok l => set { s with log := l }
  | .error e => throw (.log e)

def beginOp : M Unit := do
  let s ← get
  match Log.beginOp s.log with
  | some l => set { s with log := l }
  | none => throw .hang

/-- `end_op`; the last operation out commits: the blocks of the header reach their homes. -/
def endOp : M Unit := do
  let s ← get
  match Log.endOp s.log with
  | .error e => throw (.log e)
  | .ok (l, doCommit) =>
    if doCommit then
      set { s with
        home := fun b => if b ∈ l.lh then s.data b else s.home b
        log := { l with committing := false, lh := [] } }
    else set { s with log := l }

/-! ## Blocks -/

variable (sb : Superblock)

def bzero (bno : Nat) : M Unit := do
  let _ ← bread bno
  bput bno Bytes.zero
  logWrite bno
  brelse bno

/-- `balloc`'s inner loop from bit `bi` on: the first clear bit of a bitmap block whose
    first bit stands for block `b`. -/
def freeBit (bp : Block) (b : Nat) : Nat → Nat → Option Nat
  | 0, _ => none
  | fuel + 1, bi =>
    if bi < BPB ∧ b + bi < sb.size then
      if bp.bit bi then freeBit bp b fuel (bi + 1) else some bi
    else none

/-- `balloc`'s outer loop. -/
def ballocFrom : Nat → Nat → M Nat
  | 0, _ => return 0
  | fuel + 1, b =>
    if b < sb.size then do
      let bp ← bread (sb.BBLOCK b)
      match freeBit sb bp b BPB 0 with
      | some bi =>
        bput (sb.BBLOCK b) (bp.setBit bi)
        logWrite (sb.BBLOCK b)
        brelse (sb.BBLOCK b)
        bzero (b + bi)
        return b + bi
      | none =>
        brelse (sb.BBLOCK b)
        ballocFrom fuel (b + BPB)
    else return 0

def balloc : M Nat := ballocFrom sb (sb.size / BPB + 1) 0

def bfree (b : Nat) : M Unit := do
  let bp ← bread (sb.BBLOCK b)
  if bp.bit (b % BPB) then do
    bput (sb.BBLOCK b) (bp.clearBit (b % BPB))
    logWrite (sb.BBLOCK b)
    brelse (sb.BBLOCK b)
  else throw .freeingFreeBlock

end Xv6.Fs
