/-
  Xv6.Mkfs.Mkfs — the program that builds the disk image (`mkfs/mkfs.c`).

  The image is a host file of sectors. Host calls on it succeed, except that a read past
  its end comes up short, which `rsect` dies of. An input file is given by its `argv` and
  by what the successive calls of `read` on it return; one that cannot be opened has none.
  `printf`, `close` and the check of `argc` are left out.

  All fields are stored in the byte order of the kernel (`xshort`, `xint`), so a
  `struct dinode` is the `Dinode` of `Xv6.Fs.Layout`. `freeinode`, `freeblock` and file
  sizes stay far below 2^32: `rsect` and the assertion on `fbn` stop the program before.

  Ghost state: `writes` lists the sectors written, each with the part of the layout the
  program means to write.
-/

import Xv6.Fs.Sys

namespace Xv6.Mkfs

open Lib Fs

/-! ## The layout -/

/-- `kernel/param.h`. -/
def FSSIZE : Nat := 2000

/-- `kernel/fs.h`. -/
def FSMAGIC : Nat := 0x10203040

def NINODES : Nat := 200

def nbitmap : Nat := FSSIZE / BPB + 1

def ninodeblocks : Nat := NINODES / IPB + 1

def nlog : Nat := LOGBLOCKS + 1

def nmeta : Nat := 2 + nlog + ninodeblocks + nbitmap

def nblocks : Nat := FSSIZE - nmeta

def sb : Superblock where
  size := FSSIZE
  nblocks := nblocks
  ninodes := NINODES
  inodestart := 2 + nlog
  bmapstart := 2 + nlog + ninodeblocks

/-- The bytes of `sb`, as `memmove` copies them into a zeroed buffer. -/
def sbBlock : Block :=
  [FSMAGIC, sb.size, sb.nblocks, sb.ninodes, nlog, 2, sb.inodestart, sb.bmapstart].zipIdx.foldl
    (fun b (v, k) => b.putLE (4 * k) 4 v) Bytes.zero

inductive Part where
  | zeroes
  | super
  | inode
  | bitmap
  | data
  deriving DecidableEq, Repr

def Part.Has : Part → Nat → Prop
  | .zeroes, sec => sec < FSSIZE
  | .super, sec => sec = 1
  | .inode, sec => sb.inodestart ≤ sec ∧ sec < sb.bmapstart
  | .bitmap, sec => sb.bmapstart ≤ sec ∧ sec < nmeta
  | .data, sec => nmeta ≤ sec ∧ sec < FSSIZE

/-! ## State -/

structure St where
  img : Nat → Block
  /-- The length of the image, in sectors. -/
  len : Nat
  freeinode : Nat
  freeblock : Nat
  writes : List (Part × Nat)

inductive Err where
  /-- `die(argv[i])`: an input cannot be opened. -/
  | noFile (argv : Name)
  | die (s : String)
  | assert (cond : String)
  deriving DecidableEq, Repr

abbrev M (α : Type) := Prog St Err α

/-! ## Sectors and inodes -/

def wsect (part : Part) (sec : Nat) (buf : Block) : M Unit :=
  modify fun s => { s with img := upd s.img sec buf, len := max s.len (sec + 1), writes := s.writes ++ [(part, sec)] }

def rsect (sec : Nat) : M Block := do
  let s ← get
  if sec < s.len then return s.img sec else throw (.die "read")

def winode (inum : Nat) (din : Dinode) : M Unit := do
  let buf ← rsect (sb.IBLOCK inum)
  wsect .inode (sb.IBLOCK inum) (putDinode buf (ioff inum) din)

def rinode (inum : Nat) : M Dinode := do
  let buf ← rsect (sb.IBLOCK inum)
  return getDinode buf (ioff inum)

def ialloc (type : Int16) : M Nat := do
  let s ← get
  set { s with freeinode := s.freeinode + 1 }
  winode s.freeinode ((Dinode.ofType type).setNlink 1)
  return s.freeinode

/-- `balloc`'s loop over the bits below `used`. -/
def setBits (used : Nat) : Block := (List.range used).foldl Bytes.setBit Bytes.zero

def balloc (used : Nat) : M Unit :=
  if used < BPB then wsect .bitmap sb.bmapstart (setBits used) else throw (.assert "used < BPB")

/-! ## iappend -/

/-- `freeblock++`. -/
def nextBlock : M Nat := do
  let s ← get
  set { s with freeblock := s.freeblock + 1 }
  return s.freeblock

/-- `din.addrs[k]`, set if there is none: both places where `iappend` does so. -/
def addrOf (din : Dinode) (k : Nat) : M Dinode :=
  if din.addr k = 0 then do
    let b ← nextBlock
    return din.setAddr k b
  else return din

def entryOf (ind j : Nat) : M Nat := do
  let indirect ← rsect ind
  if entry indirect j = 0 then do
    let b ← nextBlock
    wsect .data ind (indirect.putLE (4 * j) 4 b)
    return entry (indirect.putLE (4 * j) 4 b) j
  else return entry indirect j

/-- The inode with a block for index `fbn`, and that block (`x`). -/
def blockOf (din : Dinode) (fbn : Nat) : M (Dinode × Nat) :=
  if fbn < NDIRECT then do
    let din ← addrOf din fbn
    return (din, din.addr fbn)
  else do
    let din ← addrOf din NDIRECT
    let x ← entryOf (din.addr NDIRECT) (fbn - NDIRECT)
    return (din, x)

/-- `iappend`'s loop over the bytes `p` that are left; `n` is their number. -/
def iappendFrom : Nat → Dinode → Nat → List UInt8 → M (Dinode × Nat)
  | 0, din, off, _ => return (din, off)
  | fuel + 1, din, off, p =>
    if 0 < p.length then
      if off / BSIZE < MAXFILE then do
        let (din, x) ← blockOf din (off / BSIZE)
        let n1 := min p.length ((off / BSIZE + 1) * BSIZE - off)
        let buf ← rsect x
        wsect .data x (buf.splice (off - off / BSIZE * BSIZE) n1 fun k => p.getD k 0)
        iappendFrom fuel din (off + n1) (p.drop n1)
      else throw (.assert "fbn < MAXFILE")
    else return (din, off)

def iappend (inum : Nat) (p : List UInt8) : M Unit := do
  let din ← rinode inum
  let (din, off) ← iappendFrom p.length din din.size p
  winode inum (din.setSize off)

/-! ## main -/

structure Arg where
  argv : Name
  /-- A C string has no NUL in it. -/
  string : 0 ∉ argv
  /-- What the calls of `read` return, if the file can be opened. -/
  reads : Option (List (List UInt8))
  /-- Each of them returns something, and no more than fits the buffer. -/
  sizes : ∀ ps, reads = some ps → ∀ p ∈ ps, 0 < p.length ∧ p.length ≤ BSIZE

/-- `"user/"`. -/
def userSlash : Name := [117, 115, 101, 114, slash]

/-- `'_'`. -/
def underscore : UInt8 := 95

/-- `argv` without a leading `user/`. -/
def Arg.base (f : Arg) : Name := if strncmp 5 f.argv userSlash = 0 then f.argv.drop 5 else f.argv

/-- And without a leading `_`. -/
def Arg.shortname (f : Arg) : Name := if f.base.head? = some underscore then f.base.tail else f.base

/-- The body of `main`'s loop over the files. -/
def addFile (rootino : Nat) (f : Arg) : M Unit :=
  if slash ∈ f.base then throw (.assert "index(shortname, '/') == 0")
  else
    match f.reads with
    | none => throw (.noFile f.argv)
    | some ps =>
      if f.shortname.length ≤ DIRSIZ then do
        let inum ← ialloc T_FILE
        iappend rootino (mkDirent inum f.shortname)
        ps.forM (iappend inum)
      else throw (.assert "strlen(shortname) <= DIRSIZ")

/-- The size `main` gives the root directory in the end. -/
def fixSize (off : Nat) : Nat := (off / BSIZE + 1) * BSIZE

/-- `main`'s first loop. -/
@[irreducible] def wzeroes : M Unit := (List.range FSSIZE).forM fun i => wsect .zeroes i Bytes.zero

def main (files : List Arg) : M Unit := do
  wzeroes
  wsect .super 1 sbBlock
  let rootino ← ialloc T_DIR
  if rootino = ROOTINO then do
    iappend rootino (mkDirent rootino dot)
    iappend rootino (mkDirent rootino dotdot)
    files.forM (addFile rootino)
    let din ← rinode rootino
    winode rootino (din.setSize (fixSize din.size))
    let s ← get
    balloc s.freeblock
  else throw (.assert "rootino == ROOTINO")

/-- The truncated image, and `main`'s counters once `freeblock` is set. -/
def start : St := ⟨fun _ => Bytes.zero, 0, 1, nmeta, []⟩

/-- What a run of the program leaves. -/
def image (files : List Arg) : Except Err St := (main files start).map (·.2)

end Xv6.Mkfs
