/-
  Xv6.Fs.Inode — inodes and their contents (`kernel/fs.c`: `ialloc`, `iupdate`, `iget`,
  `idup`, `ilock`, `iunlock`, `iput`, `bmap`, `itrunc`, `readi`, `writei`).

  A source or destination of a copy is given by the bytes that can be read from it, or
  the addresses that can be written, counted from where the copy starts: kernel memory
  always can, user memory up to the first page that is not mapped. `either_copyin` and
  `either_copyout` stop there and report failure, with the bytes before it copied.
-/

import Xv6.Fs.State

namespace Xv6.Fs

open Lib

variable (sb : Superblock)

def getInode (ip : Idx) : M Inode := do return (← get).inode ip

def setInode (ip : Idx) (f : Inode → Inode) : M Unit :=
  modify fun s => { s with inode := upd s.inode ip (f (s.inode ip)) }

/-- Byte offset of inode `inum` in its block. -/
def ioff (inum : Nat) : Nat := 64 * (inum % IPB)

/-! ## The inode table -/

def iget (dev inum : Nat) : M Idx := do
  let s ← get
  match first fun ip => 0 < (s.inode ip).ref ∧ (s.inode ip).dev = dev ∧ (s.inode ip).inum = inum with
  | some ip =>
    setInode ip fun i => { i with ref := i.ref + 1 }
    return ip
  | none =>
    match first fun ip => (s.inode ip).ref = 0 with
    | some ip =>
      setInode ip fun i => { i with dev := dev, inum := inum, ref := 1, valid := false }
      return ip
    | none => throw .igetNoInodes

/-- `ialloc`'s loop from `inum` on. -/
def iallocFrom (dev : Nat) (type : Int16) : Nat → Nat → M (Option Idx)
  | 0, _ => return none
  | fuel + 1, inum =>
    if inum < sb.ninodes then do
      let bp ← bread (sb.IBLOCK inum)
      if (getDinode bp (ioff inum)).type = 0 then do
        bput (sb.IBLOCK inum) ((bp.splice (ioff inum) 64 fun _ => 0).putLE (ioff inum) 2 (ofShort type))
        logWrite (sb.IBLOCK inum)
        brelse (sb.IBLOCK inum)
        let ip ← iget dev inum
        return some ip
      else do
        brelse (sb.IBLOCK inum)
        iallocFrom dev type fuel (inum + 1)
    else return none

def ialloc (dev : Nat) (type : Int16) : M (Option Idx) := iallocFrom sb dev type sb.ninodes 1

def iupdate (ip : Idx) : M Unit := do
  let i ← getInode ip
  let bp ← bread (sb.IBLOCK i.inum)
  bput (sb.IBLOCK i.inum) (putDinode bp (ioff i.inum) i.toDinode)
  logWrite (sb.IBLOCK i.inum)
  brelse (sb.IBLOCK i.inum)

def idup (ip : Idx) : M Idx := do
  setInode ip fun i => { i with ref := i.ref + 1 }
  return ip

def acquiresleep (ip : Idx) : M Unit := do
  let i ← getInode ip
  if i.lock then throw .hang
  else setInode ip fun i => { i with lock := true }

def releasesleep (ip : Idx) : M Unit := setInode ip fun i => { i with lock := false }

def ilock (ip : Idx) : M Unit := do
  let i ← getInode ip
  if i.ref < 1 then throw .ilock
  else do
    acquiresleep ip
    if i.valid then return ()
    else do
      let bp ← bread (sb.IBLOCK i.inum)
      let dip := getDinode bp (ioff i.inum)
      brelse (sb.IBLOCK i.inum)
      setInode ip fun i => { i with toDinode := dip, valid := true }
      if dip.type = 0 then throw .ilockNoType
      else return ()

def iunlock (ip : Idx) : M Unit := do
  let i ← getInode ip
  if i.lock = false ∨ i.ref < 1 then throw .iunlock
  else releasesleep ip

/-! ## Inode content -/

def entry (a : Block) (j : Nat) : Nat := a.getLE (4 * j) 4

/-- `ip->addrs[k]`, allocated if there is none: both places where `bmap` does so. -/
def bmapAddr (ip : Idx) (k : Nat) : M Nat := do
  let i ← getInode ip
  if i.addr k = 0 then do
    let addr ← balloc sb
    if addr = 0 then return 0
    else do
      setInode ip fun i => { i with toDinode := i.setAddr k addr }
      return addr
  else return i.addr k

def bmapEntry (ind j : Nat) : M Nat := do
  let bp ← bread ind
  if entry bp j = 0 then do
    let addr ← balloc sb
    if addr = 0 then do
      brelse ind
      return 0
    else do
      let bp ← bdata ind
      bput ind (bp.putLE (4 * j) 4 addr)
      logWrite ind
      brelse ind
      return addr
  else do
    brelse ind
    return entry bp j

/-- The block of block index `bn`, allocated if there is none; 0 when out of space. -/
def bmap (ip : Idx) (bn : Nat) : M Nat :=
  if bn < NDIRECT then bmapAddr sb ip bn
  else if bn - NDIRECT < NINDIRECT then do
    let addr ← bmapAddr sb ip NDIRECT
    if addr = 0 then return 0 else bmapEntry sb addr (bn - NDIRECT)
  else throw .bmapOutOfRange

/-- `itrunc`'s loop over the direct blocks, from `i` on. -/
def itruncDirect (ip : Idx) : Nat → Nat → M Unit
  | 0, _ => return ()
  | fuel + 1, i => do
    let d ← getInode ip
    if d.addr i = 0 then itruncDirect ip fuel (i + 1)
    else do
      bfree sb (d.addr i)
      setInode ip fun x => { x with toDinode := x.setAddr i 0 }
      itruncDirect ip fuel (i + 1)

/-- `itrunc`'s loop over the entries of the indirect block, from `j` on. -/
def itruncIndirect (a : Block) : Nat → Nat → M Unit
  | 0, _ => return ()
  | fuel + 1, j =>
    if entry a j = 0 then itruncIndirect a fuel (j + 1)
    else do
      bfree sb (entry a j)
      itruncIndirect a fuel (j + 1)

def itrunc (ip : Idx) : M Unit := do
  itruncDirect sb ip NDIRECT 0
  let i ← getInode ip
  if i.addr NDIRECT = 0 then pure ()
  else do
    let a ← bread (i.addr NDIRECT)
    itruncIndirect sb a NINDIRECT 0
    brelse (i.addr NDIRECT)
    bfree sb (i.addr NDIRECT)
    setInode ip fun x => { x with toDinode := x.setAddr NDIRECT 0 }
  setInode ip fun x => { x with size := 0 }
  iupdate sb ip

/-- Dropping the last reference to an inode without links frees it. -/
def iput (ip : Idx) : M Unit := do
  let i ← getInode ip
  if i.ref = 1 ∧ i.valid ∧ i.nlink = 0 then do
    acquiresleep ip
    itrunc sb ip
    setInode ip fun x => { x with type := 0 }
    iupdate sb ip
    setInode ip fun x => { x with valid := false }
    releasesleep ip
  else pure ()
  setInode ip fun x => { x with ref := x.ref - 1 }

def iunlockput (ip : Idx) : M Unit := do
  iunlock ip
  iput sb ip

/-! ## Reading and writing -/

/-- How many of the `m` positions from `k` on can be reached: those before the first bad one. -/
def reach (ok : Nat → Bool) (k : Nat) : Nat → Nat
  | 0 => 0
  | m + 1 => if ok k then reach ok (k + 1) m + 1 else 0

/-- `off + n` in 32 bits. -/
def add32 (off n : Nat) : Nat := (off + n) % 4294967296

/-- `readi`'s loop; `out` holds the bytes copied so far. -/
def readiFrom (ip : Idx) (dst : Nat → Bool) (n : Nat) : Nat → Nat → Nat → List UInt8 → M (Int × List UInt8)
  | 0, tot, _, out => return (tot, out)
  | fuel + 1, tot, off, out =>
    if tot < n then do
      let addr ← bmap sb ip (off / BSIZE)
      if addr = 0 then return (tot, out)
      else do
        let bp ← bread addr
        let m := min (n - tot) (BSIZE - off % BSIZE)
        let c := reach dst tot m
        let out := out ++ (List.range c).map fun k => bp.get (off % BSIZE + k)
        brelse addr
        if c < m then return (-1, out)
        else readiFrom ip dst n fuel (tot + m) (off + m) out
    else return (tot, out)

/-- `readi`: its result, and the bytes copied to `dst` on. -/
def readi (ip : Idx) (dst : Nat → Bool) (off n : Nat) : M (Int × List UInt8) := do
  let i ← getInode ip
  if off > i.size ∨ add32 off n < off then return (0, [])
  else
    let n := if off + n > i.size then i.size - off else n
    readiFrom sb ip dst n n 0 off []

/-- `writei`'s loop: how much was written, and the offset after it. -/
def writeiFrom (ip : Idx) (src : Nat → Option UInt8) (n : Nat) : Nat → Nat → Nat → M (Nat × Nat)
  | 0, tot, off => return (tot, off)
  | fuel + 1, tot, off =>
    if tot < n then do
      let addr ← bmap sb ip (off / BSIZE)
      if addr = 0 then return (tot, off)
      else do
        let bp ← bread addr
        let m := min (n - tot) (BSIZE - off % BSIZE)
        let c := reach (fun k => (src k).isSome) tot m
        bput addr (bp.splice (off % BSIZE) c fun k => (src (tot + k)).getD 0)
        if c < m then do
          brelse addr
          return (tot, off)
        else do
          logWrite addr
          brelse addr
          writeiFrom ip src n fuel (tot + m) (off + m)
    else return (tot, off)

def writei (ip : Idx) (src : Nat → Option UInt8) (off n : Nat) : M Int := do
  let i ← getInode ip
  if off > i.size ∨ add32 off n < off then return -1
  else if off + n > MAXFILE * BSIZE then return -1
  else do
    let (tot, off) ← writeiFrom sb ip src n n 0 off
    setInode ip fun x => { x with size := if off > x.size then off else x.size }
    iupdate sb ip
    return tot

end Xv6.Fs
