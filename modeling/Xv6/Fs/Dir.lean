/-
  Xv6.Fs.Dir — directories and paths (`kernel/fs.c`: `namecmp`, `dirlookup`, `dirlink`,
  `skipelem`, `namex`; `kernel/string.c`: `strncmp`, `strncpy`).

  A C string is the list of its bytes before the NUL. `skipelem` leaves what stood in
  `name` behind the NUL it writes; nothing reads it, so a name is the element cut to
  `DIRSIZ` bytes.
-/

import Xv6.Fs.Inode

namespace Xv6.Fs

open Lib

abbrev Name := List UInt8

/-! ## Strings -/

/-- `strncmp` of two strings; the end of the list is the NUL. -/
def strncmp : Nat → Name → Name → Int
  | 0, _, _ => 0
  | n + 1, p, q =>
    if p.headD 0 ≠ 0 ∧ p.headD 0 = q.headD 0 then strncmp n p.tail q.tail
    else (p.headD 0).toNat - (q.headD 0).toNat

/-- The `n` bytes `strncpy` writes. -/
def strncpy : Nat → Name → Name
  | 0, _ => []
  | n + 1, t => t.headD 0 :: if t.headD 0 = 0 then List.replicate n 0 else strncpy n t.tail

def namecmp (s t : Name) : Int := strncmp DIRSIZ s t

/-! ## struct dirent -/

/-- `sizeof(struct dirent)`. -/
def DESIZE : Nat := 2 + DIRSIZ

def deInum (de : List UInt8) : Nat := (de.getD 0 0).toNat + 256 * (de.getD 1 0).toNat

def deName (de : List UInt8) : Name := de.drop 2

/-- The bytes of the entry (`name`, `inum`); `inum` is cut to the `ushort` it is stored in. -/
def mkDirent (inum : Nat) (name : Name) :
    List UInt8 := Bytes.leByte inum 0 :: Bytes.leByte inum 1 :: strncpy DIRSIZ name

/-- A kernel buffer as the source of a copy. -/
def kernelSrc (l : List UInt8) : Nat → Option UInt8 := fun k => some (l.getD k 0)

def kernelDst : Nat → Bool := fun _ => true

/-! ## Directories -/

variable (sb : Superblock)

/-- `dirlookup`'s loop from `off` on. -/
def dirlookupFrom (dp : Idx) (name : Name) : Nat → Nat → M (Option (Idx × Nat))
  | 0, _ => return none
  | fuel + 1, off => do
    let d ← getInode dp
    if off < d.size then do
      let (r, de) ← readi sb dp kernelDst off DESIZE
      if r ≠ DESIZE then throw .dirlookupRead
      else if deInum de = 0 then dirlookupFrom dp name fuel (off + DESIZE)
      else if namecmp name (deName de) = 0 then do
        let ip ← iget d.dev (deInum de)
        return some (ip, off)
      else dirlookupFrom dp name fuel (off + DESIZE)
    else return none

/-- The inode of the entry called `name`, and the entry's offset. -/
def dirlookup (dp : Idx) (name : Name) : M (Option (Idx × Nat)) := do
  let d ← getInode dp
  if d.type ≠ T_DIR then throw .dirlookupNotDir
  else dirlookupFrom sb dp name (d.size / DESIZE + 1) 0

/-- `dirlink`'s search for a free entry, from `off` on. -/
def freeEntry (dp : Idx) : Nat → Nat → M Nat
  | 0, off => return off
  | fuel + 1, off => do
    let d ← getInode dp
    if off < d.size then do
      let (r, de) ← readi sb dp kernelDst off DESIZE
      if r ≠ DESIZE then throw .dirlinkRead
      else if deInum de = 0 then return off
      else freeEntry dp fuel (off + DESIZE)
    else return off

def dirlink (dp : Idx) (name : Name) (inum : Nat) : M Int := do
  match ← dirlookup sb dp name with
  | some (ip, _) =>
    iput sb ip
    return -1
  | none =>
    let d ← getInode dp
    let off ← freeEntry sb dp (d.size / DESIZE + 1) 0
    let r ← writei sb dp (kernelSrc (mkDirent inum name)) off DESIZE
    if r ≠ DESIZE then return -1 else return 0

/-! ## Paths -/

/-- `'/'`. -/
def slash : UInt8 := 47

/-- The next element of a path and what follows it, or `none` at its end. -/
def skipelem (path : Name) : Option (Name × Name) :=
  match path.dropWhile (· = slash) with
  | [] => none
  | c :: cs =>
    some (((c :: cs).takeWhile (· ≠ slash)).take DIRSIZ, ((c :: cs).dropWhile (· ≠ slash)).dropWhile (· = slash))

/-- The elements `skipelem` finds one after another. -/
def elemsFrom : Nat → Name → List Name
  | 0, _ => []
  | fuel + 1, path =>
    match skipelem path with
    | none => []
    | some (name, rest) => name :: elemsFrom fuel rest

def elems (path : Name) : List Name := elemsFrom path.length path

/-- `namex`'s loop over the elements left; with `parent` it stops before the last one and
    gives its name. -/
def namexFrom (parent : Bool) (ip : Idx) : List Name → M (Option (Idx × Name))
  | [] =>
    if parent then do
      iput sb ip
      return none
    else return some (ip, [])
  | name :: rest => do
    ilock sb ip
    let i ← getInode ip
    if i.type ≠ T_DIR then do
      iunlockput sb ip
      return none
    else if parent ∧ rest = [] then do
      iunlock ip
      return some (ip, name)
    else do
      match ← dirlookup sb ip name with
      | none =>
        iunlockput sb ip
        return none
      | some (next, _) =>
        iunlockput sb ip
        namexFrom parent next rest

/-- `namex` in a process whose current directory is `cwd`. -/
def namex (cwd : Idx) (path : Name) (parent : Bool) : M (Option (Idx × Name)) := do
  let ip ← if path.head? = some slash then iget ROOTDEV ROOTINO else idup cwd
  namexFrom sb parent ip (elems path)

def namei (cwd : Idx) (path : Name) : M (Option Idx) := do
  match ← namex sb cwd path false with
  | some (ip, _) => return some ip
  | none => return none

def nameiparent (cwd : Idx) (path : Name) : M (Option (Idx × Name)) := namex sb cwd path true

def isdiremptyFrom (dp : Idx) : Nat → Nat → M Bool
  | 0, _ => return true
  | fuel + 1, off => do
    let d ← getInode dp
    if off < d.size then do
      let (r, de) ← readi sb dp kernelDst off DESIZE
      if r ≠ DESIZE then throw .isdiremptyReadi
      else if deInum de ≠ 0 then return false
      else isdiremptyFrom dp fuel (off + DESIZE)
    else return true

def isdirempty (dp : Idx) : M Bool := do
  let d ← getInode dp
  isdiremptyFrom sb dp (d.size / DESIZE + 1) (2 * DESIZE)

end Xv6.Fs
