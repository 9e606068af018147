/-
  Xv6.Fs.File — open files (`kernel/file.c`), the ends of pipes (`kernel/pipe.c`:
  `pipealloc`, `pipeclose`) and the descriptors of a process (`kernel/sysfile.c`: `argfd`,
  `fdalloc`). Of a pipe there is only which ends are open, of a device nothing: what
  `piperead`, `pipewrite`, `consoleread` and `consolewrite` return is given as `ext`.
-/

import Xv6.Fs.Dir

namespace Xv6.Fs

open Lib

/-- User memory from an address on, byte by byte; `none` where it cannot be read. -/
abbrev User := Nat → Option UInt8

variable (sb : Superblock)

def getFile (f : Fin NFILE) : M File := do return (← get).file f

def setFile (f : Fin NFILE) (g : File → File) : M Unit :=
  modify fun s => { s with file := upd s.file f (g (s.file f)) }

def setProc (p : Fin NPROC) (g : Proc → Proc) : M Unit :=
  modify fun s => { s with proc := upd s.proc p (g (s.proc p)) }

def setPipe (pi : Nat) (x : Pipe) : M Unit := modify fun s => { s with pipe := upd s.pipe pi x }

/-! ## Descriptors -/

/-- `argfd`: the descriptor and its file. -/
def argfd (p : Fin NPROC) (fd : Int) : M (Option (Fin NOFILE × Fin NFILE)) := do
  let s ← get
  if h : 0 ≤ fd ∧ fd.toNat < NOFILE then
    return ((s.proc p).ofile ⟨fd.toNat, h.2⟩).map fun f => (⟨fd.toNat, h.2⟩, f)
  else return none

def fdalloc (p : Fin NPROC) (f : Fin NFILE) : M (Option (Fin NOFILE)) := do
  let s ← get
  match first fun fd => (s.proc p).ofile fd = none with
  | some fd =>
    setProc p fun x => { x with ofile := upd x.ofile fd (some f) }
    return some fd
  | none => return none

/-! ## kernel/pipe.c -/

def pipeclose (pi : Nat) (writable : Bool) : M Unit := do
  let x := (← get).pipe pi
  if x.alive = false then throw .stalePage
  else do
    let x := if writable then { x with writeopen := false } else { x with readopen := false }
    if x.readopen = false ∧ x.writeopen = false then setPipe pi { x with alive := false }
    else setPipe pi x

/-- `kalloc` for a pipe; it never gives a page that is in use. -/
def kalloc (page : Option Nat) : M (Option Nat) := do
  match page with
  | none => return none
  | some pi => return if ((← get).pipe pi).alive then none else some pi

/-! ## kernel/file.c -/

def filealloc : M (Option (Fin NFILE)) := do
  let s ← get
  match first fun f => (s.file f).ref = 0 with
  | some f =>
    setFile f fun x => { x with ref := 1 }
    return some f
  | none => return none

def filedup (f : Fin NFILE) : M Unit := do
  let x ← getFile f
  if x.ref < 1 then throw .filedup
  else setFile f fun x => { x with ref := x.ref + 1 }

def fileclose (f : Fin NFILE) : M Unit := do
  let ff ← getFile f
  if ff.ref < 1 then throw .fileclose
  else if ff.ref - 1 > 0 then setFile f fun x => { x with ref := x.ref - 1 }
  else do
    setFile f fun x => { x with ref := 0, type := .none }
    if ff.type = .pipe then pipeclose ff.pipe ff.writable
    else if ff.type = .inode ∨ ff.type = .device then do
      beginOp
      iput sb ff.ip
      endOp
    else return ()

/-- `pipealloc`; `page` is what `kalloc` may give. -/
def pipealloc (page : Option Nat) : M (Option (Fin NFILE × Fin NFILE)) := do
  match ← filealloc with
  | none => return none
  | some f0 =>
    match ← filealloc with
    | none =>
      fileclose sb f0
      return none
    | some f1 =>
      match ← kalloc page with
      | none =>
        fileclose sb f0
        fileclose sb f1
        return none
      | some pi =>
        setPipe pi ⟨true, true, true⟩
        setFile f0 fun x => { x with type := .pipe, readable := true, writable := false, pipe := pi }
        setFile f1 fun x => { x with type := .pipe, readable := false, writable := true, pipe := pi }
        return some (f0, f1)

/-- `filestat`; `ok` when the result can be copied to the user. -/
def filestat (f : Fin NFILE) (ok : Bool) : M Int := do
  let x ← getFile f
  if x.type = .inode ∨ x.type = .device then do
    ilock sb x.ip
    iunlock x.ip
    return if ok then 0 else -1
  else return -1

/-- An `int` as the `uint` it is passed for. -/
def toUint (n : Int) : Nat := (n % 4294967296).toNat

def CONSOLE : Int16 := 1

def hasDriver (major : Int16) : Bool := major = CONSOLE

/-- `fileread`: its result and the bytes copied. -/
def fileread (f : Fin NFILE) (dst : Nat → Bool) (n ext : Int) : M (Int × List UInt8) := do
  let x ← getFile f
  if x.readable = false then return (-1, [])
  else match x.type with
    | .pipe => return (ext, [])
    | .device => return (if hasDriver x.major then ext else -1, [])
    | .inode =>
      ilock sb x.ip
      let (r, out) ← readi sb x.ip dst x.off (toUint n)
      if r > 0 then setFile f fun x => { x with off := add32 x.off r.toNat } else pure ()
      iunlock x.ip
      return (r, out)
    | .none => throw .fileread

/-- The bytes one transaction of `filewrite` may write. -/
def writeMax : Nat := (MAXOPBLOCKS - 1 - 1 - 2) / 2 * BSIZE

/-- `filewrite`'s loop from `i` on; it gives the `i` it ends with. -/
def filewriteFrom (f : Fin NFILE) (src : User) (n : Nat) : Nat → Nat → M Nat
  | 0, i => return i
  | fuel + 1, i =>
    if i < n then do
      let n1 := min (n - i) writeMax
      beginOp
      let x ← getFile f
      ilock sb x.ip
      let r ← writei sb x.ip (fun k => src (i + k)) x.off n1
      if r > 0 then setFile f fun x => { x with off := add32 x.off r.toNat } else pure ()
      iunlock x.ip
      endOp
      if r ≠ n1 then return i
      else filewriteFrom f src n fuel (i + n1)
    else return i

def filewrite (f : Fin NFILE) (src : User) (n ext : Int) : M Int := do
  let x ← getFile f
  if x.writable = false then return -1
  else match x.type with
    | .pipe => return ext
    | .device => return if hasDriver x.major then ext else -1
    | .inode =>
      let i ← filewriteFrom sb f src n.toNat n.toNat 0
      return if i = n then n else -1
    | .none => throw .filewrite

end Xv6.Fs
