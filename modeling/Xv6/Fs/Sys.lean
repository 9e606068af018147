/-
  Xv6.Fs.Sys — the system calls on files (`kernel/sysfile.c`; `kernel/exec.c`: what
  `kexec` does to files; `kernel/proc.c`: the same for `kfork` and `kexit`), `ireclaim`,
  and the machine whose steps they are: any processes make any calls, one whole call after
  another, and a clean buffer may be evicted at any time. Whether memory can be had, and
  user memory copied to, is given with the call.
-/

import Xv6.Fs.File

namespace Xv6.Fs

open Lib

variable (sb : Superblock)

/-! ## Arguments -/

def fetchstr (u : User) : Nat → Nat → Option Name
  | 0, _ => none
  | max + 1, k =>
    match u k with
    | none => none
    | some c => if c = 0 then some [] else (fetchstr u max (k + 1)).map (c :: ·)

/-- `argstr` into a buffer of `MAXPATH` bytes. -/
def argstr (u : User) : Option Name := fetchstr u MAXPATH 0

def getCwd (p : Fin NPROC) : M Idx := do return ((← get).proc p).cwd

/-- `"."` and `".."`. -/
def dot : Name := [46]
def dotdot : Name := [46, 46]

/-! ## create -/

/-- `create`'s label `fail`. -/
def createFail (dp ip : Idx) : M (Option Idx) := do
  setInode ip fun x => { x with nlink := 0 }
  iupdate sb ip
  iunlockput sb ip
  iunlockput sb dp
  return none

/-- `dirlink(ip, ".", ip->inum) < 0 || dirlink(ip, "..", dp->inum) < 0`, negated. -/
def linkDots (dp ip : Idx) : M Bool := do
  let r ← dirlink sb ip dot (← getInode ip).inum
  if r < 0 then return false
  else do
    let r ← dirlink sb ip dotdot (← getInode dp).inum
    return !(r < 0)

/-- `create` from `ialloc` on, in the locked directory `dp` that has no entry `name`. -/
def createNew (dp : Idx) (name : Name) (type major minor : Int16) : M (Option Idx) := do
  match ← ialloc sb (← getInode dp).dev type with
  | none =>
    iunlockput sb dp
    return none
  | some ip =>
    ilock sb ip
    setInode ip fun x => { x with major := major, minor := minor, nlink := 1 }
    iupdate sb ip
    let ok ← if type = T_DIR then linkDots sb dp ip else pure true
    if !ok then createFail sb dp ip
    else do
      let r ← dirlink sb dp name (← getInode ip).inum
      if r < 0 then createFail sb dp ip
      else do
        if type = T_DIR then do
          setInode dp fun x => { x with nlink := x.nlink + 1 }
          iupdate sb dp
        else pure ()
        iunlockput sb dp
        return some ip

def create (cwd : Idx) (path : Name) (type major minor : Int16) : M (Option Idx) := do
  match ← nameiparent sb cwd path with
  | none => return none
  | some (dp, name) =>
    ilock sb dp
    match ← dirlookup sb dp name with
    | some (ip, _) =>
      iunlockput sb dp
      ilock sb ip
      let i ← getInode ip
      if type = T_FILE ∧ (i.type = T_FILE ∨ i.type = T_DEVICE) then return some ip
      else do
        iunlockput sb ip
        return none
    | none => createNew sb dp name type major minor

/-! ## open, mkdir, mknod, chdir -/

/-- `sys_open` once it has the locked inode. -/
def openInode (p : Fin NPROC) (ip : Idx) (omode : Nat) : M Int := do
  let i ← getInode ip
  if i.type = T_DEVICE ∧ (i.major < 0 ∨ NDEV ≤ i.major.toInt) then do
    iunlockput sb ip
    endOp
    return -1
  else do
    match ← filealloc with
    | none =>
      iunlockput sb ip
      endOp
      return -1
    | some f =>
      match ← fdalloc p f with
      | none =>
        fileclose sb f
        iunlockput sb ip
        endOp
        return -1
      | some fd =>
        if i.type = T_DEVICE then setFile f fun x => { x with type := .device, major := i.major }
        else setFile f fun x => { x with type := .inode, off := 0 }
        setFile f fun x => { x with
          ip := ip
          readable := omode &&& O_WRONLY = 0
          writable := omode &&& O_WRONLY ≠ 0 ∨ omode &&& O_RDWR ≠ 0 }
        if omode &&& O_TRUNC ≠ 0 ∧ i.type = T_FILE then itrunc sb ip else pure ()
        iunlock ip
        endOp
        return fd.1

def sysOpen (p : Fin NPROC) (path : User) (omode : Nat) : M Int := do
  match argstr path with
  | none => return -1
  | some path =>
    beginOp
    let cwd ← getCwd p
    if omode &&& O_CREATE ≠ 0 then do
      match ← create sb cwd path T_FILE 0 0 with
      | none =>
        endOp
        return -1
      | some ip => openInode sb p ip omode
    else do
      match ← namei sb cwd path with
      | none =>
        endOp
        return -1
      | some ip =>
        ilock sb ip
        let i ← getInode ip
        if i.type = T_DIR ∧ omode ≠ O_RDONLY then do
          iunlockput sb ip
          endOp
          return -1
        else openInode sb p ip omode

/-- `sys_mkdir` and `sys_mknod`: make an inode and let go of it. -/
def sysMake (p : Fin NPROC) (path : User) (type major minor : Int16) : M Int := do
  beginOp
  match argstr path with
  | none =>
    endOp
    return -1
  | some path =>
    match ← create sb (← getCwd p) path type major minor with
    | none =>
      endOp
      return -1
    | some ip =>
      iunlockput sb ip
      endOp
      return 0

def sysMkdir (p : Fin NPROC) (path : User) : M Int := sysMake sb p path T_DIR 0 0

/-- `major` and `minor` are cut from `int` to `short`. -/
def sysMknod (p : Fin NPROC) (path : User) (major minor : Int) : M Int :=
  sysMake sb p path T_DEVICE (Int16.ofInt major) (Int16.ofInt minor)

def sysChdir (p : Fin NPROC) (path : User) : M Int := do
  beginOp
  match argstr path with
  | none =>
    endOp
    return -1
  | some path =>
    match ← namei sb (← getCwd p) path with
    | none =>
      endOp
      return -1
    | some ip =>
      ilock sb ip
      let i ← getInode ip
      if i.type ≠ T_DIR then do
        iunlockput sb ip
        endOp
        return -1
      else do
        iunlock ip
        iput sb (← getCwd p)
        endOp
        setProc p fun x => { x with cwd := ip }
        return 0

/-! ## link, unlink -/

/-- `sys_link`'s label `bad`. -/
def linkBad (ip : Idx) : M Int := do
  ilock sb ip
  setInode ip fun x => { x with nlink := x.nlink - 1 }
  iupdate sb ip
  iunlockput sb ip
  endOp
  return -1

def sysLink (p : Fin NPROC) (old new : User) : M Int := do
  match argstr old, argstr new with
  | some old, some new =>
    beginOp
    match ← namei sb (← getCwd p) old with
    | none =>
      endOp
      return -1
    | some ip =>
      ilock sb ip
      let i ← getInode ip
      if i.type = T_DIR then do
        iunlockput sb ip
        endOp
        return -1
      else do
        setInode ip fun x => { x with nlink := x.nlink + 1 }
        iupdate sb ip
        iunlock ip
        match ← nameiparent sb (← getCwd p) new with
        | none => linkBad sb ip
        | some (dp, name) =>
          ilock sb dp
          let r ← if (← getInode dp).dev ≠ (← getInode ip).dev then pure (-1) else dirlink sb dp name (←
            getInode ip).inum
          if r < 0 then do
            iunlockput sb dp
            linkBad sb ip
          else do
            iunlockput sb dp
            iput sb ip
            endOp
            return 0
  | _, _ => return -1

/-- `sys_unlink` up to the removal: the directory and the inode, both locked, and the
    offset of the entry; `none` through the label `bad`. -/
def unlinkFind (cwd : Idx) (path : Name) : M (Option (Idx × Idx × Nat)) := do
  match ← nameiparent sb cwd path with
  | none => return none
  | some (dp, name) =>
    ilock sb dp
    if namecmp name dot = 0 ∨ namecmp name dotdot = 0 then do
      iunlockput sb dp
      return none
    else do
      match ← dirlookup sb dp name with
      | none =>
        iunlockput sb dp
        return none
      | some (ip, off) =>
        ilock sb ip
        let i ← getInode ip
        if i.nlink < 1 then throw .unlinkNlink
        else do
          let empty ← if i.type = T_DIR then isdirempty sb ip else pure true
          if !empty then do
            iunlockput sb ip
            iunlockput sb dp
            return none
          else return some (dp, ip, off)

/-- The rest of it: the entry is zeroed and both link counts go down. -/
def unlinkRemove (dp ip : Idx) (off : Nat) : M Unit := do
  let r ← writei sb dp (kernelSrc (List.replicate DESIZE 0)) off DESIZE
  if r ≠ DESIZE then throw .unlinkWritei
  else do
    let i ← getInode ip
    if i.type = T_DIR then do
      setInode dp fun x => { x with nlink := x.nlink - 1 }
      iupdate sb dp
    else pure ()
    iunlockput sb dp
    setInode ip fun x => { x with nlink := x.nlink - 1 }
    iupdate sb ip
    iunlockput sb ip

def sysUnlink (p : Fin NPROC) (path : User) : M Int := do
  match argstr path with
  | none => return -1
  | some path =>
    beginOp
    match ← unlinkFind sb (← getCwd p) path with
    | none =>
      endOp
      return -1
    | some (dp, ip, off) =>
      unlinkRemove sb dp ip off
      endOp
      return 0

/-! ## Descriptors -/

def sysClose (p : Fin NPROC) (fd : Int) : M Int := do
  match ← argfd p fd with
  | none => return -1
  | some (fd, f) =>
    setProc p fun x => { x with ofile := upd x.ofile fd none }
    fileclose sb f
    return 0

def sysDup (p : Fin NPROC) (fd : Int) : M Int := do
  match ← argfd p fd with
  | none => return -1
  | some (_, f) =>
    match ← fdalloc p f with
    | none => return -1
    | some fd =>
      filedup f
      return fd.1

def sysRead (p : Fin NPROC) (fd : Int) (dst : Nat → Bool) (n ext : Int) : M (Int × List UInt8) := do
  match ← argfd p fd with
  | none => return (-1, [])
  | some (_, f) => fileread sb f dst n ext

def sysWrite (p : Fin NPROC) (fd : Int) (src : User) (n ext : Int) : M Int := do
  match ← argfd p fd with
  | none => return -1
  | some (_, f) => filewrite sb f src n ext

def sysFstat (p : Fin NPROC) (fd : Int) (ok : Bool) : M Int := do
  match ← argfd p fd with
  | none => return -1
  | some (_, f) => filestat sb f ok

/-- `sys_pipe`; `page` is what `kalloc` may give, `ok` when both descriptors can be copied
    to the user. -/
def sysPipe (p : Fin NPROC) (page : Option Nat) (ok : Bool) : M Int := do
  match ← pipealloc sb page with
  | none => return -1
  | some (rf, wf) =>
    match ← fdalloc p rf with
    | none =>
      fileclose sb rf
      fileclose sb wf
      return -1
    | some fd0 =>
      match ← fdalloc p wf with
      | none =>
        setProc p fun x => { x with ofile := upd x.ofile fd0 none }
        fileclose sb rf
        fileclose sb wf
        return -1
      | some fd1 =>
        if ok then return 0
        else do
          setProc p fun x => { x with ofile := upd x.ofile fd0 none }
          setProc p fun x => { x with ofile := upd x.ofile fd1 none }
          fileclose sb rf
          fileclose sb wf
          return -1

/-! ## exec -/

/-- Field of `w` bytes at `off` of a header read into memory. -/
def field (l : List UInt8) (off : Nat) : Nat → Nat
  | 0 => 0
  | w + 1 => (l.getD off 0).toNat + 256 * field l (off + 1) w

def ELFHDR : Nat := 64
def PROGHDR : Nat := 56
def ELF_MAGIC : Nat := 0x464C457F
def ELF_PROG_LOAD : Nat := 1

/-- `loadseg`'s loop from `i` on: a page at a time, `offset` and `sz` being `uint`s. -/
def loadseg (ip : Idx) (offset sz : Nat) : Nat → Nat → M Bool
  | 0, _ => return true
  | fuel + 1, i =>
    if i < sz then do
      let n := if sz - i < PGSIZE then sz - i else PGSIZE
      let (r, _) ← readi sb ip kernelDst (add32 offset i) n
      if r ≠ n then return false else loadseg ip offset sz fuel (i + PGSIZE)
    else return true

/-- `kexec`'s loop over the program headers, from header `i` at `off` on; `mem i` tells
    whether `uvmalloc` finds the memory for segment `i`. -/
def loadSegs (ip : Idx) (mem : Nat → Bool) : Nat → Nat → Nat → M Bool
  | 0, _, _ => return true
  | fuel + 1, i, off => do
    let (r, ph) ← readi sb ip kernelDst off PROGHDR
    if r ≠ PROGHDR then return false
    else if field ph 0 4 ≠ ELF_PROG_LOAD then loadSegs ip mem fuel (i + 1) (add32 off PROGHDR)
    else if field ph 40 8 < field ph 32 8 then return false
    else if 18446744073709551616 ≤ field ph 16 8 + field ph 40 8 then return false
    else if field ph 16 8 % PGSIZE ≠ 0 then return false
    else if mem i = false then return false
    else do
      let sz := field ph 32 8 % 4294967296
      if ← loadseg sb ip (field ph 8 8 % 4294967296) sz (sz / PGSIZE + 1) 0 then
        loadSegs ip mem fuel (i + 1) (add32 off PROGHDR)
      else return false

/-- The files of `kexec`; `table` tells whether `proc_pagetable` succeeds, `stack` whether
    the stack and the arguments can be set up. It gives 0 for `argc`. -/
def kexec (p : Fin NPROC) (path : Name) (table : Bool) (mem : Nat → Bool) (stack : Bool) : M Int := do
  beginOp
  match ← namei sb (← getCwd p) path with
  | none =>
    endOp
    return -1
  | some ip =>
    ilock sb ip
    let (r, elf) ← readi sb ip kernelDst 0 ELFHDR
    let ok ←
      if r ≠ ELFHDR ∨ field elf 0 4 ≠ ELF_MAGIC ∨ table = false then pure false
      else loadSegs sb ip mem (field elf 56 2) 0 (field elf 32 8 % 4294967296)
    iunlockput sb ip
    endOp
    return if ok && stack then 0 else -1

/-- `sys_exec`; `args` tells whether the arguments can be fetched. -/
def sysExec (p : Fin NPROC) (path : User) (args table : Bool) (mem : Nat → Bool) (stack : Bool) : M Int := do
  match argstr path with
  | none => return -1
  | some path => if args then kexec sb p path table mem stack else return -1

/-! ## Processes -/

/-- `kfork`'s loop over the descriptors left. -/
def dupFiles (p q : Fin NPROC) : List (Fin NOFILE) → M Unit
  | [] => return ()
  | fd :: fds => do
    match ((← get).proc p).ofile fd with
    | none => dupFiles p q fds
    | some f =>
      filedup f
      setProc q fun x => { x with ofile := upd x.ofile fd (some f) }
      dupFiles p q fds

/-- The files of `kfork`, the new process being the slot `q` if that is free; `ok` tells
    whether there is memory for it. -/
def kfork (p q : Fin NPROC) (ok : Bool) : M Unit := do
  if ok = false ∨ ((← get).proc q).live then return ()
  else do
    dupFiles p q (List.finRange NOFILE)
    let cwd ← idup (← getCwd p)
    setProc q fun x => { x with cwd := cwd, live := true }

/-- `kexit`'s loop over the descriptors left. -/
def closeFiles (p : Fin NPROC) : List (Fin NOFILE) → M Unit
  | [] => return ()
  | fd :: fds => do
    match ((← get).proc p).ofile fd with
    | none => closeFiles p fds
    | some f =>
      fileclose sb f
      setProc p fun x => { x with ofile := upd x.ofile fd none }
      closeFiles p fds

/-- Slot 0 is `initproc`. -/
def kexit (p : Fin NPROC) : M Unit := do
  if p.1 = 0 then throw .initExiting
  else do
    closeFiles sb p (List.finRange NOFILE)
    beginOp
    iput sb (← getCwd p)
    endOp
    setProc p fun x => { x with live := false }

/-! ## Boot -/

/-- `ireclaim`'s loop from `inum` on. -/
def ireclaimFrom : Nat → Nat → M Unit
  | 0, _ => return ()
  | fuel + 1, inum =>
    if inum < sb.ninodes then do
      let bp ← bread (sb.IBLOCK inum)
      let dip := getDinode bp (ioff inum)
      if dip.type ≠ 0 ∧ dip.nlink = 0 then do
        let ip ← iget ROOTDEV inum
        brelse (sb.IBLOCK inum)
        beginOp
        ilock sb ip
        iunlock ip
        iput sb ip
        endOp
        ireclaimFrom fuel (inum + 1)
      else do
        brelse (sb.IBLOCK inum)
        ireclaimFrom fuel (inum + 1)
    else return ()

def ireclaim : M Unit := ireclaimFrom sb sb.ninodes 1

def noInode : Inode := { Dinode.blank with dev := 0, inum := 0, ref := 0, lock := false, valid := false }

/-- The kernel as `userinit` leaves it on a disk: one process, its current directory the root. -/
def mount (disk : Nat → Block) : St where
  data := disk
  home := disk
  log := ⟨0, false, []⟩
  bufs := []
  inode := fun ip => if ip.1 = 0 then { noInode with dev := ROOTDEV, inum := ROOTINO, ref := 1 } else noInode
  file := fun _ => ⟨.none, 0, false, false, 0, .zero, 0, 0⟩
  proc := fun p => ⟨p.1 = 0, .zero, fun _ => none⟩
  pipe := fun _ => ⟨false, false, false⟩

/-- `fsinit` on it. -/
def boot (disk : Nat → Block) : Except Panic St := (ireclaim sb (mount disk)).map (·.2)

/-! ## The machine -/

inductive Ev where
  | open (p : Fin NPROC) (path : User) (omode : Nat)
  | mkdir (p : Fin NPROC) (path : User)
  | mknod (p : Fin NPROC) (path : User) (major minor : Int)
  | chdir (p : Fin NPROC) (path : User)
  | link (p : Fin NPROC) (old new : User)
  | unlink (p : Fin NPROC) (path : User)
  | close (p : Fin NPROC) (fd : Int)
  | dup (p : Fin NPROC) (fd : Int)
  | read (p : Fin NPROC) (fd : Int) (dst : Nat → Bool) (n ext : Int)
  | write (p : Fin NPROC) (fd : Int) (src : User) (n ext : Int)
  | fstat (p : Fin NPROC) (fd : Int) (ok : Bool)
  | pipe (p : Fin NPROC) (page : Option Nat) (ok : Bool)
  | exec (p : Fin NPROC) (path : User) (args table : Bool) (mem : Nat → Bool) (stack : Bool)
  | fork (p q : Fin NPROC) (ok : Bool)
  | exit (p : Fin NPROC)
  | evict (b : Nat)

def evict (b : Nat) : M Unit := modify fun s => if b ∈ s.log.lh then s else { s with data := upd s.data b (s.home b) }

def by_ (p : Fin NPROC) (m : M Unit) : M Unit := do
  if ((← get).proc p).live then m else return ()

def act : Ev → M Unit
  | .open p path omode => by_ p (discard (sysOpen sb p path omode))
  | .mkdir p path => by_ p (discard (sysMkdir sb p path))
  | .mknod p path major minor => by_ p (discard (sysMknod sb p path major minor))
  | .chdir p path => by_ p (discard (sysChdir sb p path))
  | .link p old new => by_ p (discard (sysLink sb p old new))
  | .unlink p path => by_ p (discard (sysUnlink sb p path))
  | .close p fd => by_ p (discard (sysClose sb p fd))
  | .dup p fd => by_ p (discard (sysDup p fd))
  | .read p fd dst n ext => by_ p (discard (sysRead sb p fd dst n ext))
  | .write p fd src n ext => by_ p (discard (sysWrite sb p fd src n ext))
  | .fstat p fd ok => by_ p (discard (sysFstat sb p fd ok))
  | .pipe p page ok => by_ p (discard (sysPipe sb p page ok))
  | .exec p path args table mem stack => by_ p (discard (sysExec sb p path args table mem stack))
  | .fork p q ok => by_ p (kfork p q ok)
  | .exit p => by_ p (kexit sb p)
  | .evict b => evict b

/-- After a panic nothing moves. -/
def step : Except Panic St → Ev → Except Panic St
  | .error x, _ => .error x
  | .ok s, e => (act sb e s).map (·.2)

end Xv6.Fs
