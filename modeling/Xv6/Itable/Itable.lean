/-
  Xv6.Itable.Itable — the inode table under concurrency (`kernel/fs.c`: `ialloc`, `iupdate`,
  `iget`, `idup`, `ilock`, `iunlock`, `iput`).

  A critical section of `itable.lock` is one step, and so is a stretch of code under an
  inode's sleep-lock that reads or writes its dinode once: the buffer's lock makes that
  atomic. `iput` lets go of `itable.lock` while it frees an inode, which takes it through
  five further steps (`itrunc` to `idrop`). `ialloc` looks at one dinode per step and calls
  `iget` in a step of its own. Who holds the sleep-lock of an entry may change its fields
  (`write`) and store them (`iupdate`).

  What callers keep to (`Meets`): they use an entry on a reference that nobody gives up
  meanwhile, only `iput` gives an inode type 0, and `ialloc` is called for a type.

  For the record the state also holds the number of references that may be used (`live`),
  how often each inode was allocated, for each copy how often when it was read, and the last
  allocation of an inode as long as no `ilock` of it has returned since (`fresh`).

  `ref` is an `int`; the references are those of NFILE files, NPROC current directories and
  the calls of NPROC processes, so that it does not overflow. The blocks that `itrunc` frees
  are left out, and so is the log.
-/

import Mathlib.Data.Fintype.Basic
import Xv6.Lib.Run
import Xv6.Lib.First
import Xv6.Fs.Layout

namespace Xv6.Itable

open Lib Fs

abbrev Slot := Fin NINODE

/-- `dev` and `inum`. -/
abbrev Ino := Nat × Nat

/-- `struct inode`; `lock` is who holds the sleep-lock. -/
structure Inode (P : Type) extends Dinode where
  dev : Nat
  inum : Nat
  ref : Nat
  lock : Option P
  valid : Bool
  /-- How often the inode had been allocated when this copy was read. -/
  readAt : Nat

def Inode.ino {P : Type} (i : Inode P) : Ino := (i.dev, i.inum)

structure Alloc where
  type : Int16
  nth : Nat
  deriving DecidableEq

inductive Pc where
  | idle
  /-- `ialloc`'s loop. -/
  | ialloc (dev : Nat) (type : Int16) (inum : Nat)
  /-- The dinode is marked allocated. -/
  | iallocGet (dev inum : Nat) (a : Alloc)
  /-- `ialloc` has returned `ip`, which its caller goes on to lock. -/
  | alloced (ip : Slot) (a : Alloc)
  /-- In `ilock`, before and after `acquiresleep`; `a` if the inode comes from `ialloc`. -/
  | ilock (ip : Slot) (a : Option Alloc)
  | ilockRead (ip : Slot) (a : Option Alloc)
  | iput (ip : Slot)
  /-- In `iput`, with the sleep-lock. -/
  | itrunc (ip : Slot)
  | ifree (ip : Slot)
  | ivalid (ip : Slot)
  | irelease (ip : Slot)
  /-- In `iput`, before `ip->ref--`. -/
  | idrop (ip : Slot)
  deriving DecidableEq

structure St (P : Type) where
  inode : Slot → Inode P
  disk : Ino → Dinode
  pc : P → Pc
  live : Slot → Nat
  allocs : Ino → Nat
  fresh : Ino → Option Alloc
  panicked : Bool

inductive Ev (P : Type) where
  | iget (p : P) (dev inum : Nat)
  | idup (p : P) (ip : Slot)
  | ilock (p : P) (ip : Slot)
  | iunlock (p : P) (ip : Slot)
  | iput (p : P) (ip : Slot)
  | ialloc (p : P) (dev : Nat) (type : Int16)
  | write (p : P) (ip : Slot) (d : Dinode)
  | iupdate (p : P) (ip : Slot)
  /-- The next step of the call that `p` is in. -/
  | go (p : P)

variable {P : Type} [DecidableEq P]

/-- Nothing runs after a panic. -/
def St.panic (s : St P) : St P := { s with panicked := true }

def St.setPc (s : St P) (p : P) (pc : Pc) : St P := { s with pc := upd s.pc p pc }

def St.setInode (s : St P) (ip : Slot) (i : Inode P) : St P := { s with inode := upd s.inode ip i }

def St.ref (s : St P) (ip : Slot) : Nat := (s.inode ip).ref

def St.ino (s : St P) (ip : Slot) : Ino := (s.inode ip).ino

/-! ## iget, idup -/

def idup (s : St P) (ip : Slot) : St P :=
  { s.setInode ip { s.inode ip with ref := (s.inode ip).ref + 1 } with live := upd s.live ip (s.live ip + 1) }

def recycle (s : St P) (ip : Slot) (dev inum : Nat) : St P :=
  { s.setInode ip { s.inode ip with dev := dev, inum := inum, ref := 1, valid := false } with
    live := upd s.live ip (s.live ip + 1) }

def iget (s : St P) (dev inum : Nat) : Option (Slot × St P) :=
  match first fun ip => decide (0 < s.ref ip ∧ s.ino ip = (dev, inum)) with
  | some ip => some (ip, idup s ip)
  | none =>
    match first fun ip => decide (s.ref ip = 0) with
    | some ip => some (ip, recycle s ip dev inum)
    | none => none

/-! ## The steps of a call -/

/-- `ilock` up to `acquiresleep`. -/
def ilock (s : St P) (p : P) (ip : Slot) (a : Option Alloc) : St P :=
  if s.ref ip < 1 then s.panic else s.setPc p (.ilock ip a)

/-- `ilock` returns. -/
def locked (s : St P) (p : P) (ip : Slot) : St P :=
  { s.setPc p .idle with fresh := upd s.fresh (s.ino ip) none }

/-- `iupdate`. -/
def store (s : St P) (ip : Slot) : St P := { s with disk := upd s.disk (s.ino ip) (s.inode ip).toDinode }

/-- What `iput` tests. -/
def St.freeable (s : St P) (ip : Slot) : Bool :=
  decide ((s.inode ip).ref = 1) && (s.inode ip).valid && decide ((s.inode ip).nlink = 0)

def drop (s : St P) (p : P) (ip : Slot) : St P :=
  (s.setInode ip { s.inode ip with ref := (s.inode ip).ref - 1 }).setPc p .idle

def go (ninodes : Nat) (s : St P) (p : P) : Pc → St P
  | .idle => s
  | .ialloc dev type inum =>
    if inum < ninodes then
      if (s.disk (dev, inum)).type = 0 then
        let a : Alloc := ⟨type, s.allocs (dev, inum) + 1⟩
        { s with
          disk := upd s.disk (dev, inum) (Dinode.ofType type)
          allocs := upd s.allocs (dev, inum) a.nth
          fresh := upd s.fresh (dev, inum) (some a)
          pc := upd s.pc p (.iallocGet dev inum a) }
      else s.setPc p (.ialloc dev type (inum + 1))
    else s.setPc p .idle
  | .iallocGet dev inum a =>
    match iget s dev inum with
    | some (ip, s) => s.setPc p (.alloced ip a)
    | none => s.panic
  | .alloced ip a => ilock s p ip (some a)
  | .ilock ip a =>
    if (s.inode ip).lock = none then (s.setInode ip { s.inode ip with lock := some p }).setPc p (.ilockRead ip a) else s
  | .ilockRead ip _ =>
    if (s.inode ip).valid then locked s p ip
    else if (s.disk (s.ino ip)).type = 0 then s.panic
    else locked (s.setInode ip
      { s.inode ip with toDinode := s.disk (s.ino ip), valid := true, readAt := s.allocs (s.ino ip) }) p ip
  | .iput ip =>
    if s.freeable ip then
      -- `acquiresleep` must not sleep with `itable.lock` held
      if (s.inode ip).lock = none then (s.setInode ip { s.inode ip with lock := some p }).setPc p
        (.itrunc ip) else s.panic
    else drop s p ip
  | .itrunc ip =>
    (store (s.setInode ip { s.inode ip with size := 0, addrs := fun _ => 0 }) ip).setPc p (.ifree ip)
  | .ifree ip => (store (s.setInode ip { s.inode ip with type := 0 }) ip).setPc p (.ivalid ip)
  | .ivalid ip => (s.setInode ip { s.inode ip with valid := false }).setPc p (.irelease ip)
  | .irelease ip => (s.setInode ip { s.inode ip with lock := none }).setPc p (.idrop ip)
  | .idrop ip => drop s p ip

def call (s : St P) : Ev P → St P
  | .iget _ dev inum =>
    match iget s dev inum with
    | some (_, s) => s
    | none => s.panic
  | .idup _ ip => idup s ip
  | .ilock p ip => ilock s p ip none
  | .iunlock p ip =>
    if (s.inode ip).lock ≠ some p ∨ s.ref ip < 1 then s.panic
    else s.setInode ip { s.inode ip with lock := none }
  | .iput p ip => { s.setPc p (.iput ip) with live := upd s.live ip (s.live ip - 1) }
  | .ialloc p dev type => s.setPc p (.ialloc dev type 1)
  | .write _ ip d => s.setInode ip { s.inode ip with toDinode := d }
  | .iupdate _ ip => store s ip
  | .go _ => s

def Ev.by : Ev P → P
  | .iget p _ _ | .idup p _ | .ilock p _ | .iunlock p _ | .iput p _ | .ialloc p _ _ | .write p _ _ |
    .iupdate p _ | .go p => p

def step (ninodes : Nat) (s : St P) (e : Ev P) : St P :=
  if s.panicked then s
  else
    match e with
    | .go p => go ninodes s p (s.pc p)
    | e => if s.pc e.by = .idle then call s e else s

/-- The table is empty; the disk is any. -/
def iinit (disk : Ino → Dinode) : St P :=
  { inode := fun _ => { Dinode.blank with dev := 0, inum := 0, ref := 0, lock := none, valid := false, readAt := 0 }
    disk := disk
    pc := fun _ => .idle
    live := fun _ => 0
    allocs := fun _ => 0
    fresh := fun _ => none
    panicked := false }

/-! ## What callers keep to -/

/-- The entry that a process is in `ilock` with, or about to be. -/
def Pc.locks : Pc → Option Slot
  | .alloced ip _ | .ilock ip _ | .ilockRead ip _ => some ip
  | _ => none

def Pc.frees : Pc → Option Slot
  | .itrunc ip | .ifree ip | .ivalid ip | .irelease ip => some ip
  | _ => none

/-- Process `q` is in `ilock(ip)`, or has locked `ip`. -/
def Uses (s : St P) (q : P) (ip : Slot) : Prop :=
  (s.pc q).locks = some ip ∨ ((s.inode ip).lock = some q ∧ (s.pc q).frees ≠ some ip)

instance (s : St P) (q : P) (ip : Slot) : Decidable (Uses s q ip) := inferInstanceAs (Decidable (_ ∨ _))

def Meets (s : St P) : Ev P → Prop
  | .idup _ ip => 1 ≤ s.live ip
  | .ilock _ ip => 1 ≤ s.live ip
  | .iput _ ip => 1 ≤ s.live ip ∧ (s.live ip = 1 → ∀ q, ¬ Uses s q ip)
  | .ialloc _ _ type => type ≠ 0
  | .write p ip d => (s.inode ip).lock = some p ∧ d.type ≠ 0
  | .iupdate p ip => (s.inode ip).lock = some p
  | _ => True

instance [Fintype P] (s : St P) : (e : Ev P) → Decidable (Meets s e)
  | .iget _ _ _ => isTrue trivial
  | .idup _ ip => inferInstanceAs (Decidable (1 ≤ s.live ip))
  | .ilock _ ip => inferInstanceAs (Decidable (1 ≤ s.live ip))
  | .iunlock _ _ => isTrue trivial
  | .iput _ ip => inferInstanceAs (Decidable (1 ≤ s.live ip ∧ (s.live ip = 1 → ∀ q, ¬ Uses s q ip)))
  | .ialloc _ _ type => inferInstanceAs (Decidable (type ≠ 0))
  | .write p ip d => inferInstanceAs (Decidable ((s.inode ip).lock = some p ∧ d.type ≠ 0))
  | .iupdate p ip => inferInstanceAs (Decidable ((s.inode ip).lock = some p))
  | .go _ => isTrue trivial

end Xv6.Itable
