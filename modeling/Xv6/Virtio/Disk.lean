/-
  Xv6.Virtio.Disk — the virtio disk driver (`kernel/virtio_disk.c`: `alloc_desc`, `free_desc`,
  `free_chain`, `alloc3_desc`, `virtio_disk_rw`, `virtio_disk_intr`) as a program under
  `vdisk_lock` (see `Xv6.Lib.Monitor`), and the device it talks to.

  The parties are the processes that call `virtio_disk_rw` and the harts whose interrupt
  handler calls `virtio_disk_intr`. The device is hardware (`env`): it reads the avail ring,
  works on the chains it has read in any order, and for each writes the status, a used-ring
  entry and then `used->idx`. The indices are the 16-bit ones, which wrap.

  For the record the data also holds, for every buffer, what happened to it last.

  Left out: the data that is transferred, and the contents of `disk.ops`, which only the device
  reads.
-/

import Xv6.Param
import Xv6.Lib.Signals
import Xv6.Lib.Fifo

namespace Xv6.Virtio

open Lib

abbrev NUM : Nat := 8

theorem num_pos : 0 < NUM := Nat.zero_lt_succ 7

/-- What a descriptor points to: nothing, `&disk.ops[i]`, `b->data` or `&disk.info[i].status`. -/
inductive Addr (B : Type) where
  | null
  | op (i : Nat)
  | data (b : B)
  | status (i : Nat)
  deriving DecidableEq, Repr

/-- `struct virtq_desc`; `fNext` and `fWrite` are the bits of `flags`. -/
structure Desc (B : Type) where
  addr : Addr B
  len : Nat
  fNext : Bool
  fWrite : Bool
  next : Nat
  deriving DecidableEq, Repr

inductive Stage where
  | returned
  | published
  | completed
  | cleared
  deriving DecidableEq, Repr

/-- What must happen next. -/
def Stage.next : Stage → Stage
  | .returned => .published
  | .published => .completed
  | .completed => .cleared
  | .cleared => .returned

inductive Panic where
  | freeDesc1
  | freeDesc2
  | status
  /-- `b` is null. -/
  | fault
  deriving DecidableEq, Repr

structure Disk (B : Type) where
  desc : Nat → Desc B
  free : Nat → Bool
  /-- `avail->idx` and `avail->ring`. -/
  availIdx : BitVec 16
  availRing : Fin NUM → Nat
  /-- `used->idx` and the ids in `used->ring`. -/
  usedIdx : BitVec 16
  usedRing : Fin NUM → Nat
  /-- `disk.used_idx`. -/
  seen : BitVec 16
  /-- `disk.info[i].b` and `disk.info[i].status`. -/
  infoB : Nat → Option B
  infoStatus : Nat → BitVec 8
  /-- `b->disk`. -/
  bdisk : B → Bool
  /-- The device: how far it has read the avail ring, the chains it works on, those whose status it has written, and the
      one whose used-ring entry it has written. -/
  fetched : BitVec 16
  working : List Nat
  finished : List Nat
  entered : Option Nat
  panic : Option Panic
  stage : B → Stage
  /-- Every buffer went through its stages in order. -/
  orderly : Bool

variable {B : Type} [DecidableEq B]

def Disk.note (d : Disk B) (b : B) (w : Stage) : Disk B :=
  { d with stage := upd d.stage b w, orderly := d.orderly && decide (w = (d.stage b).next) }

/-- `&disk.free[0]`, and a buffer. -/
inductive Chan (B : Type) where
  | free0
  | buf (b : B)
  deriving DecidableEq, Repr

inductive Call (B : Type) where
  | virtioDiskRw (b : B) (write : Bool)
  | virtioDiskIntr
  deriving DecidableEq, Repr

/-- `int idx[3]`. -/
structure Idx where
  i0 : Nat
  i1 : Nat
  i2 : Nat
  deriving DecidableEq, Repr

def Idx.list (idx : Idx) : List Nat := [idx.i0, idx.i1, idx.i2]

inductive Loc (B : Type) where
  /-- The loop around `alloc3_desc`. -/
  | alloc (b : B) (write : Bool)
  /-- `alloc3_desc` failed and has these still to free. -/
  | undo (b : B) (write : Bool) (todo : List Nat)
  | format (b : B) (write : Bool) (idx : Idx)
  /-- `disk.avail->ring[disk.avail->idx % NUM] = idx[0]`, and `disk.avail->idx += 1`. -/
  | publish (b : B) (idx : Idx)
  | bump (b : B) (idx : Idx)
  | wait (b : B) (idx : Idx)
  | finish (b : B) (idx : Idx)
  /-- The loop of `free_chain`; `rest` is what the chain holds after `i`. -/
  | freeChain (b : B) (i : Nat) (rest : List Nat)
  | ret (b : B)
  /-- The loop of `virtio_disk_intr`, and after its `wakeup`. -/
  | intr
  | intrNext (id : Nat)
  | panicked
  deriving DecidableEq, Repr

open Monitor (Act)

def Disk.stop (d : Disk B) (p : Panic) : Disk B × Act (Chan B) (Loc B) := ({ d with panic := some p }, .go .panicked)

/-! ## Descriptors -/

def allocDesc (free : Nat → Bool) : Option Nat := (List.range NUM).find? free

/-- `alloc3_desc` up to its failure, if it fails: the descriptors it has. -/
def alloc3Desc (free : Nat → Bool) : List Nat ⊕ Idx :=
  match allocDesc free with
  | none => .inl []
  | some i0 =>
    match allocDesc (upd free i0 false) with
    | none => .inl [i0]
    | some i1 =>
      match allocDesc (upd (upd free i0 false) i1 false) with
      | none => .inl [i0, i1]
      | some i2 => .inr ⟨i0, i1, i2⟩

def mark (free : Nat → Bool) (is : List Nat) : Nat → Bool := is.foldl (fun f i => upd f i false) free

/-- `free_desc` up to its `wakeup`. -/
def freeDesc (d : Disk B) (i : Nat) : Except Panic (Disk B) :=
  if NUM ≤ i then .error .freeDesc1
  else if d.free i then .error .freeDesc2
  else .ok { d with desc := upd d.desc i ⟨.null, 0, false, false, 0⟩, free := upd d.free i true }

/-- The three descriptors of a request, its `info` and `b->disk`. -/
def format (d : Disk B) (b : B) (write : Bool) (idx : Idx) : Disk B :=
  { d with
    desc := upd (upd (upd d.desc idx.i0 ⟨.op idx.i0, 16, true, false, idx.i1⟩)
      idx.i1 ⟨.data b, BSIZE, true, !write, idx.i2⟩)
      idx.i2 ⟨.status idx.i0, 1, false, true, 0⟩
    infoStatus := upd d.infoStatus idx.i0 255#8
    bdisk := upd d.bdisk b true
    infoB := upd d.infoB idx.i0 (some b) }

/-! ## virtio_disk_rw and virtio_disk_intr -/

def step (d : Disk B) : Loc B → Disk B × Act (Chan B) (Loc B)
  | .alloc b write =>
    match alloc3Desc d.free with
    | .inl todo => ({ d with free := mark d.free todo }, .go (.undo b write todo))
    | .inr idx => ({ d with free := mark d.free idx.list }, .go (.format b write idx))
  | .undo b write (j :: todo) =>
    match freeDesc d j with
    | .error p => d.stop p
    | .ok d => (d, .wake .free0 (.undo b write todo))
  | .undo b write [] => (d, .sleep .free0 (.alloc b write))
  | .format b write idx => (format d b write idx, .go (.publish b idx))
  | .publish b idx =>
    ({ d with availRing := upd d.availRing (Fifo.slot num_pos d.availIdx) idx.i0 }, .go (.bump b idx))
  | .bump b idx => ({ d with availIdx := d.availIdx + 1#16 }.note b .published, .go (.wait b idx))
  | .wait b idx => if d.bdisk b then (d, .sleep (.buf b) (.wait b idx)) else (d, .go (.finish b idx))
  | .finish b idx => ({ d with infoB := upd d.infoB idx.i0 none }, .go (.freeChain b idx.i0 [idx.i1, idx.i2]))
  | .freeChain b i rest =>
    let flag := (d.desc i).fNext
    let nxt := (d.desc i).next
    match freeDesc d i with
    | .error p => d.stop p
    | .ok d => (d, .wake .free0 (if flag then .freeChain b nxt rest.tail else .ret b))
  | .ret b => (d.note b .returned, .leave)
  | .intr =>
    if d.seen ≠ d.usedIdx then
      let id := d.usedRing (Fifo.slot num_pos d.seen)
      if d.infoStatus id ≠ 0#8 then d.stop .status
      else
        match d.infoB id with
        | none => d.stop .fault
        | some b => ({ d with bdisk := upd d.bdisk b false }.note b .cleared, .wake (.buf b) (.intrNext id))
    else (d, .leave)
  | .intrNext _ => ({ d with seen := d.seen + 1#16 }, .go .intr)
  | .panicked => (d, .go .panicked)

def start : Call B → Loc B
  | .virtioDiskRw b write => .alloc b write
  | .virtioDiskIntr => .intr

/-! ## The device -/

inductive Dev where
  /-- It reads an entry of the avail ring. -/
  | fetch
  /-- It has worked on chain `h` and writes the status. -/
  | status (h : Nat)
  /-- It writes the entry of chain `h` into the used ring, and then `used->idx`. -/
  | entry (h : Nat)
  | bump
  deriving DecidableEq, Repr

/-- The write of status 0 through the third descriptor of the chain. -/
def writeStatus (d : Disk B) (h : Nat) : Disk B :=
  match (d.desc (d.desc (d.desc h).next).next).addr with
  | .status i => { d with infoStatus := upd d.infoStatus i 0#8 }
  | _ => d

def device (d : Disk B) : Dev → Disk B
  | .fetch =>
    if d.fetched ≠ d.availIdx then
      { d with fetched := d.fetched + 1#16, working := d.working ++ [d.availRing (Fifo.slot num_pos d.fetched)] }
    else d
  | .status h =>
    if h ∈ d.working then { writeStatus d h with working := d.working.erase h, finished := d.finished ++ [h] } else d
  | .entry h =>
    if h ∈ d.finished ∧ d.entered = none then
      { d with
        usedRing := upd d.usedRing (Fifo.slot num_pos d.usedIdx) h
        finished := d.finished.erase h
        entered := some h }
    else d
  | .bump =>
    match d.entered with
    | some h =>
      let d' := { d with usedIdx := d.usedIdx + 1#16, entered := none }
      match d.infoB h with
      | some b => d'.note b .completed
      | none => d'
    | none => d

/-- Any number of processes, handlers and buffers, and the device. -/
def virtio (P B : Type) [DecidableEq B] : Monitor.Prog P (Chan B) (Disk B) (Loc B) (Call B) Unit Dev :=
  { start := fun _ => start
    step := fun _ _ d l _ => step d l
    env := device }

def virtioDiskInit : Disk B :=
  { desc := fun _ => ⟨.null, 0, false, false, 0⟩
    free := fun i => decide (i < NUM)
    availIdx := 0#16
    availRing := fun _ => 0
    usedIdx := 0#16
    usedRing := fun _ => 0
    seen := 0#16
    infoB := fun _ => none
    infoStatus := fun _ => 0#8
    bdisk := fun _ => false
    fetched := 0#16
    working := []
    finished := []
    entered := none
    panic := none
    stage := fun _ => .returned
    orderly := true }

end Xv6.Virtio
