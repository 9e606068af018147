/-
  Xv6.Sched.Slots — the slots of the process table and what `kill` does to them
  (`kernel/proc.c`: `allocproc`, `freeproc`, `kfork`, `kwait`, `kkill`, `growproc`;
  `kernel/exec.c`: `kexec`).

  The steps are those of `Xv6.Sched.Mlfq`; here a slot also has its memory fields, and the
  stretch of `kfork` that allocates says which of its allocations fails.

  `allocproc` sets some fields of an UNUSED slot and relies on `freeproc` for the rest. All
  of them are clear as long as no `kkill` stops at an UNUSED slot (`slots_clean_iff`).
  `kkill(0)` does: an UNUSED slot has pid 0, and the next process in it is born killed
  (`kill_zero_marks_free_slot`).
-/

import Xv6.Sched.MlfqProofs

namespace Xv6.Sched

open Lib

/-! ## The memory of a slot -/

/-- The fields of `struct proc` that describe its memory; `none` is a null pointer. -/
structure Mem where
  sz : Nat
  pagetable : Option Nat
  trapframe : Option Nat
  deriving DecidableEq, Repr

/-- What `freeproc` leaves in them. -/
def freeMem : Mem := ⟨0, none, none⟩

structure Table where
  core : St
  mem : Slot → Mem

inductive Call where
  /-- `kfork` up to `release(&np->lock)`: what `kalloc` and `proc_pagetable` return in `allocproc`, and whether
      `uvmcopy` succeeds. -/
  | fork (trapframe pagetable : Option Nat) (copied : Bool)
  /-- `kexec` past its last error. -/
  | kexec (pagetable sz : Nat)
  | growproc (sz : Nat)
  /-- The other steps. -/
  | ev (e : Ev)
  deriving DecidableEq, Repr

def St.caller (s : St) : Option Slot :=
  if s.panicked then none else s.cur.filter fun p => s.kfork p = .no

/-- The memory fields of the slot that `kfork` allocates. -/
def forkMem (m parent : Mem) : Option Nat → Option Nat → Bool → Mem
  | none, _, _ => freeMem
  | some _, none, _ => freeMem
  | some _, some _, false => freeMem
  | some trapframe, some pagetable, true =>
    { m with trapframe := some trapframe, pagetable := some pagetable, sz := parent.sz }

/-- The zombie child that a turn of `kwait`'s loop frees. -/
def reaped (s : St) (p : Slot) (ok : Bool) : Option Slot :=
  (findSlot s.proc fun pp => pp.parent = some p ∧ pp.state = .zombie).filter fun _ => ok

def callMem (s : Table) (p : Slot) : Call → Slot → Mem
  | .fork trapframe pagetable copied =>
    match findSlot s.core.proc (·.state = .unused) with
    | some np => upd s.mem np (forkMem (s.mem np) (s.mem p) trapframe pagetable copied)
    | none => s.mem
  | .kexec pagetable sz => upd s.mem p { s.mem p with pagetable := some pagetable, sz := sz }
  | .growproc sz => upd s.mem p { s.mem p with sz := sz }
  | .ev (.kwait ok) =>
    match reaped s.core p ok with
    | some pp => upd s.mem pp freeMem
    | none => s.mem
  | .ev _ => s.mem

/-- The step of the process table. -/
def Call.core (s : St) : Call → St
  | .fork trapframe pagetable copied => step s (.kforkAlloc (trapframe.isSome && pagetable.isSome && copied))
  | .kexec _ _ | .growproc _ => s
  -- this stretch is `fork`
  | .ev (.kforkAlloc _) => s
  | .ev e => step s e

def Table.step (s : Table) (c : Call) : Table :=
  { core := c.core s.core
    mem := match s.core.caller with
      | some p => callMem s p c
      | none => s.mem }

/-- After `userinit`; the first process has its trapframe and page table. -/
def Table.boot (trapframe pagetable : Nat) : Table :=
  { core := Sched.boot
    mem := upd (fun _ => freeMem) Sched.boot.initproc ⟨0, some pagetable, some trapframe⟩ }

/-- What `kkill` returns. -/
def kkillRet (s : St) (pid : Int) : Int :=
  match findSlot s.proc (·.pid = pid) with
  | some _ => 0
  | none => -1

/-! ## Free slots -/

/-- The fields that `allocproc` does not set are clear. -/
structure Clear (p : Proc) (m : Mem) : Prop where
  killed : p.killed = false
  chan : p.chan = none
  xstate : p.xstate = 0
  pid : p.pid = 0
  parent : p.parent = none
  mem : m = freeMem

instance (p : Proc) (m : Mem) : Decidable (Clear p m) :=
  decidable_of_iff (p.killed = false ∧ p.chan = none ∧ p.xstate = 0 ∧ p.pid = 0 ∧ p.parent = none ∧ m = freeMem)
    ⟨fun ⟨h1, h2, h3, h4, h5, h6⟩ => ⟨h1, h2, h3, h4, h5, h6⟩, fun ⟨h1, h2, h3, h4, h5, h6⟩ => ⟨h1, h2, h3, h4, h5, h6⟩⟩

def Free (t : Slot → Proc) (m : Slot → Mem) : Prop := ∀ q, (t q).state = .unused → Clear (t q) (m q)

instance (t : Slot → Proc) (m : Slot → Mem) : Decidable (Free t m) := inferInstanceAs (Decidable (∀ _, _))

def Spared (t t' : Slot → Proc) : Prop := ∀ q, (t' q).state = .unused → t' q = t q

theorem spared_refl (t : Slot → Proc) : Spared t t := fun _ _ => rfl

variable {t : Slot → Proc} {pid : Int} {p : Slot} {c : Call}

theorem spared_trans {u v : Slot → Proc} (h : Spared t u) (h' : Spared u v) : Spared t v := by
  intro q hq
  have he := h' q hq
  rw [he] at hq ⊢
  exact h q hq

variable {m : Slot → Mem}

theorem free_spared {t' : Slot → Proc} (hf : Free t m) (h : Spared t t') : Free t' m := by
  intro q hq
  have he := h q hq
  rw [he] at hq ⊢
  exact hf q hq

theorem spared_upd {t' : Slot → Proc} (h : Spared t t') (q : Slot) {p : Proc} (hp : p.state ≠ .unused) :
    Spared t (upd t' q p) := by
  intro r hr
  by_cases e : r = q
  · rw [e, upd_same] at hr; exact absurd hr hp
  · rw [upd_ne _ _ e] at hr ⊢; exact h r hr

theorem spared_wakeup (t : Slot → Proc) (me : Option Slot) (c : Chan) : Spared t (wakeup t me c) := by
  intro q hq
  unfold wakeup at hq ⊢
  split
  · rename_i h; rw [if_pos h] at hq; cases hq
  · rfl

theorem free_upd (hf : Free t m) (q : Slot) {p : Proc} {v : Mem} (hp : p.state = .unused → Clear p v) :
    Free (upd t q p) (upd m q v) := by
  intro r hr
  by_cases e : r = q
  · rw [e, upd_same] at hr ⊢; rw [upd_same]; exact hp hr
  · rw [upd_ne _ _ e] at hr ⊢; rw [upd_ne _ _ e]; exact hf r hr

theorem freeproc_clear (p : Proc) : Clear (freeproc p) freeMem := ⟨rfl, rfl, rfl, rfl, rfl, rfl⟩

variable {s : St}

/-- `reparent` leaves free slots alone: they have no parent. -/
theorem spared_reparent (hf : Free s.proc m) (p : Slot) : Spared s.proc (reparent s p) := by
  suffices h : ∀ (l : List Slot) (t : Slot → Proc), Spared s.proc t → Spared s.proc (l.foldl _ t) from
    h _ _ (spared_refl _)
  intro l
  induction l with
  | nil => intro t h; exact h
  | cons pp l ih =>
    intro t h
    refine ih _ ?_
    dsimp only
    split
    · rename_i hpar
      have hne : (t pp).state ≠ .unused := by
        intro hu
        have hc := free_spared hf h pp hu
        rw [hc.parent] at hpar
        cases hpar
      have h1 := spared_upd h pp (show ({ t pp with parent := some s.initproc } : Proc).state ≠ .unused from hne)
      exact spared_trans h1 (spared_wakeup _ _ _)
    · exact h

theorem spared_bereave (hf : Free s.proc m) (p : Slot) : Spared s.proc (bereave s p) := by
  unfold bereave
  split
  · exact spared_trans (spared_reparent hf p) (spared_wakeup _ _ _)
  · exact spared_reparent hf p

/-! ## Kills -/

/-- `kkill`, if it is called here, does not stop at an UNUSED slot. -/
def KillsLive (s : Table) (c : Call) : Prop :=
  ∀ pid q, c = .ev (.kkill pid) → s.core.caller.isSome → findSlot s.core.proc (·.pid = pid) = some q →
    (s.core.proc q).state ≠ .unused

/-- The slot holds a process with this pid. -/
def Live (s : St) (pid : Int) (q : Slot) : Prop := (s.proc q).state ≠ .unused ∧ (s.proc q).pid = pid

instance (s : St) (pid : Int) (q : Slot) : Decidable (Live s pid q) := inferInstanceAs (Decidable (_ ∧ _))

/-- `kkill(pid)` returns 0 if and only if a process has that pid, and changes no other slot. -/
structure Kills (s : St) (pid : Int) : Prop where
  ret : kkillRet s pid = 0 ↔ ∃ q, Live s pid q
  hit : kkillRet s pid = 0 → ∃ q, Live s pid q ∧ ∀ r, r ≠ q → (kkill s pid).proc r = s.proc r
  miss : kkillRet s pid ≠ 0 → ∀ r, (kkill s pid).proc r = s.proc r

theorem kills_of_live (h : ∀ q, findSlot s.proc (·.pid = pid) = some q → (s.proc q).state ≠ .unused) : Kills s pid := by
  cases hf : findSlot s.proc (·.pid = pid) with
  | none =>
    have hr : kkillRet s pid = -1 := by unfold kkillRet; rw [hf]
    have hno : ¬ ∃ q, Live s pid q := by
      intro ⟨q, hq⟩
      exact of_decide_eq_false (first_none hf q) hq.2
    refine ⟨⟨fun h0 => ?_, fun hl => absurd hl hno⟩, fun h0 => ?_, fun _ r => ?_⟩
    · rw [hr] at h0; cases h0
    · rw [hr] at h0; cases h0
    · unfold kkill; rw [hf]
  | some q =>
    have hr : kkillRet s pid = 0 := by unfold kkillRet; rw [hf]
    have hq : Live s pid q := ⟨h q hf, of_decide_eq_true (findSlot_spec hf)⟩
    refine ⟨⟨fun _ => ⟨q, hq⟩, fun _ => hr⟩, fun _ => ⟨q, hq, fun r hne => ?_⟩, fun h0 => absurd hr h0⟩
    unfold kkill
    rw [hf]
    exact upd_ne _ _ hne

/-- A `kkill` that stops at a free slot marks it. -/
theorem not_kills_of_unused {q : Slot} (hf : Free s.proc m) (hq : findSlot s.proc (·.pid = pid) = some q)
    (hu : (s.proc q).state = .unused) : ¬ Kills s pid := by
  intro hk
  have hr : kkillRet s pid = 0 := by unfold kkillRet; rw [hq]
  obtain ⟨r, hl, hsame⟩ := hk.hit hr
  have hne : q ≠ r := by intro e; exact hl.1 (e ▸ hu)
  have h1 := hsame q hne
  have h2 : ((kkill s pid).proc q).killed = true := by
    unfold kkill
    rw [hq]
    dsimp only
    rw [upd_same]
    split <;> rfl
  rw [h1, (hf q hu).killed] at h2
  cases h2

theorem spared_kkill (h : ∀ q, findSlot s.proc (·.pid = pid) = some q → (s.proc q).state ≠ .unused) :
    Spared s.proc (kkill s pid).proc := by
  unfold kkill
  cases hf : findSlot s.proc (·.pid = pid) with
  | none => exact spared_refl _
  | some q =>
    refine spared_upd (spared_refl _) q ?_
    split
    · exact ProcState.noConfusion
    · exact h q hf

/-! ## What a step does to the free slots -/

theorem caller_some (h : s.caller = some p) : s.panicked = false ∧ s.cur = some p ∧ s.kfork p = .no := by
  unfold St.caller at h
  split at h
  · cases h
  · rename_i hp
    obtain ⟨h1, h2⟩ := Option.filter_eq_some_iff.mp h
    exact ⟨by simpa using hp, h1, of_decide_eq_true h2⟩

theorem step_caller (h : s.caller = some p) (e : Ev) (h1 : e ≠ .timer false) (h2 : ∀ c, e ≠ .devintr c) :
    step s e = call s p e := by
  obtain ⟨hp, hc, hk⟩ := caller_some h
  unfold step
  rw [hp]
  unfold raw
  rw [hc]
  cases e with
  | timer user =>
    cases user with
    | true => exact if_pos hk
    | false => exact absurd rfl h1
  | devintr c => exact absurd rfl (h2 c)
  | _ => exact if_pos hk

theorem caller_of (hp : ¬ s.panicked = true) (hc : s.cur = some p) (hk : s.kfork p = .no) : s.caller = some p := by
  unfold St.caller
  rw [if_neg hp, hc]
  exact Option.filter_eq_some_iff.mpr ⟨rfl, decide_eq_true hk⟩

variable {s : St} {m : Slot → Mem}

theorem spared_yield {t : St} (h : Spared s.proc t.proc) (p : Slot) : Spared s.proc (yield t p).proc :=
  spared_upd h p ProcState.noConfusion

theorem spared_clockintr (s : St) : Spared s.proc (clockintr s).proc := spared_wakeup _ _ _

theorem spared_usertrap (s : St) (p : Slot) : Spared s.proc (usertrap s p).proc := by
  unfold usertrap
  dsimp only
  split
  · exact spared_clockintr s
  split
  · rename_i hr
    have hne : (charge ((clockintr s).proc p)).state ≠ .unused := by
      have he : (charge ((clockintr s).proc p)).state = ((clockintr s).proc p).state := by
        unfold charge; dsimp only; split
        · rfl
        · split <;> rfl
      rw [he, hr]; exact ProcState.noConfusion
    exact spared_yield (spared_upd (spared_clockintr s) p hne) p
  · exact spared_yield (spared_clockintr s) p

theorem spared_kerneltrap (s : St) : Spared s.proc (kerneltrap s).proc := by
  unfold kerneltrap
  split
  · exact spared_yield (spared_clockintr s) _
  · exact spared_clockintr s

theorem spared_sleep (s : St) (p : Slot) (c : Chan) : Spared s.proc (sleep s p c).proc :=
  spared_upd (spared_refl _) p ProcState.noConfusion

theorem spared_kexit (hf : Free s.proc m) (p : Slot) (status : Int) : Spared s.proc (kexit s p status).proc := by
  unfold kexit
  split
  · exact spared_refl _
  · exact spared_upd (spared_bereave hf p) p ProcState.noConfusion

theorem spared_finishFork (hi : Inv s) (p : Slot) (e : Ev) : Spared s.proc (finishFork s p e (s.kfork p)).proc := by
  unfold finishFork
  split
  · rename_i np hk
    have hu : (s.proc np).state = .used := hi.used p np (by rw [hk]; rfl)
    exact spared_upd (spared_refl _) np (show (s.proc np).state ≠ .unused by rw [hu]; exact ProcState.noConfusion)
  · exact spared_upd (spared_refl _) _ ProcState.noConfusion
  · exact spared_refl _

/-- A call other than `kfork`'s allocation and `kwait` spares the free slots. -/
theorem spared_call (hi : Inv s) (hf : Free s.proc m) (hc : s.cur = some p) (e : Ev)
    (h1 : ∀ ok, e ≠ .kforkAlloc ok) (h2 : ∀ ok, e ≠ .kwait ok)
    (hk : ∀ pid q, e = .kkill pid → findSlot s.proc (·.pid = pid) = some q → (s.proc q).state ≠ .unused) :
    Spared s.proc (call s p e).proc := by
  cases e with
  | sleep c => exact spared_sleep s p c
  | wakeup c => exact spared_wakeup _ _ _
  | kforkAlloc ok => exact absurd rfl (h1 ok)
  | kexit status => exact spared_kexit hf p status
  | kwait ok => exact absurd rfl (h2 ok)
  | kkill pid => exact spared_kkill fun q => hk pid q rfl
  | setkilled =>
    have hr : (s.proc p).state = .running := (hi.running p).mpr hc
    exact spared_upd (spared_refl _) p (show (s.proc p).state ≠ .unused by rw [hr]; exact ProcState.noConfusion)
  | timer user =>
    cases user with
    | true => exact spared_usertrap s p
    | false => exact spared_refl _
  | _ => exact spared_refl _

/-- A step frees no slot if the call it makes, if it makes one, frees none. -/
theorem spared_step (hi : Inv s) (e : Ev) (hcall : ∀ p, s.caller = some p → Spared s.proc (call s p e).proc) :
    Spared s.proc (step s e).proc := by
  unfold step
  split
  · exact spared_refl _
  rename_i hp
  unfold raw
  split
  · exact spared_kerneltrap s
  · exact spared_wakeup _ _ _
  · split
    · exact spared_upd (spared_refl _) _ ProcState.noConfusion
    · exact spared_refl _
  · exact spared_refl _
  · rename_i p _ _ hc
    split
    · rename_i hno; exact hcall p (caller_of hp hc hno)
    · exact spared_finishFork hi _ _

/-! ## Runs -/

/-- Every UNUSED slot is clear, so every process that `allocproc` returns starts unkilled. -/
structure Table.Clean (s : Table) : Prop where
  free : Free s.core.proc s.mem
  unkilled : ∀ ok np t, allocproc s.core ok = (some np, t) → (t.proc np).killed = false

theorem clean_of_free {s : Table} (h : Free s.core.proc s.mem) : s.Clean := by
  refine ⟨h, fun ok np t ha => ?_⟩
  unfold allocproc at ha
  cases hf : findSlot s.core.proc (·.state = .unused) with
  | none => rw [hf] at ha; cases ha
  | some q =>
    rw [hf] at ha
    have hu : (s.core.proc q).state = .unused := of_decide_eq_true (findSlot_spec hf)
    cases ok with
    | false => cases ha
    | true =>
      cases ha
      dsimp only
      rw [upd_same]
      exact (h np hu).killed

/-- `kfork`'s allocation: the slot is a process now, or it is free and clear again. -/
theorem free_fork {s : Table} (hf : Free s.core.proc s.mem) (hc : s.core.caller = some p)
    (trapframe pagetable : Option Nat) (copied : Bool) :
    Free (step s.core (.kforkAlloc (trapframe.isSome && pagetable.isSome && copied))).proc
      (callMem s p (.fork trapframe pagetable copied)) := by
  rw [step_caller hc _ Ev.noConfusion fun _ => Ev.noConfusion]
  unfold callMem call allocproc
  cases hs : findSlot s.core.proc (·.state = .unused) with
  | none => exact hf
  | some np =>
    rcases trapframe with - | tf
    · exact free_upd hf np fun _ => freeproc_clear _
    · rcases pagetable with - | pt
      · exact free_upd hf np fun _ => freeproc_clear _
      · cases copied with
        | false => exact free_upd hf np fun _ => freeproc_clear _
        | true => exact free_upd hf np fun h => ProcState.noConfusion h

/-- One turn of `kwait`'s loop. -/
theorem free_kwait {s : Table} (hf : Free s.core.proc s.mem) (hc : s.core.caller = some p) (ok : Bool) :
    Free (step s.core (.kwait ok)).proc (callMem s p (.ev (.kwait ok))) := by
  rw [step_caller hc _ Ev.noConfusion fun _ => Ev.noConfusion]
  unfold callMem call kwait reaped
  cases hs : findSlot s.core.proc fun pp => pp.parent = some p ∧ pp.state = .zombie with
  | none =>
    dsimp only [Option.filter]
    split
    · exact hf
    · exact free_spared hf (spared_sleep _ _ _)
  | some pp =>
    cases ok with
    | false => exact hf
    | true => exact free_upd hf pp fun _ => freeproc_clear _

theorem callMem_ev {s : Table} {e : Ev} (h : ∀ ok, e ≠ .kwait ok) : callMem s p (.ev e) = s.mem := by
  cases e with
  | kwait ok => exact absurd rfl (h ok)
  | _ => rfl

theorem free_mem {s : Table} (hi : Inv s.core) (hf : Free s.core.proc s.mem) (hc : s.core.caller = some p) (v : Mem) :
    Free s.core.proc (upd s.mem p v) := by
  have hr : (s.core.proc p).state = .running := (hi.running p).mpr (caller_some hc).2.1
  have he : upd s.core.proc p (s.core.proc p) = s.core.proc := by
    funext q
    by_cases h : q = p
    · rw [h, upd_same]
    · exact upd_ne _ _ h
  have h1 := free_upd (v := v) hf p (p := s.core.proc p) fun h => by rw [hr] at h; cases h
  rw [he] at h1
  exact h1

theorem inv_core {s : Table} (hi : Inv s.core) (c : Call) : Inv (s.step c).core := by
  show Inv (c.core s.core)
  unfold Call.core
  split
  · exact inv_move hi (step_move _ _)
  · exact hi
  · exact hi
  · exact hi
  · exact inv_move hi (step_move _ _)

theorem step_mem {s : Table} {m : Slot → Mem} (hn : s.core.caller = none → m = s.mem)
    (hs : ∀ p, s.core.caller = some p → m = callMem s p c) : (s.step c).mem = m := by
  unfold Table.step
  split
  · rename_i p h; exact (hs p h).symm
  · rename_i h; exact (hn h).symm

theorem free_step {s : Table} (hi : Inv s.core) (hf : Free s.core.proc s.mem) (hk : KillsLive s c) :
    Free (s.step c).core.proc (s.step c).mem := by
  have hidle : ∀ e, s.core.caller = none → Spared s.core.proc (step s.core e).proc := by
    intro e hc
    refine spared_step hi e fun p hp => ?_
    rw [hc] at hp; cases hp
  cases hc : s.core.caller with
  | none =>
    rw [step_mem (m := s.mem) (fun _ => rfl) fun p hp => by rw [hc] at hp; cases hp]
    refine free_spared hf ?_
    show Spared _ (c.core s.core).proc
    unfold Call.core
    split
    · exact hidle _ hc
    · exact spared_refl _
    · exact spared_refl _
    · exact spared_refl _
    · exact hidle _ hc
  | some p =>
    rw [step_mem (m := callMem s p c) (fun h => by rw [hc] at h; cases h) fun q hq => by rw [hc] at hq; cases hq; rfl]
    show Free (c.core s.core).proc _
    cases c with
    | fork tf pt copied => exact free_fork hf hc tf pt copied
    | kexec pt sz | growproc sz => exact free_mem hi hf hc _
    | ev e =>
      by_cases hw : ∃ ok, e = .kwait ok
      · obtain ⟨ok, rfl⟩ := hw
        exact free_kwait hf hc ok
      by_cases ha : ∃ ok, e = .kforkAlloc ok
      · obtain ⟨ok, rfl⟩ := ha
        exact hf
      have hw' : ∀ ok, e ≠ .kwait ok := fun ok h => hw ⟨ok, h⟩
      have ha' : ∀ ok, e ≠ .kforkAlloc ok := fun ok h => ha ⟨ok, h⟩
      have hcore : Call.core s.core (.ev e) = step s.core e := by
        cases e with
        | kforkAlloc ok => exact absurd rfl (ha' ok)
        | _ => rfl
      rw [callMem_ev hw', hcore]
      refine free_spared hf (spared_step hi e fun q hq => ?_)
      refine spared_call hi hf (caller_some hq).2.1 e ha' hw' fun pid r he hr => ?_
      exact hk pid r (by rw [he]) (by rw [hc]; rfl) hr

/-- What a call of `kkill` must do. -/
def KillOk (s : Table) (c : Call) : Prop := ∀ pid, c = .ev (.kkill pid) → s.core.caller.isSome → Kills s.core pid

theorem killsLive_iff {s : Table} (hf : Free s.core.proc s.mem) (c : Call) : KillsLive s c ↔ KillOk s c := by
  constructor
  · intro h pid hc hr
    exact kills_of_live fun q hq => h pid q hc hr hq
  · intro h pid q hc hr hq hu
    exact not_kills_of_unused hf hq hu (h pid hc hr)

theorem killsLive_of_pid {s : Table} (hf : Free s.core.proc s.mem) (h : ∀ pid, c = .ev (.kkill pid) → pid ≠ 0) :
    KillsLive s c := by
  intro pid q hc _ hq hu
  have hp : (s.core.proc q).pid = pid := of_decide_eq_true (findSlot_spec hq)
  exact h pid hc (hp.symm.trans (hf q hu).pid)

theorem free_boot (trapframe pagetable : Nat) :
    Free (Table.boot trapframe pagetable).core.proc (Table.boot trapframe pagetable).mem := by
  intro q hq
  have hother : ∀ q, (boot.proc q).state = .unused →
      q ≠ boot.initproc ∧ Clear (boot.proc q) freeMem := by decide +kernel
  obtain ⟨hne, hc⟩ := hother q hq
  have hm : (Table.boot trapframe pagetable).mem q = freeMem := by
    show upd (fun _ => freeMem) boot.initproc _ q = freeMem
    rw [upd_ne _ _ hne]
  rw [hm]
  exact hc

/-- Along every run the free slots are clear and `kkill` is right if and only if no `kkill`
    stops at an UNUSED slot; none does whose argument is not 0. -/
theorem slots_clean_iff (trapframe pagetable : Nat) (cs : List Call) :
    (Along Table.step KillsLive (Table.boot trapframe pagetable) cs ↔
      Always Table.step Table.Clean (Table.boot trapframe pagetable) cs ∧
      Along Table.step KillOk (Table.boot trapframe pagetable) cs) ∧
    ((∀ pid, .ev (.kkill pid) ∈ cs → pid ≠ 0) → Along Table.step KillsLive (Table.boot trapframe pagetable) cs) := by
  have hi : Inv (Table.boot trapframe pagetable).core := inv_boot
  have hf := free_boot trapframe pagetable
  generalize Table.boot trapframe pagetable = s at hi hf
  induction cs generalizing s with
  | nil => exact ⟨⟨fun _ => ⟨clean_of_free hf, trivial⟩, fun _ => trivial⟩, fun _ => trivial⟩
  | cons c cs ih =>
    refine ⟨⟨fun h => ?_, fun h => ?_⟩, fun h => ?_⟩
    · obtain ⟨h1, h2⟩ := ((ih (s.step c) (inv_core hi c) (free_step hi hf h.1)).1).mp h.2
      exact ⟨⟨clean_of_free hf, h1⟩, (killsLive_iff hf c).mp h.1, h2⟩
    · have hk := (killsLive_iff hf c).mpr h.2.1
      exact ⟨hk, ((ih (s.step c) (inv_core hi c) (free_step hi hf hk)).1).mpr ⟨h.1.2, h.2.2⟩⟩
    · have hk : KillsLive s c := killsLive_of_pid hf fun pid hc => h pid (hc ▸ List.mem_cons_self)
      exact ⟨hk, (ih (s.step c) (inv_core hi c) (free_step hi hf hk)).2 fun pid hp => h pid (.tail _ hp)⟩

/-- The first process runs, calls `kill(0)` and then forks. -/
def killZero : List Call := [.ev .scheduler, .ev (.kkill 0), .fork (some 3) (some 4) true]

/-- `kkill(0)` returns 0 although no process has pid 0; it marks the UNUSED slot 1, and the
    child that `kfork` puts there is born killed. -/
theorem kill_zero_marks_free_slot :
    kkillRet (run Table.step (Table.boot 1 2) (killZero.take 1)).core 0 = 0 ∧
    (¬ ∃ q, Live (run Table.step (Table.boot 1 2) (killZero.take 1)).core 0 q) ∧
    ((run Table.step (Table.boot 1 2) (killZero.take 2)).core.proc ⟨1, by decide⟩).state = .unused ∧
    ((run Table.step (Table.boot 1 2) (killZero.take 2)).core.proc ⟨1, by decide⟩).killed = true ∧
    ((run Table.step (Table.boot 1 2) killZero).core.proc ⟨1, by decide⟩).state = .used ∧
    ((run Table.step (Table.boot 1 2) killZero).core.proc ⟨1, by decide⟩).killed = true := by
  decide +kernel

end Xv6.Sched
