/-
  Xv6.Smp.Reaping — the record of what happens to the processes. In every run it is
  `Orderly`: a slot is used again only after its process was undone or reaped, a process
  is reaped only after it exited, once, with the pid and the exit status of that exit, and
  `kwait` returns the pid of the process that its caller has just reaped.
-/

import Xv6.Smp.WaitProofs

namespace Xv6.Smp

open Lib
open Sched (Slot Proc Chan ProcState freeproc incr charge)

/-! ## Records -/

def Event.slot : Event → Option Slot
  | .born p _ | .undone p | .exited p _ _ | .reaped _ p _ _ => some p
  | .returned _ _ => none

/-- The process whose `kwait` it is. -/
def Event.waiter : Event → Option Slot
  | .reaped q _ _ _ | .returned q _ => some q
  | _ => none

/-- The last event of a slot, and of a process's `kwait`. -/
def last (p : Slot) (past : List Event) : Option Event := past.find? fun e => e.slot = some p

def lastWait (q : Slot) (past : List Event) : Option Event := past.find? fun e => e.waiter = some q

def Event.Follows (past : List Event) : Event → Prop
  | .born p _ => ∀ e, last p past = some e → e = .undone p ∨ ∃ q pid status, e = .reaped q p pid status
  | .undone p => ∃ pid, last p past = some (.born p pid)
  | .exited p pid _ => last p past = some (.born p pid)
  | .reaped _ p pid status => last p past = some (.exited p pid status)
  | .returned q pid => ∃ p status, lastWait q past = some (.reaped q p pid status)

def Orderly : List Event → Prop
  | [] => True
  | e :: past => e.Follows past ∧ Orderly past

theorem last_cons (p : Slot) (e : Event) (past : List Event) :
    last p (e :: past) = if e.slot = some p then some e else last p past := by
  unfold last
  by_cases h : e.slot = some p <;> simp [h]

theorem lastWait_cons (q : Slot) (e : Event) (past : List Event) :
    lastWait q (e :: past) = if e.waiter = some q then some e else lastWait q past := by
  unfold lastWait
  by_cases h : e.waiter = some q <;> simp [h]

variable {past : List Event} {v : Proc}

variable {p : Slot}

theorem last_slot {e : Event} (h : last p past = some e) : e.slot = some p := by
  simpa using List.find?_some h

/-! ## The record tells the state of each slot -/

def Tells (v : Proc) : Option Event → Prop
  | some (.born _ pid) => v.state ≠ .unused ∧ v.state ≠ .zombie ∧ v.pid = pid
  | some (.exited _ pid status) => v.state = .zombie ∧ v.pid = pid ∧ v.xstate = status
  | _ => v.state = .unused

structure Told {H : Type} (s : St H) : Prop where
  orderly : Orderly s.hist
  slot : ∀ p, Tells (s.proc p) (last p s.hist)
  ret : ∀ q pid, .op (.kwaitRet pid) ∈ s.kstack q → ∃ p status, lastWait q s.hist = some (.reaped q p pid status)

structure Kept (u v : Proc) : Prop where
  free : v.state = .unused ↔ u.state = .unused
  dead : v.state = .zombie ↔ u.state = .zombie
  pid : u.state ≠ .unused → v.pid = u.pid
  xstate : u.state = .zombie → v.xstate = u.xstate

theorem tells_kept {u : Proc} {e : Option Event} (h : Tells u e) (hk : Kept u v) : Tells v e := by
  rcases e with _ | e
  · exact hk.free.mpr h
  cases e with
  | born p pid => exact ⟨fun e => h.1 (hk.free.mp e), fun e => h.2.1 (hk.dead.mp e), (hk.pid h.1).trans h.2.2⟩
  | exited p pid st =>
    have hu : u.state ≠ .unused := by
      rw [h.1]
      exact ProcState.noConfusion
    exact ⟨hk.dead.mpr h.1, (hk.pid hu).trans h.2.1, (hk.xstate h.1).trans h.2.2⟩
  | undone | reaped | returned => exact hk.free.mpr h

/-- The last event of a slot whose process is alive. -/
theorem tells_alive (h : Tells v (last p past)) (hu : v.state ≠ .unused) (hz : v.state ≠ .zombie) :
    last p past = some (.born p v.pid) := by
  cases he : last p past with
  | none =>
    rw [he] at h
    exact absurd h hu
  | some e =>
    rw [he] at h
    have hs := last_slot he
    cases e with
    | born q pid =>
      cases hs
      rw [h.2.2]
    | exited => exact absurd h.1 hz
    | undone | reaped | returned => exact absurd h hu

theorem tells_zombie (h : Tells v (last p past)) (hz : v.state = .zombie) :
    last p past = some (.exited p v.pid v.xstate) := by
  have hu : v.state ≠ .unused := by
    rw [hz]
    exact ProcState.noConfusion
  cases he : last p past with
  | none =>
    rw [he] at h
    exact absurd h hu
  | some e =>
    rw [he] at h
    have hs := last_slot he
    cases e with
    | born => exact absurd hz h.2.1
    | exited q pid st =>
      cases hs
      rw [h.2.1, h.2.2]
    | undone | reaped | returned => exact absurd h hu

theorem tells_free (h : Tells v (last p past)) (hu : v.state = .unused) (e : Event) (he : last p past = some e) :
    e = .undone p ∨ ∃ q pid status, e = .reaped q p pid status := by
  rw [he] at h
  have hs := last_slot he
  cases e with
  | born => exact absurd hu h.1
  | exited => rw [h.1] at hu; cases hu
  | undone q =>
    cases hs
    exact .inl rfl
  | reaped q p' pid st =>
    cases hs
    exact .inr ⟨q, pid, st, rfl⟩
  | returned => cases hs

/-! ## Every step keeps the record -/

def Op.isNoted : Op → Bool
  | .allocMem _ | .forkCopy _ | .die _ _ | .kwaitTest _ _ | .kwaitRet _ => true
  | _ => false

section Record

variable {H : Type} {s s' : St H} {h : H} {p q : Slot} {k k' : Code} {i j : Op} {ok : Bool}

variable {me : Option Slot} {pid : Int} {v : Proc}

theorem exec_note (hi : i.isNoted = false) : (exec s p ok i).note = none := by
  fun_cases exec s p ok i <;> first | rfl | cases hi

theorem effect_note (hi : i.isNoted = false) : (effect s me ok i).note = none := by
  fun_cases effect s me ok i <;> first | rfl | exact exec_note hi

theorem exec_ret (hj : .op (.kwaitRet pid) ∈ (exec s p ok i).code) : i.isNoted = true := by
  revert hj
  fun_cases exec s p ok i <;> grind [Op.isNoted, Op.stop]

theorem effect_ret (hj : .op (.kwaitRet pid) ∈ (effect s me ok i).code) : i.isNoted = true := by
  revert hj
  fun_cases effect s me ok i <;> grind [Op.isNoted, Op.stop, exec_ret]

theorem kept_age {u : Proc} (hs : age v.state = age u.state) (hp : v.pid = u.pid) (hx : v.xstate = u.xstate) :
    Kept u v := by
  refine ⟨?_, ?_, fun _ => hp, fun _ => hx⟩ <;> cases hv : v.state <;> cases hu : u.state <;> simp_all [age]

theorem write_kept (hI : Inv s) (hc : s.code h = .op i :: k) (hme : (s.cpu h).proc = me) (hw : Write s me i q v)
    (hi : i.isNoted = false) : Kept (s.proc q) v := by
  have hwf := wf_code hI hc
  cases hw with
  | alloc | allocFail | undo | die | reap => cases hi
  | dispatch | wake =>
    rename_i state
    exact kept_age (by rw [state]; rfl) rfl rfl
  | charge =>
    have hc (v : Proc) : (charge v).pid = v.pid ∧ (charge v).xstate = v.xstate := by
      unfold charge
      dsimp only
      split
      · exact ⟨rfl, rfl⟩
      · split <;> exact ⟨rfl, rfl⟩
    exact kept_age (by rw [charge_state]) (hc _).1 (hc _).2
  | tidy | setkilled | setParent | reparent => exact kept_age rfl rfl rfl
  | kill =>
    refine kept_age ?_ rfl rfl
    split
    · rename_i e
      rw [e]
      rfl
    · rfl
  | allocpid p =>
    have ho := on_of_proc hI hc id hme
    have hu := hI.found h p q ho (by rw [← code_on ho, hc]; exact .pid k)
    exact ⟨.rfl, .rfl, fun e => absurd hu e, fun e => rfl⟩
  | forkEnd p =>
    have ho := on_of_proc hI hc id hme
    have hu := (hI.fork p _ q (mem_code ho hc) rfl).1
    refine ⟨?_, ?_, fun _ => rfl, fun _ => rfl⟩ <;> rw [hu] <;> exact ⟨(fun e => by cases e), (fun e => by cases e)⟩
  | giveUp p | doze p c =>
    have ho := on_of_proc hI hc id hme
    have hq : q = p := fits_own hwf.1 ho
    subst hq
    refine kept_age ?_ rfl rfl
    rw [inside_running hI ho hc Op.noConfusion Op.noConfusion]
    rfl

theorem told_boot : Told (boot : St H) := by
  refine ⟨⟨(fun e he => by cases he), trivial⟩, fun p => ?_, fun q pid hm => ?_⟩
  · show Tells (Sched.boot.proc p) (last p [.born Sched.boot.initproc (Sched.boot.proc Sched.boot.initproc).pid])
    have hs (pid : Int) : (Event.born Sched.boot.initproc pid).slot = some Sched.boot.initproc := rfl
    rw [last_cons, hs]
    by_cases e : p = Sched.boot.initproc
    · subst e
      refine ⟨?_, ?_, rfl⟩ <;> rw [boot_state.1] <;> exact ProcState.noConfusion
    · rw [if_neg fun e' => e (Option.some.inj e').symm]
      exact boot_state.2 p e
  · have := boot_mem hm
    simp [forkret] at this

variable [DecidableEq H]

/-- The returns that are due after an operation. -/
theorem told_effect (hI : Inv s) (hT : Told s) (hc : s.code h = .op i :: k)
    (hord : Orderly (s.apply h (effect s (s.cpu h).proc ok i) k).hist)
    (hslot : ∀ p, Tells ((s.apply h (effect s (s.cpu h).proc ok i) k).proc p)
      (last p (s.apply h (effect s (s.cpu h).proc ok i) k).hist))
    (hwait : ∀ q, lastWait q (s.apply h (effect s (s.cpu h).proc ok i) k).hist = lastWait q s.hist ∨
      (s.cpu h).on = some q ∧ Idle k)
    (hret : ∀ q pid, (s.cpu h).on = some q → .op (.kwaitRet pid) ∈ (effect s (s.cpu h).proc ok i).code →
      ∃ p st, lastWait q (s.apply h (effect s (s.cpu h).proc ok i) k).hist = some (.reaped q p pid st)) :
    Told (s.apply h (effect s (s.cpu h).proc ok i) k) := by
  refine ⟨hord, hslot, fun q pid hm => ?_⟩
  rcases effect_kstack ok hI hc q with ⟨ho, hk⟩ | ⟨ho, ⟨hk, _⟩ | ⟨_, hk⟩⟩
  · rw [hk] at hm
    rcases List.mem_append.mp hm with e | e
    · exact hret q pid ho e
    · rcases hwait q with hw | ⟨_, hidle⟩
      · rw [hw]
        exact hT.ret q pid (mem_below ho hc e)
      · cases idle_mem hidle e
  · rw [hk] at hm
    rcases hwait q with hw | ⟨e, _⟩
    · rw [hw]
      exact hT.ret q pid hm
    · exact absurd e ho
  · rw [hk] at hm
    simp [forkret] at hm

/-- Nothing is recorded, and nothing that the record tells about is written. -/
theorem told_quiet (hI : Inv s) (hT : Told s) (hc : s.code h = .op i :: k)
    (hn : (effect s (s.cpu h).proc ok i).note = none)
    (hset : ∀ q v, (effect s (s.cpu h).proc ok i).set = some (q, v) → Kept (s.proc q) v)
    (hret : ∀ pid, .op (.kwaitRet pid) ∉ (effect s (s.cpu h).proc ok i).code) :
    Told (s.apply h (effect s (s.cpu h).proc ok i) k) := by
  have hh : (s.apply h (effect s (s.cpu h).proc ok i) k).hist = s.hist := by
    rw [apply_hist, hn]
    rfl
  refine told_effect hI hT hc (by rw [hh]; exact hT.orderly) (fun p => ?_) (fun q => .inl (by rw [hh]))
    (fun q pid _ e => absurd e (hret pid))
  rw [hh]
  rcases apply_proc s h (effect s (s.cpu h).proc ok i) k p with e | he
  · rw [e]
    exact hT.slot p
  · exact tells_kept (hT.slot _) (hset _ _ he)

/-- A process is written, and the event recorded. -/
theorem told_event {e : Event} (hI : Inv s) (hT : Told s) (hc : s.code h = .op i :: k)
    (hn : (effect s (s.cpu h).proc ok i).note = some e)
    (hset : (effect s (s.cpu h).proc ok i).set = some (q, v)) (hs : e.slot = some q) (hf : e.Follows s.hist)
    (ht : Tells v (some e)) (hw : ∀ q, e.waiter = some q → (s.cpu h).on = some q ∧ Idle k)
    (hret : ∀ q pid, (s.cpu h).on = some q → .op (.kwaitRet pid) ∈ (effect s (s.cpu h).proc ok i).code →
      ∃ p st, e = .reaped q p pid st) :
    Told (s.apply h (effect s (s.cpu h).proc ok i) k) := by
  have hh : (s.apply h (effect s (s.cpu h).proc ok i) k).hist = e :: s.hist := by
    rw [apply_hist, hn]
    rfl
  refine told_effect hI hT hc (by rw [hh]; exact ⟨hf, hT.orderly⟩) (fun p => ?_) (fun q => ?_) (fun q pid ho hm => ?_)
  · rw [hh, last_cons, hs, apply_set hset]
    by_cases e : p = q
    · subst e
      rw [upd_same, if_pos rfl]
      exact ht
    · rw [upd_ne _ _ e, if_neg fun e' => e (Option.some.inj e').symm]
      exact hT.slot p
  · rw [hh, lastWait_cons]
    by_cases e : e.waiter = some q
    · exact .inr (hw q e)
    · rw [if_neg e]
      exact .inl rfl
  · obtain ⟨p, st, rfl⟩ := hret q pid ho hm
    rw [hh, lastWait_cons]
    exact ⟨p, st, if_pos rfl⟩

theorem told_allocMem (hI : Inv s) (hT : Told s) (ho : (s.cpu h).on = some p) (hc : s.code h = .op (.allocMem q) :: k) :
    Told (s.apply h (effect s (s.cpu h).proc ok (.allocMem q)) k) := by
  have hme := inside_proc hI ho
  have hu := hI.found h p q ho (by rw [← code_on ho, hc]; exact .mem k)
  cases ok with
  | true =>
    refine told_event (q := q) (e := .born q (s.proc q).pid)
      (v := { s.proc q with state := .used, priority := 0, ticksUsed := 0 })
      hI hT hc (by rw [hme]; rfl) (by rw [hme]; rfl) rfl (fun e => tells_free (hT.slot q) hu e)
      ⟨ProcState.noConfusion, ProcState.noConfusion, rfl⟩ (fun _ e => by cases e) (fun q pid _ hm => ?_)
    rw [hme] at hm
    simp [effect, exec] at hm
  | false =>
    refine told_quiet hI hT hc (by rw [hme]; rfl) (fun q' v he => ?_) (fun pid hm => ?_)
    · rw [hme] at he
      cases he
      refine ⟨⟨fun _ => hu, fun _ => rfl⟩, ⟨(fun e => by cases e), fun e => ?_⟩, fun e => absurd hu e, fun e => ?_⟩ <;>
        rw [hu] at e <;> cases e
    · rw [hme] at hm
      simp [effect, exec] at hm

theorem told_forkCopy (hI : Inv s) (hT : Told s) (ho : (s.cpu h).on = some p) (hc : s.code h = .op (.forkCopy q) :: k) :
    Told (s.apply h (effect s (s.cpu h).proc ok (.forkCopy q)) k) := by
  have hme := inside_proc hI ho
  have hu := (hI.fork p _ q (mem_code ho hc) rfl).1
  cases ok with
  | true =>
    refine told_quiet hI hT hc (by rw [hme]; rfl) (fun q' v he => ?_) (fun pid hm => ?_)
    · rw [hme] at he
      cases he
    · rw [hme] at hm
      simp [effect, exec] at hm
  | false =>
    have hb := tells_alive (hT.slot q) (by rw [hu]; exact ProcState.noConfusion)
      (by rw [hu]; exact ProcState.noConfusion)
    refine told_event (q := q) (e := .undone q) (v := freeproc (s.proc q)) hI hT hc (by rw [hme]; rfl)
      (by rw [hme]; rfl) rfl
      ⟨_, hb⟩ rfl (fun _ e => by cases e) (fun q pid _ hm => ?_)
    rw [hme] at hm
    simp [effect, exec] at hm

theorem told_die {st : Int} (hI : Inv s) (hT : Told s) (ho : (s.cpu h).on = some p)
    (hc : s.code h = .op (.die q st) :: k) :
    Told (s.apply h (effect s (s.cpu h).proc ok (.die q st)) k) := by
  have hme := inside_proc hI ho
  have hwf := wf_code hI hc
  have hq : q = p := fits_own hwf.1 ho
  subst hq
  have hr := inside_running hI ho hc Op.noConfusion Op.noConfusion
  have hb := tells_alive (hT.slot q) (by rw [hr]; exact ProcState.noConfusion) (by rw [hr]; exact ProcState.noConfusion)
  refine told_event (q := q) (e := .exited q (s.proc q).pid st)
    (v := { s.proc q with xstate := st, state := .zombie }) hI hT hc
    (by rw [hme]; rfl) (by rw [hme]; rfl) rfl hb ⟨rfl, rfl, rfl⟩ (fun _ e => by cases e) (fun q pid _ hm => ?_)
  rw [hme] at hm
  simp [effect, exec] at hm

theorem told_kwaitTest {todo : List Slot} (hI : Inv s) (hT : Told s) (ho : (s.cpu h).on = some p)
    (hc : s.code h = .op (.kwaitTest q todo) :: k) :
    Told (s.apply h (effect s (s.cpu h).proc ok (.kwaitTest q todo)) k) := by
  have hme := inside_proc hI ho
  have hwf := wf_code hI hc
  by_cases hz : (s.proc q).state = .zombie ∧ ok = true
  · obtain ⟨hz, rfl⟩ := hz
    refine told_event (q := q) (e := .reaped p q (s.proc q).pid (s.proc q).xstate) (v := freeproc (s.proc q)) hI hT hc
      (by rw [hme]; simp [effect, exec, hz]) (by rw [hme]; simp [effect, exec, hz]) rfl
        (tells_zombie (hT.slot q) hz) rfl
      (fun q e => ?_) (fun q' pid ho' hm => ?_)
    · cases e
      exact ⟨ho, hwf.2.1 rfl⟩
    · rw [hme] at hm
      simp [effect, exec, hz] at hm
      subst hm
      rw [ho] at ho'
      cases ho'
      exact ⟨q, _, rfl⟩
  · have hcases : (s.proc q).state ≠ .zombie ∨ ok = false := by
      by_cases e : (s.proc q).state = .zombie
      · exact .inr (by simpa [e] using hz)
      · exact .inl e
    refine told_quiet hI hT hc ?_ (fun q' v he => ?_) (fun pid hm => ?_)
    · rw [hme]
      rcases hcases with e | rfl
      · simp [effect, exec, e]
      · simp only [effect, exec]
        split <;> rfl
    · rw [hme] at he
      rcases hcases with e | rfl
      · simp [effect, exec, e] at he
      · simp only [effect, exec] at he
        split at he <;> cases he
    · rw [hme] at hm
      rcases hcases with e | rfl
      · simp [effect, exec, e] at hm
      · simp only [effect, exec] at hm
        split at hm <;> simp at hm

theorem told_kwaitRet (hI : Inv s) (hT : Told s) (ho : (s.cpu h).on = some p)
    (hc : s.code h = .op (.kwaitRet pid) :: k) :
    Told (s.apply h (effect s (s.cpu h).proc ok (.kwaitRet pid)) k) := by
  have hme := inside_proc hI ho
  have hwf := wf_code hI hc
  have hh : (s.apply h (effect s (s.cpu h).proc ok (.kwaitRet pid)) k).hist = .returned p pid :: s.hist := by
    rw [apply_hist, hme]
    rfl
  have hp : (s.apply h (effect s (s.cpu h).proc ok (.kwaitRet pid)) k).proc = s.proc := apply_unset (by rw [hme]; rfl)
  refine told_effect hI hT hc ?_ (fun p' => ?_) (fun q => ?_) (fun q pid' _ hm => ?_)
  · rw [hh]
    exact ⟨hT.ret p pid (mem_code ho hc), hT.orderly⟩
  · rw [hh, last_cons, hp]
    exact hT.slot p'
  · rw [hh, lastWait_cons]
    by_cases e : p = q
    · subst e
      exact .inr ⟨ho, hwf.2.1 rfl⟩
    · have hw : (Event.returned p pid).waiter ≠ some q := fun e' => e (Option.some.inj e')
      rw [if_neg hw]
      exact .inl rfl
  · rw [hme] at hm
    simp [effect, exec] at hm

theorem told_step (hI : Inv s) (hT : Told s) (e : H × Ev) : Told (step s e) := by
  obtain ⟨h, e⟩ := e
  rcases step_shape s h e with ⟨k', hs, hn⟩ | ⟨i, k, ok, _, hc, _, _, hs⟩
  · refine ⟨hs.hist ▸ hT.orderly, fun p => ?_, fun q pid hm => ?_⟩
    · rw [hs.proc, hs.hist]
      exact hT.slot p
    · rw [hs.hist]
      by_cases ho : (s.cpu h).on = some q
      · rw [hs.mine q ho] at hm
        rcases next_mem hn hm with e | e
        · exact hT.ret q pid (by rw [← code_on ho]; exact e)
        · exact absurd rfl (e.ret pid)
      · rw [hs.other q ho] at hm
        exact hT.ret q pid hm
  rw [hs]
  have hwf := wf_code hI hc
  cases hi : i.isNoted with
  | false =>
    refine told_quiet hI hT hc (effect_note hi) (fun q v he => write_kept hI hc rfl (effect_set he) hi)
      (fun pid hm => ?_)
    have := effect_ret hm
    rw [hi] at this
    cases this
  | true =>
    cases i with
    | allocMem q =>
      obtain ⟨p, ho⟩ := fits_on hwf.1 id
      exact told_allocMem hI hT ho hc
    | forkCopy q =>
      obtain ⟨p, ho⟩ := fits_on hwf.1 id
      exact told_forkCopy hI hT ho hc
    | die q st =>
      obtain ⟨p, ho⟩ := fits_on hwf.1 id
      exact told_die hI hT ho hc
    | kwaitTest q todo =>
      obtain ⟨p, ho⟩ := fits_on hwf.1 id
      exact told_kwaitTest hI hT ho hc
    | kwaitRet pid =>
      obtain ⟨p, ho⟩ := fits_on hwf.1 id
      exact told_kwaitRet hI hT ho hc
    | _ => cases hi

theorem told_run (es : List (H × Ev)) : Told (run step boot es) :=
  (run_keeps (f := step) (I := fun s : St H => Inv s ∧ Told s)
    (fun _ e ⟨hI, hT⟩ => ⟨inv_step hI e, told_step hI hT e⟩) es ⟨inv_boot, told_boot⟩).2

/-- Only a parent reaps, and what it notes of its child is true. -/
theorem reaped_by {e : Ev} {c : Slot} {status : Int} (hI : Inv s) (hW : Wait s)
    (hr : (step s (h, e)).hist = .reaped q c pid status :: s.hist) :
    (s.proc c).parent = some q ∧ (s.proc c).state = .zombie ∧ (s.proc c).pid = pid ∧ (s.proc c).xstate = status ∧
      ((step s (h, e)).proc c).state = .unused := by
  rcases step_shape s h e with ⟨k', hs, hn⟩ | ⟨i, k, ok, _, hc, _, _, hs⟩
  · rw [hs.hist] at hr
    exact absurd (congrArg List.length hr) (by simp)
  rw [hs] at hr ⊢
  have hnote : (effect s (s.cpu h).proc ok i).note = some (.reaped q c pid status) := by
    rw [apply_hist] at hr
    cases hn : (effect s (s.cpu h).proc ok i).note with
    | none =>
      rw [hn] at hr
      exact absurd (congrArg List.length hr) (by simp)
    | some e =>
      rw [hn] at hr
      exact congrArg some (List.cons.inj hr).1
  have hwf := wf_code hI hc
  have hon (hf : ¬i.Fits none) : ∃ p, (s.cpu h).on = some p ∧ (s.cpu h).proc = some p := by
    obtain ⟨p, ho⟩ := fits_on hwf.1 hf
    exact ⟨p, ho, inside_proc hI ho⟩
  cases i with
  | kwaitTest q' todo =>
    obtain ⟨p, ho, hme⟩ := hon id
    rw [hme] at hnote ⊢
    obtain ⟨hpar, _⟩ : (s.proc q').parent = some p ∧ NoZombie s p (q' :: todo) := hW.knows p _ (mem_code ho hc)
    simp only [effect, exec] at hnote
    split at hnote
    · rename_i hz
      split at hnote
      · rename_i hok
        cases hnote
        refine ⟨hpar, hz, rfl, rfl, ?_⟩
        rw [apply_set (q := c) (v := freeproc (s.proc c)) (by simp [effect, exec, hz, hok]), upd_same]
        rfl
      · cases hnote
    · cases hnote
  | allocMem q' | forkCopy q' =>
    obtain ⟨p, _, hme⟩ := hon id
    rw [hme] at hnote
    simp only [effect, exec] at hnote
    split at hnote <;> cases hnote
  | die q' st | kwaitRet pid' =>
    obtain ⟨p, _, hme⟩ := hon id
    rw [hme] at hnote
    cases hnote
  | _ =>
    rw [effect_note rfl] at hnote
    cases hnote

/-! ## The process tree -/

def Grown (st : ProcState) : Prop := st = .runnable ∨ st = .running ∨ st = .sleeping ∨ st = .zombie

structure ProcessTree (s : St H) : Prop where
  parent : ∀ p, p ≠ s.initproc → Grown (s.proc p).state →
    ∃ q, (s.proc p).parent = some q ∧ (s.proc q).state ≠ .unused ∧ (s.proc q).state ≠ .zombie
  reaches : ∀ p, p ≠ s.initproc → Grown (s.proc p).state → Reaches (fun c => (s.proc c).parent) s.initproc p
  used : ∀ c q, (s.proc c).parent = some q → (s.proc q).state ≠ .unused

/-- `Orderly` says that an exited child is reaped at most once, with its own pid and exit status
    and before its slot is used
    again, and that `kwait` returns what it has reaped. -/
structure Reaping (s : St H) : Prop where
  orderly : Orderly s.hist
  byParent : ∀ h e q c pid status, (step s (h, e)).hist = .reaped q c pid status :: s.hist →
    (s.proc c).parent = some q ∧ (s.proc c).state = .zombie ∧ (s.proc c).pid = pid ∧ (s.proc c).xstate = status ∧
      ((step s (h, e)).proc c).state = .unused

theorem grown_age {st : ProcState} (hg : Grown st) : age st = .grown ∨ age st = .dead := by
  rcases hg with rfl | rfl | rfl | rfl <;> simp [age]

theorem age_grown {st : ProcState} (h : age st = .grown) : st ≠ .unused ∧ st ≠ .zombie := by
  cases st <;> simp_all [age]

theorem process_tree_reaping (es : List (H × Ev)) : ProcessTree (run step boot es) ∧ Reaping (run step boot es) := by
  obtain ⟨hI, hK, hW⟩ := family_run (H := H) es
  have hT := told_run (H := H) es
  generalize run step boot es = s at *
  have hpar (p : Slot) (hp : p ≠ s.initproc) (hg : Grown (s.proc p).state) : ∃ q, (s.proc p).parent = some q :=
    Option.isSome_iff_exists.mp (hK.tree.raised p hp (grown_age hg))
  refine ⟨⟨fun p hp hg => ?_, fun p hp hg => ?_, fun c q e => (age_grown (hK.tree.parent c q e)).1⟩,
    ⟨hT.orderly, fun h e q c pid st => reaped_by hI hW⟩⟩
  · obtain ⟨q, hq⟩ := hpar p hp hg
    exact ⟨q, hq, age_grown (hK.tree.parent p q hq)⟩
  · obtain ⟨q, hq⟩ := hpar p hp hg
    exact .up hq (hK.tree.reaches p q hq)

end Record

end Xv6.Smp
