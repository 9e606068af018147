/-
  Xv6.Sched.Ticks — the accounting of the MLFQ scheduler (`kernel/trap.c`: `usertrap`,
  `kerneltrap`, `clockintr`; `kernel/proc.c`: `allocproc`, `scheduler`).

  On one hart (`Xv6.Sched.Mlfq`): a process's priority and `ticks_used` follow from the
  number of timer interrupts it received in user mode since its `allocproc`, and the
  scheduler dispatches the RUNNABLE process that is least by priority and slot
  (`mlfq_levels`).

  On any number of harts, which share the process table, each with its `c->proc`: a timer
  interrupt is charged to the process it finds running if and only if it comes in user
  mode and the process is not killed (`ticks_charged_iff`). `kerneltrap` yields without
  charging, so a process that takes its ticks in the kernel is never demoted
  (`kernel_ticks_free`). A stretch of kernel code of one hart, as in `Xv6.Sched.Mlfq`, is one
  step here as well.
-/

import Xv6.Sched.Levels

namespace Xv6.Sched

open Lib

variable {s : St} {e : Ev} {q : Slot} {t : Slot → Proc}

/-! ## One hart -/

def Levelled (t : Slot → Proc) : Prop := ∀ q, ∃ n, (t q).level = levelAfter n

theorem levelled_stepOn (clock : Bool) (h : Levelled s.proc) (e : Ev) : Levelled (stepOn clock s e).proc := by
  intro q
  rw [level_stepOn]
  split
  · exact ⟨0, rfl⟩
  obtain ⟨n, hn⟩ := h q
  split
  · exact ⟨n + 1, level_charge hn⟩
  · exact ⟨n, hn⟩

/-- A step that does not allocate the slot does not lower its priority. -/
theorem priority_stepOn (clock : Bool) (h : Levelled s.proc) (ha : ¬ Allocates s e q) :
    (s.proc q).priority ≤ ((stepOn clock s e).proc q).priority := by
  obtain ⟨n, hn⟩ := h q
  have hl := level_stepOn clock s e q
  rw [if_neg ha] at hl
  have h0 : (s.proc q).priority = (levelAfter n).1 := congrArg Prod.fst hn
  split at hl
  · have h1 : ((stepOn clock s e).proc q).priority = (levelAfter (n + 1)).1 :=
      congrArg Prod.fst (hl.trans (level_charge hn))
    rw [h0, h1]
    exact levelAfter_mono n
  · have h1 : ((stepOn clock s e).proc q).priority = (s.proc q).priority := congrArg Prod.fst hl
    rw [h1]

theorem slotwise_killed : Slotwise fun p p' => p.killed = true → p'.killed = true :=
  ⟨fun _ h => h, fun _ _ _ h h' h0 => h' (h h0), fun _ h => h, fun _ h => h, fun _ _ h => h,
    fun _ _ h => h, fun _ _ h => h⟩

theorem slotwise_unkilled : Slotwise fun p p' => p.killed = false → p'.killed = false :=
  ⟨fun _ h => h, fun _ _ _ h h' h0 => h' (h h0), fun _ h => h, fun _ h => h, fun _ _ h => h,
    fun _ _ h => h, fun _ _ h => h⟩

theorem charge_killed (p : Proc) : (charge p).killed = p.killed := by rw [charge_eq]

/-- `killed` is cleared by `freeproc` only. -/
theorem killed_step (hk : (s.proc q).killed = true) (hu : ((step s e).proc q).state ≠ .unused) :
    ((step s e).proc q).killed = true := by
  -- a slot other than the one that was freed
  have hfree : ∀ (r : Slot) (v : Proc), v.state = .unused → (upd s.proc r v q).state ≠ .unused →
      (upd s.proc r v q).killed = true := by
    intro r v hv hne
    by_cases h : q = r
    · rw [h, upd_same] at hne; exact absurd hv hne
    · rw [upd_ne _ _ h]; exact hk
  cases e with
  | kwait ok =>
    cases hc : s.caller with
    | none => rw [step_no_caller hc rfl]; exact hk
    | some p =>
      rw [step_caller hc _ Ev.noConfusion fun _ => Ev.noConfusion] at hu ⊢
      change ((kwait s p ok).proc q).state ≠ .unused at hu
      show ((kwait s p ok).proc q).killed = true
      unfold kwait at hu ⊢
      cases hpp : findSlot s.proc fun pp => pp.parent = some p ∧ pp.state = .zombie with
      | some pp =>
        rw [hpp] at hu
        cases ok with
        | false => exact hk
        | true => exact hfree pp _ rfl hu
      | none =>
        dsimp only
        split
        · exact hk
        · exact each_sleep slotwise_killed s p _ q hk
  | kforkAlloc ok =>
    cases ok with
    | true => exact each_step slotwise_killed s (e := .kforkAlloc true) (fun _ _ h => h) q hk
    | false =>
      cases hc : s.caller with
      | none => rw [step_no_caller hc rfl]; exact hk
      | some p =>
        rw [step_caller hc _ Ev.noConfusion fun _ => Ev.noConfusion] at hu ⊢
        unfold call allocproc at hu ⊢
        cases hf : findSlot s.proc (·.state = .unused) with
        | none => exact hk
        | some np => rw [hf] at hu; exact hfree np _ rfl hu
  | timer user =>
    cases user with
    | true => exact each_step slotwise_killed s (e := .timer true) (fun p h => (charge_killed p).trans h) q hk
    | false => exact each_step slotwise_killed s (e := .timer false) trivial q hk
  | kkill pid => exact each_step slotwise_killed s (e := .kkill pid) (fun _ _ => rfl) q hk
  | setkilled => exact each_step slotwise_killed s (e := .setkilled) (fun _ _ => rfl) q hk
  | scheduler => exact each_step slotwise_killed s (e := .scheduler) trivial q hk
  | devintr c => exact each_step slotwise_killed s (e := .devintr c) trivial q hk
  | sleep c => exact each_step slotwise_killed s (e := .sleep c) trivial q hk
  | wakeup c => exact each_step slotwise_killed s (e := .wakeup c) trivial q hk
  | kforkParent => exact each_step slotwise_killed s (e := .kforkParent) trivial q hk
  | kforkRunnable => exact each_step slotwise_killed s (e := .kforkRunnable) trivial q hk
  | kexit status => exact each_step slotwise_killed s (e := .kexit status) trivial q hk

/-- `kill`, or a fault in user mode. -/
def Ev.kills : Ev → Bool
  | .kkill _ | .setkilled => true
  | _ => false

theorem unkilled_step (he : e.kills = false) (h : ∀ q, (s.proc q).killed = false) (q : Slot) :
    ((step s e).proc q).killed = false := by
  have hfit : Fits (fun p p' => p.killed = false → p'.killed = false) e := by
    cases e with
    | kkill pid | setkilled => cases he
    | kwait ok => intro p _; rfl
    | kforkAlloc ok =>
      cases ok with
      | true => intro p pid hp; exact hp
      | false => intro p pid _; rfl
    | timer user =>
      cases user with
      | true => intro p hp; exact (charge_killed p).trans hp
      | false => trivial
    | _ => trivial
  exact each_step slotwise_unkilled s hfit q (h q)

/-- A process is born at level 0 with no tick used. -/
theorem level_born (hi : Inv s) (h0 : (s.proc q).state = .unused) (h1 : ((step s e).proc q).state ≠ .unused) :
    ((step s e).proc q).level = (0, 0) := by
  have hm := step_move s e
  generalize step s e = s' at hm h1
  cases hm with
  | quiet e t ticks nextpid panicked hq | parent p np t hc hk hq => exact absurd h0 (settle_used (hq q).1 h1)
  | dispatch p hc hs =>
    have hne : q ≠ p := by intro h; rw [h, scan_runnable hs] at h0; cases h0
    have he : upd s.proc p { s.proc p with state := .running, chan := none } q = s.proc q := upd_ne _ _ hne
    exact absurd h0 (he ▸ h1)
  | release e p t pr ticks hc hq hst hpr htk =>
    have hne : q ≠ p := by intro h; rw [h, (hi.running p).mpr hc] at h0; cases h0
    have he : upd t p pr q = t q := upd_ne _ _ hne
    exact absurd h0 (settle_used (hq q).1 (he ▸ h1))
  | charged p t ticks hc hq =>
    have hne : q ≠ p := by intro h; rw [h, (hi.running p).mpr hc] at h0; cases h0
    have he : upd t p { charge (t p) with state := .runnable } q = t q := upd_ne _ _ hne
    exact absurd h0 (settle_used (hq q).1 (he ▸ h1))
  | alloc p np pr nextpid hc hk hun hst hp0 ht0 =>
    by_cases hq : q = np
    · show Proc.level (upd s.proc np pr q) = (0, 0)
      rw [hq, upd_same]
      unfold Proc.level
      rw [hp0, ht0]
    · have he : upd s.proc np pr q = s.proc q := upd_ne _ _ hq
      exact absurd h0 (he ▸ h1)
  | publish p np hc hk =>
    have hu : (s.proc np).state = .used := hi.used p np (by rw [hk]; rfl)
    have hne : q ≠ np := by intro h; rw [h, hu] at h0; cases h0
    have he : upd s.proc np { s.proc np with state := .runnable } q = s.proc q := upd_ne _ _ hne
    exact absurd h0 (he ▸ h1)

/-! ## The scan -/

theorem levelled_mem (hl : Levelled t) (q : Slot) : (t q).priority ∈ ([0, 1, 2] : List Int) := by
  obtain ⟨n, hn⟩ := hl q
  have h0 : (t q).priority = (levelAfter n).1 := congrArg Prod.fst hn
  rw [h0]
  rcases levelAfter_priority n with h | h | h <;> rw [h] <;> decide

/-- The scan finds the RUNNABLE process that is least by priority and slot. -/
theorem scan_lex (hl : Levelled t) {p : Slot} (h : scan t = some p) :
    (t p).state = .runnable ∧ ∀ q, (t q).state = .runnable →
      (t p).priority < (t q).priority ∨ ((t p).priority = (t q).priority ∧ p ≤ q) := by
  obtain ⟨hp, hle⟩ := scan_least h
  refine ⟨hp, fun q hq => ?_⟩
  rcases Int.lt_trichotomy (t p).priority (t q).priority with hlt | heq | hgt
  · exact .inl hlt
  · exact .inr ⟨heq, hle q hq heq.symm⟩
  -- the lanes before that of `p` are empty
  obtain ⟨l, a, r, hlar, hfind, hbefore⟩ := List.findSome?_eq_some_iff.mp h
  have ha : (t p).priority = a := (of_decide_eq_true (findSlot_spec hfind)).2
  have hmem := levelled_mem hl q
  have hsorted : List.Pairwise (· < ·) ([0, 1, 2] : List Int) := by decide
  rw [hlar] at hmem hsorted
  have hl1 : (t q).priority ∈ l := by
    rcases List.mem_append.mp hmem with h1 | h1
    · exact h1
    · have hge : a ≤ (t q).priority := by
        rcases List.mem_cons.mp h1 with h2 | h2
        · exact h2.ge
        · exact ((List.pairwise_cons.mp (List.pairwise_append.mp hsorted).2.1).1 _ h2).le
      omega
  exact absurd ⟨hq, rfl⟩ (of_decide_eq_false (first_none (hbefore _ hl1) q))

/-- The scan finds a process whenever one is RUNNABLE. -/
theorem scan_busy (hl : Levelled t) (hq : (t q).state = .runnable) : ∃ p, scan t = some p := by
  cases h : scan t with
  | some p => exact ⟨p, rfl⟩
  | none =>
    have hno := List.findSome?_eq_none_iff.mp h _ (levelled_mem hl q)
    exact absurd ⟨hq, rfl⟩ (of_decide_eq_false (first_none hno q))

/-! ## Runs of one hart -/

/-- The machine with, for each process, the timer interrupts it received in user mode since its `allocproc`. -/
structure Clock where
  core : St
  received : Slot → Nat

def Clock.step (s : Clock) (e : Ev) : Clock :=
  { core := Sched.step s.core e
    received := fun q =>
      -- the count of a new process starts at 0
      if (s.core.proc q).state = .unused then 0
      else if Receives s.core e q then s.received q + 1
      else s.received q }

def Clock.boot : Clock := ⟨Sched.boot, fun _ => 0⟩

structure Clock.Inv (s : Clock) : Prop where
  inv : Sched.Inv s.core
  levelled : Levelled s.core.proc
  level : ∀ q, (s.core.proc q).state ≠ .unused → (s.core.proc q).killed = false →
    (s.core.proc q).level = levelAfter (s.received q)

theorem clock_inv_boot : Clock.boot.Inv := by
  have h0 : ∀ q, (boot.proc q).level = (0, 0) := by decide +kernel
  exact ⟨inv_boot, fun q => ⟨0, h0 q⟩, fun q _ _ => h0 q⟩

theorem not_allocates (h : (s.proc q).state ≠ .unused) : ¬ Allocates s e q :=
  fun ha => h (of_decide_eq_true (findSlot_spec ha.2.2))

theorem clock_inv_step (s : Clock) (e : Ev) (h : s.Inv) : (s.step e).Inv := by
  have hlev : Levelled (step s.core e).proc := by
    rw [← stepOn_clock]
    exact levelled_stepOn true h.levelled e
  refine ⟨inv_move h.inv (step_move _ _), hlev, fun q hlive hkilled => ?_⟩
  change ((step s.core e).proc q).killed = false at hkilled
  show ((step s.core e).proc q).level = levelAfter (if (s.core.proc q).state = .unused then 0 else _)
  by_cases hu : (s.core.proc q).state = .unused
  · rw [if_pos hu, level_born h.inv hu hlive]
    rfl
  have hk : (s.core.proc q).killed = false := by
    by_contra hne
    rw [killed_step (by simpa using hne) hlive] at hkilled
    cases hkilled
  rw [if_neg hu, ← stepOn_clock, level_stepOn, if_neg (not_allocates hu)]
  by_cases hr : Receives s.core e q
  · have hrun : (s.core.proc q).state = .running := (h.inv.running q).mpr (caller_some hr.2).2.1
    rw [if_pos ⟨hr, hk, hrun⟩, if_pos hr]
    exact level_charge (h.level q hu hk)
  · rw [if_neg fun hc => hr hc.1, if_neg hr]
    exact h.level q hu hk

/-- MLFQ accounting and selection in one state. -/
structure Clock.Mlfq (s : Clock) : Prop where
  level : ∀ q, (s.core.proc q).state ≠ .unused → (s.core.proc q).killed = false → s.received q < 2147483648 →
    ((s.core.proc q).priority, (s.core.proc q).ticksUsed) =
      if s.received q < 5 then (0, (s.received q : Int))
      else if s.received q < 15 then (1, (s.received q : Int) - 5)
      else (2, (s.received q : Int) - 15)
  priority : ∀ q, (s.core.proc q).priority ∈ ([0, 1, 2] : List Int)
  least : ∀ e p, dispatch s.core e = some p → (s.core.proc p).state = .runnable ∧ ∀ q,
    (s.core.proc q).state = .runnable →
    (s.core.proc p).priority < (s.core.proc q).priority ∨
      ((s.core.proc p).priority = (s.core.proc q).priority ∧ p ≤ q)
  busy : s.core.panicked = false → s.core.cur = none → (∃ q, (s.core.proc q).state = .runnable) →
    ∃ p, dispatch s.core .scheduler = some p ∧ (Sched.step s.core .scheduler).cur = some p

theorem mlfq_of_inv {s : Clock} (h : s.Inv) : s.Mlfq := by
  refine ⟨fun q hlive hk hn => ?_, levelled_mem h.levelled, fun e p hd => ?_, fun hp hc hq => ?_⟩
  · rw [← levelAfter_lt hn]
    exact h.level q hlive hk
  · unfold dispatch at hd
    split at hd
    · exact scan_lex h.levelled hd
    · cases hd
  · obtain ⟨q, hq⟩ := hq
    obtain ⟨p, hs⟩ := scan_busy h.levelled hq
    refine ⟨p, ?_, ?_⟩
    · unfold dispatch
      rw [if_pos ⟨hp, rfl, hc⟩, hs]
    · unfold step
      rw [hp, if_neg (by decide)]
      unfold raw
      rw [hc]
      rw [hs]

theorem priority_run (es : List Ev) : ∀ {s : Clock}, s.Inv →
    Always Clock.step (fun s => (s.core.proc q).state ≠ .unused) s es →
    (s.core.proc q).priority ≤ ((run Clock.step s es).core.proc q).priority := by
  induction es with
  | nil => intro s _ _; exact le_refl _
  | cons e es ih =>
    intro s h ha
    have h1 := priority_stepOn true h.levelled (e := e) (not_allocates ha.1)
    rw [stepOn_clock] at h1
    exact h1.trans (ih (clock_inv_step s e h) ha.2)

theorem unkilled_run (es : List Ev) (he : ∀ e ∈ es, e.kills = false) :
    ∀ {s : Clock}, (∀ q, (s.core.proc q).killed = false) →
    ∀ q, ((run Clock.step s es).core.proc q).killed = false := by
  induction es with
  | nil => intro s h; exact h
  | cons e es ih =>
    intro s h
    refine ih (fun e' he' => he e' (.tail _ he')) ?_
    exact unkilled_step (he e List.mem_cons_self) h

/-- In every run of one hart: an unkilled process that received `n` timer interrupts in
    user mode is at the level of `n` charges, whatever else happened, and where nobody is
    killed that is every process; the priority is 0, 1 or 2 and does not fall during a life;
    each dispatch picks the least RUNNABLE process, and there is one if any is RUNNABLE. -/
theorem mlfq_levels (es es' : List Ev) :
    (run Clock.step Clock.boot es).Mlfq ∧
    ((∀ e ∈ es, e.kills = false) → ∀ q, ((run Clock.step Clock.boot es).core.proc q).killed = false) ∧
    ∀ q, Always Clock.step (fun s => (s.core.proc q).state ≠ .unused) (run Clock.step Clock.boot es) es' →
      ((run Clock.step Clock.boot es).core.proc q).priority ≤
        ((run Clock.step (run Clock.step Clock.boot es) es').core.proc q).priority := by
  have hi : (run Clock.step Clock.boot es).Inv := run_keeps clock_inv_step es clock_inv_boot
  have h0 : ∀ q, (boot.proc q).killed = false := by decide +kernel
  exact ⟨mlfq_of_inv hi, fun he => unkilled_run es he h0, fun q ha => priority_run es' hi ha⟩

/-- Who is dispatched, and at what level. -/
def dispatched (s : St) (e : Ev) : Option (Int × Slot) := (dispatch s e).map fun q => ((s.proc q).priority, q)

/-- No boost: while `p` stays RUNNABLE or RUNNING at level `pr` or above, nothing below it is
    dispatched, and at `pr` nothing in a slot after that of `p`. -/
theorem starves_below (es₀ es : List Ev) (p : Slot) (pr : Int)
    (hs : Always step (fun s => ((s.proc p).state = .runnable ∨ (s.proc p).state = .running) ∧ (s.proc p).priority ≤ pr)
      (run step boot es₀) es) :
    ∀ x ∈ outs step dispatched (run step boot es₀) es, x.1 < pr ∨ x.1 = pr ∧ x.2 ≤ p := by
  have hstep : ∀ s e, Inv s ∧ Levelled s.proc → Inv (step s e) ∧ Levelled (step s e).proc := fun s e h =>
    ⟨inv_move h.1 (step_move s e), stepOn_clock s e ▸ levelled_stepOn true h.2 e⟩
  refine outs_mem hstep (fun s e x hj hp hx => ?_) es (run_keeps hstep es₀ ⟨inv_boot, clock_inv_boot.levelled⟩) hs
  obtain ⟨q, hd, rfl⟩ := Option.map_eq_some_iff.mp hx
  unfold dispatch at hd
  split at hd
  · next h =>
    have hrun := hp.1.resolve_right fun hr => by
      rw [(hj.1.running p).mp hr] at h
      cases h.2.2
    rcases (scan_lex hj.2 hd).2 p hrun with hlt | ⟨heq, hle⟩
    · exact .inl (Int.lt_of_lt_of_le hlt hp.2)
    · exact (Int.lt_or_eq_of_le (heq ▸ hp.2)).imp_right (⟨·, hle⟩)
  · cases hd

theorem starves_below_forked :
    let o := outs step dispatched (run step boot forked) twoTicks
    o ≠ [] ∧ ∀ x ∈ o, x.1 < 0 ∨ x.1 = 0 ∧ x.2 ≤ ⟨0, by decide⟩ :=
  ⟨by decide +kernel, starves_below forked twoTicks _ 0 (by decide +kernel)⟩

/-! ## Any number of harts -/

/-- The process table that the harts share, and each hart's `c->proc`, in the place of `core.cur`. -/
structure Harts (H : Type) where
  core : St
  cur : H → Option Slot

variable {H : Type}

def Harts.on (s : Harts H) (h : H) : St := { s.core with cur := s.cur h }

/-- The harts with, for each process, the timer interrupts taken while it was RUNNING as some hart's `c->proc`, and
    the increments of its `ticks_used`, since its `allocproc`. -/
structure Meter (H : Type) where
  harts : Harts H
  taken : Slot → Nat
  charged : Slot → Nat

def Meter.boot : Meter H := ⟨⟨Sched.boot, fun _ => none⟩, fun _ => 0, fun _ => 0⟩

/-- Every tick is charged, and no process has used up its level's 5 or 10 ticks. -/
structure Meter.Fair (s : Meter H) : Prop where
  charged : ∀ q, s.charged q = s.taken q
  first : ∀ q, (s.harts.core.proc q).priority = 0 → s.taken q < 5
  second : ∀ q, (s.harts.core.proc q).priority = 1 → s.taken q < 15

/-- A timer interrupt finds the process that it interrupts in user mode and unkilled. -/
def InUserMode (s : Meter H) (e : H × Ev) : Prop :=
  ∀ q, Takes (s.harts.on e.1) e.2 q → e.2 = .timer true ∧ (s.harts.core.proc q).killed = false

theorem charges_iff {s : Meter H} {e : H × Ev} : Charges (s.harts.on e.1) e.2 q ↔
      Takes (s.harts.on e.1) e.2 q ∧ e.2 = .timer true ∧ (s.harts.core.proc q).killed = false := by
  constructor
  · intro ⟨hr, hk, hs⟩
    exact ⟨⟨.inl hr, hs⟩, hr.1, hk⟩
  · intro ⟨⟨hr, hs⟩, he, hk⟩
    rcases hr with hr | ⟨hr, -⟩
    · exact ⟨hr, hk, hs⟩
    · rw [he] at hr; cases hr

theorem fair_of_charged {s : Meter H} (hl : ∀ q, (s.harts.core.proc q).level = levelAfter (s.charged q))
    (hc : ∀ q, s.charged q = s.taken q) : s.Fair := by
  have hp : ∀ q, (s.harts.core.proc q).priority = (levelAfter (s.taken q)).1 := by
    intro q
    rw [← hc q]
    exact congrArg Prod.fst (hl q)
  refine ⟨hc, fun q h0 => ?_, fun q h1 => ?_⟩
  · rw [hp q] at h0
    unfold levelAfter at h0
    split at h0
    · assumption
    · split at h0 <;> simp at h0
  · rw [hp q] at h1
    unfold levelAfter at h1
    split at h1
    · simp at h1
    · split at h1
      · assumption
      · simp at h1

variable [DecidableEq H]

/-- A step of hart `h`, where `zero` is hart 0. -/
def Harts.step (zero : H) (s : Harts H) (e : H × Ev) : Harts H :=
  { core := stepOn (e.1 = zero) (s.on e.1) e.2
    cur := upd s.cur e.1 (stepOn (e.1 = zero) (s.on e.1) e.2).cur }

def Meter.step (zero : H) (s : Meter H) (e : H × Ev) : Meter H :=
  { harts := s.harts.step zero e
    taken := fun q =>
      if Allocates (s.harts.on e.1) e.2 q then 0
      else if Takes (s.harts.on e.1) e.2 q then s.taken q + 1
      else s.taken q
    charged := fun q =>
      if Allocates (s.harts.on e.1) e.2 q then 0
      else if Charges (s.harts.on e.1) e.2 q then s.charged q + 1
      else s.charged q }

theorem level_meter (zero : H) (es : List (H × Ev)) (q : Slot) :
    ((run (Meter.step zero) Meter.boot es).harts.core.proc q).level =
      levelAfter ((run (Meter.step zero) Meter.boot es).charged q) := by
  have hstep : ∀ (s : Meter H) e, (∀ q, (s.harts.core.proc q).level = levelAfter (s.charged q)) →
      ∀ q, ((s.step zero e).harts.core.proc q).level = levelAfter ((s.step zero e).charged q) := by
    intro s e h q
    show ((stepOn (e.1 = zero) (s.harts.on e.1) e.2).proc q).level = levelAfter (if _ then 0 else _)
    rw [level_stepOn]
    split
    · rfl
    · split
      · exact level_charge (h q)
      · exact h q
  refine run_keeps hstep es ?_ q
  show ∀ q, (boot.proc q).level = (0, 0)
  decide +kernel

theorem charged_step (zero : H) {s : Meter H} (hc : ∀ q, s.charged q = s.taken q) (e : H × Ev) :
    (∀ q, (s.step zero e).charged q = (s.step zero e).taken q) ↔ InUserMode s e := by
  constructor
  · intro h q ht
    by_contra hn
    have hq := h q
    have ha : ¬ Allocates (s.harts.on e.1) e.2 q := by
      intro ⟨⟨ok, he⟩, _⟩
      rcases ht.1 with hr | hr
      · rw [hr.1] at he; cases he
      · rw [hr.1] at he; cases he
    have hno : ¬ Charges (s.harts.on e.1) e.2 q := fun h => hn (charges_iff.mp h).2
    unfold Meter.step at hq
    dsimp only at hq
    rw [if_neg ha, if_neg ha, if_neg hno, if_pos ht, hc q] at hq
    omega
  · intro h q
    unfold Meter.step
    dsimp only
    split
    · rfl
    by_cases ht : Takes (s.harts.on e.1) e.2 q
    · rw [if_pos ht, if_pos (charges_iff.mpr ⟨ht, h q ht⟩), hc q]
    · rw [if_neg ht, if_neg fun h => ht (charges_iff.mp h).1, hc q]

/-- Along every run, on any number of harts, every tick is charged if and only if every
    timer interrupt finds the running process in user mode and unkilled. -/
theorem ticks_charged_iff (zero : H) (es : List (H × Ev)) :
    Along (Meter.step zero) InUserMode Meter.boot es ↔ Always (Meter.step zero) Meter.Fair Meter.boot es := by
  suffices h : ∀ (es₀ : List (H × Ev)), (∀ q, (run (Meter.step zero) Meter.boot es₀).charged q =
      (run (Meter.step zero) Meter.boot es₀).taken q) →
      (Along (Meter.step zero) InUserMode (run (Meter.step zero) Meter.boot es₀) es ↔
        Always (Meter.step zero) Meter.Fair (run (Meter.step zero) Meter.boot es₀) es) from h [] fun _ => rfl
  induction es with
  | nil => intro es₀ hc; exact ⟨fun _ => fair_of_charged (level_meter zero es₀) hc, fun _ => trivial⟩
  | cons e es ih =>
    intro es₀ hc
    have happ : Meter.step zero (run (Meter.step zero) Meter.boot es₀) e =
        run (Meter.step zero) Meter.boot (es₀ ++ [e]) := by
      rw [run_append]; rfl
    have hs := charged_step zero hc e
    have hih := ih (es₀ ++ [e])
    rw [← happ] at hih
    constructor
    · intro h
      exact ⟨fair_of_charged (level_meter zero es₀) hc, (hih (hs.mpr h.1)).mp h.2⟩
    · intro h
      have h1 : ∀ q, _ := h.2.head.charged
      exact ⟨hs.mp h1, (hih h1).mpr h.2⟩

/-- Ten times: the scheduler's turn, then a timer interrupt while the process is in the kernel. -/
def kernelTicks : List (Unit × Ev) := (List.replicate 10 [((), Ev.scheduler), ((), Ev.timer false)]).flatten

/-- A process that takes its ticks in the kernel is charged for none of them: after ten it is
    still at level 0, which allots five. -/
theorem kernel_ticks_free :
    (run (Meter.step ()) Meter.boot kernelTicks).taken ⟨0, by decide⟩ = 10 ∧
    (run (Meter.step ()) Meter.boot kernelTicks).charged ⟨0, by decide⟩ = 0 ∧
    ((run (Meter.step ()) Meter.boot kernelTicks).harts.core.proc ⟨0, by decide⟩).priority = 0 := by
  decide +kernel

end Xv6.Sched
