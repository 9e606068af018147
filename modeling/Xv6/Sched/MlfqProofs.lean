/-
  Xv6.Sched.MlfqProofs — equal-priority processes do not share the CPU: the scheduler
  restarts its scan at slot 0 after every dispatch (see `Xv6.Sched.Mlfq`).
-/

import Xv6.Sched.Mlfq

namespace Xv6.Sched

open Lib

/-! ## What a step can do -/

inductive Settle : ProcState → ProcState → Prop
  | same (st : ProcState) : Settle st st
  | wake : Settle .sleeping .runnable
  | reap : Settle .zombie .unused

/-- No process was dispatched, gave up the CPU or was born, and none was charged. -/
def Quiet (t t' : Slot → Proc) : Prop :=
  ∀ q, Settle (t q).state (t' q).state ∧
    ((t' q).state ≠ .unused → (t' q).priority = (t q).priority ∧ (t' q).ticksUsed = (t q).ticksUsed)

theorem quiet_refl (t : Slot → Proc) : Quiet t t := fun _ => ⟨.same _, fun _ => ⟨rfl, rfl⟩⟩

theorem settle_trans {a b c : ProcState} (h : Settle a b) (h' : Settle b c) : Settle a c := by
  cases h with
  | same => exact h'
  | wake => cases h'; exact .wake
  | reap => cases h'; exact .reap

theorem settle_used {a b : ProcState} (h : Settle a b) (hb : b ≠ .unused) : a ≠ .unused := by
  cases h with
  | same => exact hb
  | wake => exact ProcState.noConfusion
  | reap => exact absurd rfl hb

variable {t : Slot → Proc} {p : Slot} {s : St}

theorem quiet_trans {u v : Slot → Proc} (h : Quiet t u) (h' : Quiet u v) : Quiet t v := by
  intro q
  refine ⟨settle_trans (h q).1 (h' q).1, fun hv => ?_⟩
  have ⟨h1, h2⟩ := (h' q).2 hv
  have ⟨h3, h4⟩ := (h q).2 (settle_used (h' q).1 hv)
  exact ⟨h1.trans h3, h2.trans h4⟩

theorem quiet_upd (t : Slot → Proc) (q : Slot) (p : Proc) (hs : Settle (t q).state p.state)
    (hl : p.state ≠ .unused → p.priority = (t q).priority ∧ p.ticksUsed = (t q).ticksUsed) : Quiet t (upd t q p) := by
  intro r
  by_cases h : r = q
  · rw [h, upd_same]; exact ⟨hs, hl⟩
  · rw [upd_ne _ _ h]; exact quiet_refl t r

theorem quiet_wakeup (t : Slot → Proc) (me : Option Slot) (c : Chan) : Quiet t (wakeup t me c) := by
  intro q
  unfold wakeup
  split
  · rename_i h; exact ⟨show Settle (t q).state .runnable from h.2.1 ▸ .wake, fun _ => ⟨rfl, rfl⟩⟩
  · exact quiet_refl t q

theorem quiet_reparent (s : St) (p : Slot) : Quiet s.proc (reparent s p) := by
  suffices h : ∀ (l : List Slot) (t : Slot → Proc), Quiet s.proc t → Quiet s.proc (l.foldl _ t) from
    h _ _ (quiet_refl _)
  intro l
  induction l with
  | nil => intro t h; exact h
  | cons pp l ih =>
    intro t h
    refine ih _ ?_
    dsimp only
    split
    · refine quiet_trans h (quiet_trans (u := upd t pp { t pp with parent := some s.initproc }) ?_ (quiet_wakeup _ _ _))
      exact quiet_upd t pp _ (.same _) fun _ => ⟨rfl, rfl⟩
    · exact h

theorem findSlot_spec {c : Proc → Bool} (h : findSlot t c = some p) : c (t p) = true :=
  (first_some h).1

/-- What can follow from one step: nothing for the CPU, a dispatch, the running process
    giving up the CPU, or a stretch of `kfork`. -/
inductive Move (s : St) : Ev → St → Prop
  | quiet (e : Ev) (t : Slot → Proc) (ticks : Nat) (nextpid : Int) (panicked : Bool) : Quiet s.proc t →
      Move s e { s with proc := t, ticks := ticks, nextpid := nextpid, panicked := panicked }
  | dispatch (p : Slot) : s.cur = none → scan s.proc = some p →
      Move s .scheduler { s with proc := upd s.proc p { s.proc p with state := .running, chan := none }, cur := some p }
  | release (e : Ev) (p : Slot) (t : Slot → Proc) (pr : Proc) (ticks : Nat) : s.cur = some p → Quiet s.proc t →
      pr.state = .runnable ∨ pr.state = .sleeping ∨ pr.state = .zombie →
      pr.priority = (t p).priority → pr.ticksUsed = (t p).ticksUsed →
      Move s e { s with proc := upd t p pr, cur := none, ticks := ticks }
  | charged (p : Slot) (t : Slot → Proc) (ticks : Nat) : s.cur = some p → Quiet s.proc t →
      Move s (.timer true)
        { s with proc := upd t p { charge (t p) with state := .runnable }, cur := none, ticks := ticks }
  | alloc (p np : Slot) (pr : Proc) (nextpid : Int) : s.cur = some p → s.kfork p = .no → (s.proc np).state = .unused →
      pr.state = .used → pr.priority = 0 → pr.ticksUsed = 0 →
      Move s (.kforkAlloc true)
        { s with proc := upd s.proc np pr, kfork := upd s.kfork p (.alloced np), nextpid := nextpid }
  | parent (p np : Slot) (t : Slot → Proc) : s.cur = some p → s.kfork p = .alloced np → Quiet s.proc t →
      Move s .kforkParent { s with proc := t, kfork := upd s.kfork p (.parented np) }
  | publish (p np : Slot) : s.cur = some p → s.kfork p = .parented np →
      Move s .kforkRunnable
        { s with proc := upd s.proc np { s.proc np with state := .runnable }, kfork := upd s.kfork p .no }

theorem move_stay (s : St) (e : Ev) : Move s e s := .quiet e s.proc s.ticks s.nextpid s.panicked (quiet_refl _)

theorem quiet_bereave (s : St) (p : Slot) : Quiet s.proc (bereave s p) := by
  unfold bereave
  split
  · exact quiet_trans (quiet_reparent s p) (quiet_wakeup _ _ _)
  · exact quiet_reparent s p

theorem move_kexit (s : St) (p : Slot) (status : Int) (hc : s.cur = some p) :
    Move s (.kexit status) (kexit s p status) := by
  unfold kexit
  split
  · exact .quiet _ s.proc s.ticks s.nextpid true (quiet_refl _)
  · have hq := quiet_bereave s p
    generalize bereave s p = t at hq
    exact .release _ p t _ s.ticks hc hq (.inr (.inr rfl)) rfl rfl

theorem move_sleep (s : St) (e : Ev) (p : Slot) (c : Chan) (hc : s.cur = some p) : Move s e (sleep s p c) :=
  .release e p s.proc _ s.ticks hc (quiet_refl _) (.inr (.inl rfl)) rfl rfl

theorem move_kwait (s : St) (p : Slot) (ok : Bool) (hc : s.cur = some p) : Move s (.kwait ok) (kwait s p ok) := by
  unfold kwait
  split
  · rename_i pp h
    split
    · have hz : (s.proc pp).state = .zombie := (of_decide_eq_true (findSlot_spec h)).2
      exact .quiet _ _ s.ticks s.nextpid s.panicked
        (quiet_upd _ _ _ (show Settle (s.proc pp).state .unused from hz ▸ .reap) fun h => absurd rfl h)
    · exact move_stay s _
  · split
    · exact move_stay s _
    · exact move_sleep s _ p _ hc

theorem move_kkill (s : St) (pid : Int) : Move s (.kkill pid) (kkill s pid) := by
  unfold kkill
  split
  · exact move_stay s _
  rename_i q _
  refine .quiet _ _ s.ticks s.nextpid s.panicked (quiet_upd _ _ _ ?_ fun _ => ⟨?_, ?_⟩)
  · split
    · rename_i h; exact show Settle (s.proc q).state .runnable from (show (s.proc q).state = _ from h) ▸ .wake
    · exact .same _
  · split <;> rfl
  · split <;> rfl

theorem move_alloc (s : St) (p : Slot) (ok : Bool) (hc : s.cur = some p) (hk : s.kfork p = .no) :
    Move s (.kforkAlloc ok) (call s p (.kforkAlloc ok)) := by
  simp only [call, allocproc]
  cases hf : findSlot s.proc (·.state = .unused) with
  | none => exact move_stay s _
  | some np =>
    have hu : (s.proc np).state = .unused := of_decide_eq_true (findSlot_spec hf)
    cases ok with
    | true => exact .alloc p np _ _ hc hk hu rfl rfl rfl
    | false =>
      exact .quiet _ _ s.ticks _ s.panicked
        (quiet_upd _ _ _ (show Settle (s.proc np).state .unused from hu ▸ .same _) fun h => absurd rfl h)

theorem quiet_clockintr (s : St) : Quiet s.proc (clockintr s).proc := quiet_wakeup _ _ _

theorem move_usertrap (s : St) (p : Slot) (hc : s.cur = some p) : Move s (.timer true) (usertrap s p) := by
  unfold usertrap
  dsimp only
  split
  · exact .quiet _ _ _ s.nextpid s.panicked (quiet_clockintr s)
  · split
    · have h := Move.charged (s := s) p _ (clockintr s).ticks hc (quiet_clockintr s)
      simpa [yield, clockintr] using h
    · exact .release _ p _ _ (clockintr s).ticks hc (quiet_clockintr s) (.inl rfl) rfl rfl

theorem move_kerneltrap (s : St) : Move s (.timer false) (kerneltrap s) := by
  unfold kerneltrap
  split
  · rename_i p hc
    exact .release _ p _ _ (clockintr s).ticks hc (quiet_clockintr s) (.inl rfl) rfl rfl
  · exact .quiet _ _ _ s.nextpid s.panicked (quiet_clockintr s)

theorem move_call (s : St) (p : Slot) (e : Ev) (hc : s.cur = some p) (hk : s.kfork p = .no) :
    Move s e (call s p e) := by
  cases e with
  | sleep c => exact move_sleep s _ p c hc
  | wakeup c => exact .quiet _ _ s.ticks s.nextpid s.panicked (quiet_wakeup _ _ _)
  | kforkAlloc ok => exact move_alloc s p ok hc hk
  | kexit status => exact move_kexit s p status hc
  | kwait ok => exact move_kwait s p ok hc
  | kkill pid => exact move_kkill s pid
  | setkilled => exact .quiet _ _ s.ticks s.nextpid s.panicked (quiet_upd _ _ _ (.same _) fun _ => ⟨rfl, rfl⟩)
  | timer user =>
    cases user with
    | true => exact move_usertrap s p hc
    | false => exact move_stay s _
  | _ => exact move_stay s _

theorem move_finishFork (s : St) (p : Slot) (e : Ev) (hc : s.cur = some p) :
    Move s e (finishFork s p e (s.kfork p)) := by
  unfold finishFork
  split
  · rename_i np hk
    exact .parent p np _ hc hk (quiet_upd _ _ _ (.same _) fun _ => ⟨rfl, rfl⟩)
  · exact .publish p _ hc ‹_›
  · exact move_stay s _

theorem step_move (s : St) (e : Ev) : Move s e (step s e) := by
  unfold step
  split
  · exact move_stay s e
  unfold raw
  split
  · exact move_kerneltrap s
  · exact .quiet _ _ s.ticks s.nextpid s.panicked (quiet_wakeup _ _ _)
  · split
    · exact .dispatch _ ‹_› ‹_›
    · exact move_stay s _
  · exact move_stay s _
  · split
    · exact move_call s _ _ ‹_› ‹_›
    · exact move_finishFork s _ _ ‹_›

/-! ## The scan -/

/-- The scan finds the RUNNABLE process of the least priority, the first of its slots. -/
theorem scan_least (h : scan t = some p) :
    (t p).state = .runnable ∧ ∀ q, (t q).state = .runnable → (t q).priority = (t p).priority → p ≤ q := by
  obtain ⟨pr, -, hf⟩ := List.exists_of_findSome?_eq_some h
  obtain ⟨h1, h2⟩ := first_some hf
  have ⟨h3, h4⟩ := of_decide_eq_true h1
  refine ⟨h3, fun q hq hpq => ?_⟩
  by_contra hlt
  have := of_decide_eq_false (h2 q (lt_of_not_ge hlt))
  exact this ⟨hq, hpq.trans h4⟩

theorem scan_runnable (h : scan t = some p) : (t p).state = .runnable := (scan_least h).1

/-! ## Who runs -/

def Kfork.np : Kfork → Option Slot
  | .no => none
  | .alloced np => some np
  | .parented np => some np

/-- Only `c->proc` is RUNNING; a slot that `kfork` has not published is USED, and belongs
    to one `kfork`. -/
structure Inv (s : St) : Prop where
  running : ∀ p, (s.proc p).state = .running ↔ s.cur = some p
  used : ∀ p np, (s.kfork p).np = some np → (s.proc np).state = .used
  one : ∀ p q np, (s.kfork p).np = some np → (s.kfork q).np = some np → p = q

theorem settle_iff {a b c : ProcState} (h : Settle a b) (hc : c = .running ∨ c = .used) : b = c ↔ a = c := by
  cases h with
  | same => exact .rfl
  | wake | reap => rcases hc with rfl | rfl <;> simp

theorem inv_release (hi : Inv s) (hc : s.cur = some p) (hq : Quiet s.proc t) {pr : Proc}
    (hst : pr.state = .runnable ∨ pr.state = .sleeping ∨ pr.state = .zombie) (ticks : Nat) :
    Inv { s with proc := upd t p pr, cur := none, ticks := ticks } := by
  have hrun : (s.proc p).state = .running := (hi.running p).mpr hc
  refine ⟨fun q => ?_, fun q np h => ?_, hi.one⟩
  · by_cases hqp : q = p
    · rw [hqp]
      rcases hst with h | h | h <;> simp [h]
    · simp only [upd_ne _ _ hqp, settle_iff (hq q).1 (.inl rfl), hi.running q, hc, Option.some.injEq]
      exact ⟨fun h => absurd h.symm hqp, fun h => by cases h⟩
  · have h1 := hi.used q np h
    have : np ≠ p := fun e => by rw [e, hrun] at h1; cases h1
    simp only [upd_ne _ _ this]
    exact (settle_iff (hq np).1 (.inr rfl)).mpr h1

theorem np_upd {q np : Slot} {k : Kfork} (h : (upd s.kfork p k q).np = some np) :
    (q = p ∧ k.np = some np) ∨ (q ≠ p ∧ (s.kfork q).np = some np) := by
  by_cases hq : q = p
  · rw [hq, upd_same] at h; exact .inl ⟨hq, h⟩
  · rw [upd_ne _ _ hq] at h; exact .inr ⟨hq, h⟩

theorem inv_move {s' : St} {e : Ev} (hi : Inv s) (m : Move s e s') : Inv s' := by
  obtain ⟨hr, hu, ho⟩ := hi
  cases m with
  | quiet e t ticks nextpid panicked hq =>
    exact ⟨fun p => (settle_iff (hq p).1 (.inl rfl)).trans (hr p),
      fun p np h => (settle_iff (hq np).1 (.inr rfl)).mpr (hu p np h), ho⟩
  | dispatch p hc hs =>
    have hp : (s.proc p).state = .runnable := scan_runnable hs
    refine ⟨fun q => ?_, fun q np h => ?_, ho⟩
    · by_cases hq : q = p
      · simp [hq]
      · simp only [upd_ne _ _ hq, hr q, hc, Option.some.injEq]
        exact ⟨(fun h => by cases h), fun h => absurd h.symm hq⟩
    · have h1 := hu q np h
      have hne : np ≠ p := fun e => by rw [e, hp] at h1; cases h1
      simp only [upd_ne _ _ hne]; exact h1
  | release e p t pr ticks hc hq hst hpr htk => exact inv_release ⟨hr, hu, ho⟩ hc hq hst ticks
  | charged p t ticks hc hq => exact inv_release ⟨hr, hu, ho⟩ hc hq (.inl rfl) ticks
  | alloc p np pr nextpid hc hk hun hst hp0 ht0 =>
    have hfresh : ∀ q, (s.kfork q).np ≠ some np := fun q h => by rw [hu q np h] at hun; cases hun
    refine ⟨fun q => ?_, fun q n h => ?_, fun q r n h h' => ?_⟩
    · by_cases hq : q = np
      · simp only [hq, upd_same, hst]
        refine ⟨(fun h => by cases h), fun h => ?_⟩
        rw [(hr np).mpr h] at hun; cases hun
      · simp only [upd_ne _ _ hq]; exact hr q
    · rcases np_upd h with ⟨-, h1⟩ | ⟨-, h1⟩
      · cases h1; simp [hst]
      · have : n ≠ np := fun e => hfresh q (e ▸ h1)
        simp only [upd_ne _ _ this]; exact hu q n h1
    · rcases np_upd h with ⟨hq, h1⟩ | ⟨-, h1⟩ <;> rcases np_upd h' with ⟨hr, h2⟩ | ⟨-, h2⟩
      · rw [hq, hr]
      · cases h1; exact absurd h2 (hfresh r)
      · cases h2; exact absurd h1 (hfresh q)
      · exact ho q r n h1 h2
  | parent p np t hc hk hq =>
    have hnp : (s.kfork p).np = some np := by rw [hk]; rfl
    have hold : ∀ {q n}, (upd s.kfork p (.parented np) q).np = some n → (s.kfork q).np = some n := by
      intro q n h
      rcases np_upd h with ⟨hq, h1⟩ | ⟨-, h1⟩
      · cases h1; rw [hq]; exact hnp
      · exact h1
    exact ⟨fun q => (settle_iff (hq q).1 (.inl rfl)).trans (hr q),
      fun q n h => (settle_iff (hq n).1 (.inr rfl)).mpr (hu q n (hold h)),
      fun q r n h h' => ho q r n (hold h) (hold h')⟩
  | publish p np hc hk =>
    have hnp : (s.kfork p).np = some np := by rw [hk]; rfl
    have hold : ∀ {q n}, (upd s.kfork p .no q).np = some n → q ≠ p ∧ (s.kfork q).np = some n := by
      intro q n h
      rcases np_upd h with ⟨-, h⟩ | h
      · cases h
      · exact h
    refine ⟨fun q => ?_, fun q n h => ?_, fun q r n h h' => ho q r n (hold h).2 (hold h').2⟩
    · by_cases hq : q = np
      · simp only [hq, upd_same]
        refine ⟨(fun h => by cases h), fun h => ?_⟩
        have h1 := hu p np hnp
        rw [(hr np).mpr h] at h1; cases h1
      · simp only [upd_ne _ _ hq]; exact hr q
    · obtain ⟨h1, h2⟩ := hold h
      have : n ≠ np := fun e => h1 (ho q p np (e ▸ h2) hnp)
      simp only [upd_ne _ _ this]; exact hu q n h2

theorem inv_boot : Inv boot := by
  have hk : ∀ p, (boot.kfork p).np = none := by decide +kernel
  have hr : ∀ p, (boot.proc p).state ≠ .running := by decide +kernel
  have hc : boot.cur = none := by decide +kernel
  refine ⟨fun p => ⟨fun h => absurd h (hr p), fun h => ?_⟩, fun p np h => ?_, fun p q np h => ?_⟩
  · rw [hc] at h; cases h
  · rw [hk] at h; cases h
  · rw [hk] at h; cases h

theorem inv_run (es : List Ev) : Inv (run step boot es) :=
  run_keeps (fun s e h => inv_move h (step_move s e)) es inv_boot

/-! ## Equal priorities -/

/-- Two processes RUNNABLE or RUNNING, both at priority `pr`. -/
def Peers (pr : Int) (p q : Slot) (s : St) : Prop :=
  ((s.proc p).state = .runnable ∨ (s.proc p).state = .running) ∧
  ((s.proc q).state = .runnable ∨ (s.proc q).state = .running) ∧
  (s.proc p).priority = pr ∧ (s.proc q).priority = pr

instance (pr : Int) (p q : Slot) : DecidablePred (Peers pr p q) := fun _ => inferInstanceAs (Decidable (_ ∧ _))

theorem peers_symm {pr : Int} {q : Slot} (h : Peers pr p q s) : Peers pr q p s := ⟨h.2.1, h.1, h.2.2.2, h.2.2.1⟩

/-- With a peer about, only the lower slot is dispatched. -/
theorem dispatch_lower {pr : Int} {q : Slot} {e : Ev} (hi : Inv s) (hp : Peers pr p q s)
    (hd : dispatch s e = some p) : p ≤ q := by
  unfold dispatch at hd
  split at hd
  · rename_i h
    obtain ⟨-, hq, h1, h2⟩ := hp
    -- no process runs during the scan
    have hrun : (s.proc q).state = .runnable :=
      hq.resolve_right fun hr => by rw [(hi.running q).mp hr] at h; cases h.2.2
    exact (scan_least hd).2 q hrun (h2.trans h1.symm)
  · cases hd

/-- Two processes that stay at one priority never take turns: if one is dispatched twice,
    the other is not dispatched in between. -/
theorem no_turns (es₀ es : List Ev) (pr : Int) (p q : Slot) (hpq : p ≠ q)
    (hs : Always step (Peers pr p q) (run step boot es₀) es) (a b c : List Slot)
    (hd : outs step dispatch (run step boot es₀) es = a ++ p :: b ++ p :: c) : q ∉ b := by
  intro hq
  have hlow : ∀ r ∈ outs step dispatch (run step boot es₀) es, (r = p → p ≤ q) ∧ (r = q → q ≤ p) :=
    outs_mem (fun s e h => inv_move h (step_move s e))
      (fun s e r hi hp hr => ⟨fun e => dispatch_lower hi hp (e ▸ hr),
        fun e => dispatch_lower hi (peers_symm hp) (e ▸ hr)⟩)
      es (inv_run es₀) hs
  rw [hd] at hlow
  have h1 := (hlow p (by simp)).1 rfl
  have h2 := (hlow q (by simp [hq])).2 rfl
  exact hpq (le_antisymm h1 h2)

/-- Init forks; parent and child stay at priority 0. -/
def forked : List Ev := [.scheduler, .kforkAlloc true, .kforkParent, .kforkRunnable]

/-- Two timer interrupts in user mode, each followed by a turn of the scheduler. -/
def twoTicks : List Ev := [.timer true, .scheduler, .timer true, .scheduler]

theorem no_turns_forked :
    Always step (Peers 0 ⟨0, by decide⟩ ⟨1, by decide⟩) (run step boot forked) twoTicks ∧
    outs step dispatch (run step boot forked) twoTicks = [⟨0, by decide⟩, ⟨0, by decide⟩] ∧
    (⟨1, by decide⟩ : Slot) ∉ ([] : List Slot) :=
  have hs : Always step (Peers 0 ⟨0, by decide⟩ ⟨1, by decide⟩) (run step boot forked) twoTicks := by decide +kernel
  have hd : outs step dispatch (run step boot forked) twoTicks = [⟨0, by decide⟩, ⟨0, by decide⟩] := by decide +kernel
  ⟨hs, hd, no_turns forked twoTicks 0 _ _ (by decide) hs [] [] [] hd⟩

/-- The parent yields on every timer interrupt and is dispatched again each time; the
    child, RUNNABLE at the same priority throughout, is not dispatched in between. -/
theorem parent_starves_child :
    Always step (Peers 0 ⟨0, by decide⟩ ⟨1, by decide⟩) (run step boot forked) twoTicks ∧
    ¬ ∀ a b c, outs step dispatch (run step boot forked) twoTicks = a ++ ⟨0, by decide⟩ :: b ++ ⟨0, by decide⟩ :: c →
      (⟨1, by decide⟩ : Slot) ∈ b :=
  ⟨by decide +kernel, fun h => nomatch h [] [] [] (by decide +kernel)⟩

end Xv6.Sched
