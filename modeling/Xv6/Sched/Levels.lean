/-
  Xv6.Sched.Levels — what a step of a hart does to the MLFQ level of a process, that is its
  priority and its `ticks_used` (`kernel/trap.c`: `usertrap`, `kerneltrap`, `clockintr`;
  `kernel/proc.c`: `allocproc`).

  A relation between the old and the new entry of a slot that every kind of write keeps is
  kept by every step (`each_step`). The level changes only where `allocproc` resets it and
  where a timer interrupt in user mode charges it (`level_stepOn`); after `n` charges it is
  `levelAfter n`.
-/

import Xv6.Sched.Slots

namespace Xv6.Sched

open Lib

/-! ## A step of a hart -/

/-- `clockintr` on hart 0, which counts `ticks`, or on another. -/
def clockintrOn (clock : Bool) (s : St) : St := if clock then clockintr s else s

/-- `usertrap` for a timer interrupt. -/
def usertrapOn (clock : Bool) (s : St) (p : Slot) : St :=
  let s := clockintrOn clock s
  if (s.proc p).killed then s
  else if (s.proc p).state = .running then yield { s with proc := upd s.proc p (charge (s.proc p)) } p
  else yield s p

/-- `kerneltrap` for a timer interrupt. -/
def kerneltrapOn (clock : Bool) (s : St) : St :=
  match (clockintrOn clock s).cur with
  | some p => yield (clockintrOn clock s) p
  | none => clockintrOn clock s

/-- A step of hart 0 (`clock`) or of another hart. -/
def stepOn (clock : Bool) (s : St) : Ev → St
  | .timer true =>
    match s.caller with
    | some p => usertrapOn clock s p
    | none => s
  | .timer false => if s.panicked then s else kerneltrapOn clock s
  | e => step s e

/-! ## Which step changes a level -/

def Proc.level (p : Proc) : Int × Int := (p.priority, p.ticksUsed)

/-- `allocproc` takes slot `q`. -/
def Allocates (s : St) (e : Ev) (q : Slot) : Prop :=
  (∃ ok, e = .kforkAlloc ok) ∧ s.caller.isSome ∧ findSlot s.proc (·.state = .unused) = some q

def Receives (s : St) (e : Ev) (q : Slot) : Prop := e = .timer true ∧ s.caller = some q

/-- A timer interrupt is taken while `q` is `c->proc` and RUNNING. -/
def Takes (s : St) (e : Ev) (q : Slot) : Prop :=
  (Receives s e q ∨ (e = .timer false ∧ s.panicked = false ∧ s.cur = some q)) ∧ (s.proc q).state = .running

/-- `p->ticks_used++` is run for process `q`. -/
def Charges (s : St) (e : Ev) (q : Slot) : Prop :=
  Receives s e q ∧ (s.proc q).killed = false ∧ (s.proc q).state = .running

instance (s : St) (e : Ev) (q : Slot) : Decidable (Allocates s e q) :=
  match e with
  | .kforkAlloc ok =>
    decidable_of_iff (s.caller.isSome ∧ findSlot s.proc (·.state = .unused) = some q)
      ⟨fun h => ⟨⟨ok, rfl⟩, h⟩, fun h => h.2⟩
  | .scheduler | .timer _ | .devintr _ | .sleep _ | .wakeup _ | .kforkParent | .kforkRunnable | .kexit _ | .kwait _
  | .kkill _ | .setkilled => isFalse fun ⟨⟨_, h⟩, _⟩ => Ev.noConfusion h

instance (s : St) (e : Ev) (q : Slot) : Decidable (Receives s e q) := inferInstanceAs (Decidable (_ ∧ _))

instance (s : St) (e : Ev) (q : Slot) : Decidable (Takes s e q) := inferInstanceAs (Decidable (_ ∧ _))

instance (s : St) (e : Ev) (q : Slot) : Decidable (Charges s e q) := inferInstanceAs (Decidable (_ ∧ _))

/-! ## What a step does to one slot -/

def Each (R : Proc → Proc → Prop) (t t' : Slot → Proc) : Prop := ∀ q, R (t q) (t' q)

structure Slotwise (R : Proc → Proc → Prop) : Prop where
  refl : ∀ p, R p p
  trans : ∀ p q r, R p q → R q r → R p r
  runnable : ∀ p, R p { p with state := .runnable }
  running : ∀ p, R p { p with state := .running, chan := none }
  sleeping : ∀ p c, R p { p with chan := some c, state := .sleeping }
  zombie : ∀ p status, R p { p with xstate := status, state := .zombie }
  parent : ∀ p q, R p { p with parent := some q }

/-- The slot that `allocproc` takes. -/
def Proc.alloced (p : Proc) (pid : Int) : Proc := { p with pid := pid, state := .used, priority := 0, ticksUsed := 0 }

/-- The writes of one kind of step only keep the relation as well. -/
def Fits (R : Proc → Proc → Prop) : Ev → Prop
  | .kkill _ | .setkilled => ∀ p, R p { p with killed := true }
  | .kwait _ => ∀ p, R p (freeproc p)
  | .kforkAlloc true => ∀ p pid, R p (p.alloced pid)
  | .kforkAlloc false => ∀ p pid, R p (freeproc (p.alloced pid))
  | .timer true => ∀ p, R p (charge p)
  | _ => True

section
variable {R : Proc → Proc → Prop} (hR : Slotwise R)
include hR

theorem each_refl (t : Slot → Proc) : Each R t t := fun q => hR.refl (t q)

theorem each_trans {t u v : Slot → Proc} (h : Each R t u) (h' : Each R u v) : Each R t v :=
  fun q => hR.trans _ _ _ (h q) (h' q)

theorem each_upd (t : Slot → Proc) (q : Slot) {p : Proc} (h : R (t q) p) : Each R t (upd t q p) := by
  intro r
  by_cases e : r = q
  · rw [e, upd_same]; exact h
  · rw [upd_ne _ _ e]; exact hR.refl _

theorem each_wakeup (t : Slot → Proc) (me : Option Slot) (c : Chan) : Each R t (wakeup t me c) := by
  intro q
  unfold wakeup
  split
  · exact hR.runnable _
  · exact hR.refl _

theorem each_reparent (s : St) (p : Slot) : Each R s.proc (reparent s p) := by
  suffices h : ∀ (l : List Slot) (t : Slot → Proc), Each R s.proc t → Each R s.proc (l.foldl _ t) from
    h _ _ (each_refl hR _)
  intro l
  induction l with
  | nil => intro t h; exact h
  | cons pp l ih =>
    intro t h
    refine ih _ ?_
    dsimp only
    split
    · have h1 := each_upd hR t pp (hR.parent (t pp) s.initproc)
      exact each_trans hR h (each_trans hR h1 (each_wakeup hR _ _ _))
    · exact h

theorem each_bereave (s : St) (p : Slot) : Each R s.proc (bereave s p) := by
  unfold bereave
  split
  · exact each_trans hR (each_reparent hR s p) (each_wakeup hR _ _ _)
  · exact each_reparent hR s p

theorem each_kexit (s : St) (p : Slot) (status : Int) : Each R s.proc (kexit s p status).proc := by
  unfold kexit
  split
  · exact each_refl hR _
  · exact each_trans hR (each_bereave hR s p) (each_upd hR _ p (hR.zombie _ _))

theorem each_sleep (s : St) (p : Slot) (c : Chan) : Each R s.proc (sleep s p c).proc :=
  each_upd hR _ p (hR.sleeping _ _)

theorem each_kwait (hf : ∀ p, R p (freeproc p)) (s : St) (p : Slot) (ok : Bool) :
    Each R s.proc (kwait s p ok).proc := by
  unfold kwait
  split
  · split
    · exact each_upd hR _ _ (hf _)
    · exact each_refl hR _
  · split
    · exact each_refl hR _
    · exact each_sleep hR s p _

theorem each_kkill (hk : ∀ p, R p { p with killed := true }) (s : St) (pid : Int) :
    Each R s.proc (kkill s pid).proc := by
  unfold kkill
  split
  · exact each_refl hR _
  · refine each_upd hR _ _ ?_
    split
    · exact hR.trans _ _ _ (hk _) (hR.runnable _)
    · exact hk _

theorem each_alloc (s : St) (p : Slot) (ok : Bool) (hf : Fits R (.kforkAlloc ok)) :
    Each R s.proc (call s p (.kforkAlloc ok)).proc := by
  unfold call allocproc
  cases findSlot s.proc (·.state = .unused) with
  | none => exact each_refl hR _
  | some np =>
    cases ok with
    | true | false => exact each_upd hR _ np (hf _ _)

theorem each_finishFork (s : St) (p : Slot) (e : Ev) (k : Kfork) : Each R s.proc (finishFork s p e k).proc := by
  unfold finishFork
  split
  · exact each_upd hR _ _ (hR.parent _ _)
  · exact each_upd hR _ _ (hR.runnable _)
  · exact each_refl hR _

theorem each_clockintrOn (clock : Bool) (s : St) : Each R s.proc (clockintrOn clock s).proc := by
  unfold clockintrOn
  split
  · exact each_wakeup hR _ _ _
  · exact each_refl hR _

theorem each_yield (s : St) (p : Slot) : Each R s.proc (yield s p).proc := each_upd hR _ p (hR.runnable _)

theorem each_kerneltrapOn (clock : Bool) (s : St) : Each R s.proc (kerneltrapOn clock s).proc := by
  unfold kerneltrapOn
  split
  · exact each_trans hR (each_clockintrOn hR clock s) (each_yield hR _ _)
  · exact each_clockintrOn hR clock s

theorem each_usertrapOn (hc : ∀ p, R p (charge p)) (clock : Bool) (s : St) (p : Slot) :
    Each R s.proc (usertrapOn clock s p).proc := by
  have hl := each_clockintrOn hR clock s
  unfold usertrapOn
  dsimp only
  split
  · exact hl
  · split
    · refine each_trans hR (each_trans hR hl (each_upd hR _ p (hc _))) ?_
      exact each_upd hR _ p (hR.runnable _)
    · exact each_trans hR hl (each_yield hR _ p)

theorem each_call (s : St) (p : Slot) {e : Ev} (hf : Fits R e) : Each R s.proc (call s p e).proc := by
  cases e with
  | sleep c => exact each_sleep hR s p c
  | wakeup c => exact each_wakeup hR _ _ _
  | kforkAlloc ok => exact each_alloc hR s p ok hf
  | kexit status => exact each_kexit hR s p status
  | kwait ok => exact each_kwait hR hf s p ok
  | kkill pid => exact each_kkill hR hf s pid
  | setkilled => exact each_upd hR _ p (hf _)
  | timer user =>
    cases user with
    | true => exact each_usertrapOn hR hf true s p
    | false => exact each_refl hR _
  | _ => exact each_refl hR _

theorem each_step (s : St) {e : Ev} (hf : Fits R e) : Each R s.proc (step s e).proc := by
  unfold step
  split
  · exact each_refl hR _
  unfold raw
  split
  · exact each_kerneltrapOn hR true s
  · exact each_wakeup hR _ _ _
  · split
    · exact each_upd hR _ _ (hR.running _)
    · exact each_refl hR _
  · exact each_refl hR _
  · split
    · exact each_call hR s _ hf
    · exact each_finishFork hR s _ _ _

end

theorem slotwise_level : Slotwise fun p p' => p'.level = p.level :=
  ⟨fun _ => rfl, fun _ _ _ h h' => h'.trans h, fun _ => rfl, fun _ => rfl, fun _ _ => rfl,
    fun _ _ => rfl, fun _ _ => rfl⟩

/-- What `usertrap` does to the levels. -/
theorem level_usertrapOn (clock : Bool) (s : St) (p q : Slot) :
    ((usertrapOn clock s p).proc q).level =
      if q = p ∧ (s.proc p).killed = false ∧ (s.proc p).state = .running then (charge (s.proc q)).level
      else (s.proc q).level := by
  have hl := each_clockintrOn slotwise_level clock s
  -- `clockintr` wakes sleeping processes only
  have hp : ((clockintrOn clock s).proc p).killed = (s.proc p).killed ∧
      (((clockintrOn clock s).proc p).state = .running ↔ (s.proc p).state = .running) := by
    unfold clockintrOn
    split
    · show (wakeup s.proc s.cur .ticks p).killed = _ ∧ ((wakeup s.proc s.cur .ticks p).state = _ ↔ _)
      unfold wakeup
      split
      · rename_i h; rw [h.2.1]; simp
      · exact ⟨rfl, .rfl⟩
    · exact ⟨rfl, .rfl⟩
  have hcharge : ∀ a b : Proc, a.level = b.level → (charge a).level = (charge b).level := by
    intro a b h
    have h1 : a.priority = b.priority := congrArg Prod.fst h
    have h2 : a.ticksUsed = b.ticksUsed := congrArg Prod.snd h
    unfold charge Proc.level
    dsimp only
    rw [h1, h2]
    split
    · rfl
    · split <;> rfl
  unfold usertrapOn
  dsimp only
  rw [hp.1]
  by_cases hk : (s.proc p).killed = true
  · rw [if_pos hk, if_neg (by rw [hk]; intro h; cases h.2.1)]
    exact hl q
  rw [if_neg hk]
  by_cases hr : (s.proc p).state = .running
  · rw [if_pos (hp.2.mpr hr)]
    by_cases hq : q = p
    · rw [if_pos ⟨hq, by simpa using hk, hr⟩, hq]
      refine (each_yield slotwise_level _ p p).trans ?_
      show Proc.level (upd _ p _ p) = _
      rw [upd_same]
      exact hcharge _ _ (hl p)
    · rw [if_neg fun h => hq h.1]
      refine (each_yield slotwise_level _ p q).trans ?_
      show Proc.level (upd _ p _ q) = _
      rw [upd_ne _ _ hq]
      exact hl q
  · rw [if_neg fun h => hr (hp.2.mp h), if_neg fun h => hr h.2.2]
    exact (each_yield slotwise_level _ p q).trans (hl q)

theorem level_alloc (s : St) (p q : Slot) (ok : Bool) (hf : findSlot s.proc (·.state = .unused) = some q) (r : Slot) :
    ((call s p (.kforkAlloc ok)).proc r).level = if r = q then (0, 0) else (s.proc r).level := by
  unfold call allocproc
  rw [hf]
  by_cases hr : r = q
  · rw [if_pos hr, hr]
    cases ok with
    | true | false => show Proc.level (upd _ q _ q) = _; rw [upd_same]; rfl
  · rw [if_neg hr]
    cases ok with
    | true | false => show Proc.level (upd _ q _ r) = _; rw [upd_ne _ _ hr]

/-- The calls of a process that only `call` answers. -/
def Ev.called : Ev → Bool
  | .timer true | .kforkAlloc _ | .kwait _ => true
  | _ => false

variable {s : St} {e : Ev}

theorem step_no_caller (hc : s.caller = none) (he : e.called = true) : step s e = s := by
  unfold step
  by_cases hp : s.panicked = true
  · rw [if_pos hp]
  rw [if_neg hp]
  unfold raw
  cases hcur : s.cur with
  | none =>
    unfold Ev.called at he
    split at he
    · rfl
    · rfl
    · rfl
    · cases he
  | some p =>
    have hk : s.kfork p ≠ .no := by
      intro hk
      rw [caller_of hp hcur hk] at hc
      cases hc
    unfold Ev.called at he
    split at he
    · exact if_neg hk
    · exact if_neg hk
    · exact if_neg hk
    · cases he

/-- On hart 0 this is the machine of one hart. -/
theorem stepOn_clock (s : St) (e : Ev) : stepOn true s e = step s e := by
  cases e with
  | timer user =>
    cases user with
    | true =>
      unfold stepOn
      cases hc : s.caller with
      | some p => rw [step_caller hc (.timer true) (by decide) fun _ => Ev.noConfusion]; rfl
      | none => rw [step_no_caller hc rfl]
    | false => rfl
  | _ => rfl

/-- A process's level changes when its slot is allocated and when it is charged. -/
theorem level_stepOn (clock : Bool) (s : St) (e : Ev) (q : Slot) :
    ((stepOn clock s e).proc q).level =
      if Allocates s e q then (0, 0) else if Charges s e q then (charge (s.proc q)).level else (s.proc q).level := by
  by_cases ht : e = .timer true
  · subst ht
    have ha : ¬ Allocates s (.timer true) q := fun ⟨⟨_, h⟩, _⟩ => Ev.noConfusion h
    rw [if_neg ha]
    unfold stepOn
    cases hc : s.caller with
    | none =>
      have hn : ¬ Charges s (.timer true) q := by
        intro h
        have h1 := h.1.2
        rw [hc] at h1
        cases h1
      rw [if_neg hn]
    | some p =>
      show ((usertrapOn clock s p).proc q).level = _
      rw [level_usertrapOn]
      have hiff : (q = p ∧ (s.proc p).killed = false ∧ (s.proc p).state = .running) ↔ Charges s (.timer true) q := by
        constructor
        · intro ⟨h1, h2⟩; subst h1; exact ⟨⟨rfl, hc⟩, h2⟩
        · intro ⟨⟨_, h1⟩, h2⟩; rw [hc] at h1; cases h1; exact ⟨rfl, h2⟩
      by_cases h : Charges s (.timer true) q
      · rw [if_pos (hiff.mpr h), if_pos h]
      · rw [if_neg fun h' => h (hiff.mp h'), if_neg h]
  have hn : ¬ Charges s e q := fun h => ht h.1.1
  rw [if_neg hn]
  by_cases ha : ∃ ok, e = .kforkAlloc ok
  · obtain ⟨ok, rfl⟩ := ha
    show ((step s (.kforkAlloc ok)).proc q).level = _
    cases hc : s.caller with
    | none =>
      have hno : ¬ Allocates s (.kforkAlloc ok) q := by
        intro h
        have h1 := h.2.1
        rw [hc] at h1
        cases h1
      rw [if_neg hno, step_no_caller hc rfl]
    | some p =>
      rw [step_caller hc _ Ev.noConfusion fun _ => Ev.noConfusion]
      cases hf : findSlot s.proc (·.state = .unused) with
      | none =>
        have hno : ¬ Allocates s (.kforkAlloc ok) q := by
          intro h
          have h1 := h.2.2
          rw [hf] at h1
          cases h1
        rw [if_neg hno]
        unfold call allocproc
        rw [hf]
      | some np =>
        rw [level_alloc s p np ok hf q]
        have hiff : q = np ↔ Allocates s (.kforkAlloc ok) q := by
          constructor
          · intro h; subst h; exact ⟨⟨ok, rfl⟩, by rw [hc]; rfl, hf⟩
          · intro h
            have h1 := h.2.2
            rw [hf] at h1
            cases h1
            rfl
        by_cases h : q = np
        · rw [if_pos h, if_pos (hiff.mp h)]
        · rw [if_neg h, if_neg fun h' => h (hiff.mpr h')]
  · cases e with
    | timer user =>
      cases user with
      | true => exact absurd rfl ht
      | false =>
        show Proc.level ((if s.panicked then s else kerneltrapOn clock s).proc q) = _
        split
        · rfl
        · exact each_kerneltrapOn slotwise_level clock s q
    | kforkAlloc ok => exact absurd ⟨ok, rfl⟩ ha
    | kkill pid => exact each_step slotwise_level s (e := .kkill pid) (fun _ => rfl) q
    | setkilled => exact each_step slotwise_level s (e := .setkilled) (fun _ => rfl) q
    | kwait ok => exact each_step slotwise_level s (e := .kwait ok) (fun _ => rfl) q
    | scheduler => exact each_step slotwise_level s (e := .scheduler) trivial q
    | devintr c => exact each_step slotwise_level s (e := .devintr c) trivial q
    | sleep c => exact each_step slotwise_level s (e := .sleep c) trivial q
    | wakeup c => exact each_step slotwise_level s (e := .wakeup c) trivial q
    | kforkParent => exact each_step slotwise_level s (e := .kforkParent) trivial q
    | kforkRunnable => exact each_step slotwise_level s (e := .kforkRunnable) trivial q
    | kexit status => exact each_step slotwise_level s (e := .kexit status) trivial q

/-! ## The levels -/

/-- The priority and `ticks_used` after `n` charges. -/
def levelAfter (n : Nat) : Int × Int :=
  if n < 5 then (0, n) else if n < 15 then (1, n - 5) else (2, Int.bmod (n - 15) 4294967296)

theorem levelAfter_lt {n : Nat} (h : n < 2147483648) :
    levelAfter n = if n < 5 then (0, (n : Int)) else if n < 15 then (1, (n : Int) - 5) else (2, (n : Int) - 15) := by
  unfold levelAfter
  have hb : 15 ≤ n → Int.bmod (n - 15) 4294967296 = n - 15 := fun h15 => by
    rw [Int.bmod_eq_of_le] <;> omega
  split
  · rfl
  · split
    · rfl
    · rw [hb (by omega)]

theorem level_charge {p : Proc} {n : Nat} (h : p.level = levelAfter n) : (charge p).level = levelAfter (n + 1) := by
  have hp : p.priority = (levelAfter n).1 := congrArg Prod.fst h
  have ht : p.ticksUsed = (levelAfter n).2 := congrArg Prod.snd h
  unfold levelAfter at hp ht ⊢
  unfold charge incr Proc.level
  dsimp only
  by_cases h5 : n < 5
  · rw [if_pos h5] at hp ht
    have hb : Int.bmod ((n : Int) + 1) 4294967296 = n + 1 := by rw [Int.bmod_eq_of_le] <;> omega
    rw [hp, ht, hb]
    by_cases h4 : n + 1 < 5
    · rw [if_neg (by omega), if_pos h4]
      simp
    · have : n = 4 := by omega
      subst this
      rfl
  · rw [if_neg h5] at hp ht
    rw [if_neg (show ¬ n + 1 < 5 by omega)]
    by_cases h15 : n < 15
    · rw [if_pos h15] at hp ht
      have hb : Int.bmod ((n : Int) - 5 + 1) 4294967296 = n - 4 := by rw [Int.bmod_eq_of_le] <;> omega
      rw [hp, ht, hb, if_neg (by omega)]
      by_cases h14 : n + 1 < 15
      · rw [if_neg (by omega), if_pos h14]
        simp
        omega
      · have : n = 14 := by omega
        subst this
        rfl
    · rw [if_neg h15] at hp ht
      rw [hp, ht, if_neg (by omega), if_neg (by omega), if_neg (by omega), Int.bmod_add_bmod]
      have he : (n : Int) - 15 + 1 = ((n + 1 : Nat) : Int) - 15 := by omega
      rw [he]

theorem levelAfter_priority (n : Nat) : (levelAfter n).1 = 0 ∨ (levelAfter n).1 = 1 ∨ (levelAfter n).1 = 2 := by
  unfold levelAfter
  split
  · exact .inl rfl
  · split
    · exact .inr (.inl rfl)
    · exact .inr (.inr rfl)

theorem levelAfter_mono (n : Nat) : (levelAfter n).1 ≤ (levelAfter (n + 1)).1 := by
  unfold levelAfter
  split_ifs
  all_goals dsimp only
  all_goals omega

end Xv6.Sched
