/-
  Xv6.Smp.Wait — no wakeup is lost between `kexit` and `kwait`. While a process holds
  `wait_lock`, the place in its code says what it has found out about its children
  (`Knows`), and no other thread can make that untrue. A process that sleeps in `kwait`,
  or has let go of `wait_lock` to do so (`Drowsy`), has a child and no zombie among its
  children; the one exception lasts while a process in `reparent` is still calling init.
-/

import Xv6.Smp.Family

namespace Xv6.Smp

open Lib
open Sched (Slot Proc Chan ProcState freeproc incr charge)

/-! ## On the way to sleep -/

/-- A `sleep` of `kwait`, before `sched`. -/
def Op.isDoze : Op → Bool
  | .doze _ c => Chan.isProc c
  | _ => false

def Dozes : Code → Prop
  | [] => False
  | .op i :: k => i.isDoze = true ∨ Dozes k
  | .acquire _ :: k | .release _ :: k => Dozes k

/-- Only what leads up to it stands above such a `sleep`: the process has `wait_lock` still, or its own lock already. -/
def Placed : Code → Prop
  | [] => True
  | .acquire l :: k => (Dozes k → l ≠ .wait ∧ .wait ∈ held Op.holds k) ∧ Placed k
  | .release l :: k => (Dozes k → l = .wait) ∧ Placed k
  | .op i :: k => (i ≠ .panic → ¬Dozes k) ∧ Placed k

section Placed

variable {k k' : Code} {i : Op} {p q : Slot}

theorem dozes_append : Dozes (k ++ k') ↔ Dozes k ∨ Dozes k' := by
  induction k with
  | nil => exact ⟨.inr, fun e => e.resolve_left id⟩
  | cons c k ih =>
    cases c with
    | acquire l | release l => exact ih
    | op i => exact (or_congr_right ih).trans (or_assoc (a := i.isDoze = true)).symm

theorem dozes_mem : Dozes k ↔ ∃ i, .op i ∈ k ∧ i.isDoze = true := by
  induction k with
  | nil => exact ⟨False.elim, fun ⟨_, e, _⟩ => by cases e⟩
  | cons c k ih =>
    cases c with
    | acquire l | release l => simp [Dozes, ih]
    | op i =>
      simp only [Dozes, ih, List.mem_cons, Lib.Code.op.injEq]
      constructor
      · rintro (e | ⟨j, hj, e⟩)
        · exact ⟨i, .inl rfl, e⟩
        · exact ⟨j, .inr hj, e⟩
      · rintro ⟨j, rfl | hj, e⟩
        · exact .inl e
        · exact .inr ⟨j, hj, e⟩

theorem placed_of_not (h : ¬Dozes k) : Placed k := by
  induction k with
  | nil => trivial
  | cons c k ih =>
    cases c with
    | acquire l | release l => exact ⟨fun e => absurd e h, ih h⟩
    | op i =>
      have hk : ¬Dozes k := fun e => h (.inr e)
      exact ⟨fun _ => hk, ih hk⟩

theorem placed_tail {c : Lib.Code Lock Op} (h : Placed (c :: k)) : Placed k := by
  cases c with
  | acquire l | release l | op i => exact h.2

theorem placed_held {r : Slot} (h : Placed k) (hm : .op (.doze p (.proc r)) ∈ k) :
    .wait ∈ held Op.holds k ∨ .proc p ∈ held Op.holds k := by
  induction k with
  | nil => cases hm
  | cons c k ih =>
    cases c with
    | acquire l =>
      rcases List.mem_cons.mp hm with e | e
      · cases e
      · obtain ⟨hl, hw⟩ := h.1 (dozes_mem.mpr ⟨_, e, rfl⟩)
        exact .inl ((List.mem_erase_of_ne hl.symm).mpr hw)
    | release l =>
      rcases List.mem_cons.mp hm with e | e
      · cases e
      · exact (ih h.2 e).imp (List.mem_cons_of_mem _) (List.mem_cons_of_mem _)
    | op i =>
      rcases List.mem_cons.mp hm with e | e
      · cases e
        exact .inr (.head _)
      · exact (ih h.2 e).imp (List.mem_append_right _) (List.mem_append_right _)

/-- Code that does not count on `wait_lock` is calm. -/
theorem wf_calm {o : Option Slot} (hw : Wf o k) (hk : .wait ∉ held Op.holds k) : Calm k := by
  induction k with
  | nil => trivial
  | cons c k ih =>
    have htail := wf_tail hw
    cases c with
    | acquire l =>
      by_cases e : l = .wait
      · exact hw.2.1 e
      · exact ih htail fun hm => hk ((List.mem_erase_of_ne fun e' => e e'.symm).mpr hm)
    | release l => exact ih htail fun hm => hk (.tail _ hm)
    | op i =>
      have hi : .wait ∉ i.holds := fun hm => hk (List.mem_append_left _ hm)
      have hk' : .wait ∉ held Op.holds k := fun hm => hk (List.mem_append_right _ hm)
      refine ⟨?_, ih htail hk'⟩
      have ha := hw.2.1
      cases i with
      | exitLast | die | kwaitTest | kwaitKilled | kwaitScan | reparent => simp [Op.holds] at hi
      | sleep c l =>
        cases hc : Chan.isProc c with
        | true => exact absurd ((ha.2.1 hc).1 ▸ ha.1) hk'
        | false => simp [Op.isCalm, hc]
      | wakeup c todo | wake c _ todo =>
        rcases c with _ | c
        · rfl
        · cases hc : Chan.isProc c with
          | true => exact absurd (ha hc).2 hk'
          | false => simp [Op.isCalm, hc]
      | _ => rfl

theorem calm_mem (hk : Calm k) (hi : .op i ∈ k) : i.isCalm = true := by
  induction k with
  | nil => cases hi
  | cons c k ih =>
    rcases List.mem_cons.mp hi with e | e
    · subst e
      exact hk.1
    · cases c with
      | acquire l | release l => exact ih hk e
      | op j => exact ih hk.2 e

end Placed

/-! ## What a process has found out -/

section Knows

variable {H : Type}

/-- The process sleeps in `kwait`, or nothing but its own lock is between it and that. -/
def Drowsy (s : St H) (r : Slot) : Prop :=
  (s.proc r).state = .sleeping ∧ (s.proc r).chan = some (.proc r) ∨ .op (.doze r (.proc r)) ∈ s.kstack r

def HasKid (s : St H) (p : Slot) : Prop := ∃ c, (s.proc c).parent = some p

/-- No child outside `todo` is a zombie. -/
def NoZombie (s : St H) (p : Slot) (todo : List Slot) : Prop :=
  ∀ c, c ∉ todo → (s.proc c).parent = some p → (s.proc c).state ≠ .zombie

/-- The `wakeup` has slot `r` still to visit. -/
def Op.calls (r : Slot) : Op → Prop
  | .wakeup c todo => c = some (.proc r) ∧ r ∈ todo
  | .wake c q todo => c = some (.proc r) ∧ r ∈ q :: todo
  | _ => False

/-- Process `p` is calling `r` in `kexit`. -/
def Calling (s : St H) (p r : Slot) : Prop := ∃ i, .op i ∈ s.kstack p ∧ i.calls r

/-- What process `p` knows about its family when it has come to an operation. -/
def Op.Knows (s : St H) (p : Slot) : Op → Prop
  | .kwaitScan havekids todo => (havekids = true → HasKid s p) ∧ NoZombie s p todo
  | .kwaitTest q todo => (s.proc q).parent = some p ∧ NoZombie s p (q :: todo)
  | .kwaitKilled _ => HasKid s p ∧ NoZombie s p []
  | .sleep c _ => c = .proc p → HasKid s p ∧ NoZombie s p []
  | .exitLast _ => ∀ r, (s.proc p).parent = some r → Drowsy s r → Calling s p r
  | .die _ _ => ∀ r, (s.proc p).parent = some r → ¬Drowsy s r
  | _ => True

structure Wait (s : St H) : Prop where
  placed : ∀ p, Placed (s.kstack p)
  knows : ∀ p i, .op i ∈ s.kstack p → i.Knows s p
  drowsy : ∀ r, Drowsy s r → HasKid s r ∧
    ∀ c, (s.proc c).parent = some r → (s.proc c).state = .zombie → r = s.initproc ∧ ∃ p, Calling s p r

variable {s s' : St H} {h h' : H} {p q r : Slot} {k k' : Code} {i j : Op} {ok : Bool}

theorem calm_knows (hi : i.isCalm = true) : i.Knows s p := by
  cases i with
  | kwaitScan b todo =>
    simp [Op.isCalm] at hi
    rw [hi.1, hi.2]
    exact ⟨(fun e => by cases e), fun c hc => absurd (mem_all c) hc⟩
  | sleep c l =>
    intro e
    rw [e] at hi
    cases hi
  | exitLast | die | kwaitTest | kwaitKilled => cases hi
  | _ => trivial

theorem calls_calm (hi : i.calls r) : i.isCalm = false := by
  cases i with
  | wakeup c todo | wake c q todo =>
    rw [hi.1]
    rfl
  | _ => exact hi.elim

/-- What a process knows stays true while the children and zombies are the same, nobody else
    gets drowsy, and the process
    goes on calling who is drowsy. -/
theorem knows_mono (hp : ∀ c, (s'.proc c).parent = (s.proc c).parent)
    (hz : ∀ c, (s'.proc c).state = .zombie → (s.proc c).state = .zombie) (hd : ∀ r, Drowsy s' r → Drowsy s r)
    (hcall : ∀ r, Drowsy s' r → Calling s p r → Calling s' p r) (hi : i.Knows s p) : i.Knows s' p := by
  have hkid : HasKid s p → HasKid s' p := fun ⟨c, e⟩ => ⟨c, (hp c).trans e⟩
  have hno (todo : List Slot) (hn : NoZombie s p todo) : NoZombie s' p todo :=
    fun c hc e ez => hn c hc ((hp c).symm.trans e) (hz c ez)
  cases i with
  | kwaitScan b todo => exact ⟨fun e => hkid (hi.1 e), hno _ hi.2⟩
  | kwaitTest q todo => exact ⟨(hp q).trans hi.1, hno _ hi.2⟩
  | kwaitKilled q => exact ⟨hkid hi.1, hno _ hi.2⟩
  | sleep c l => exact fun e => ⟨hkid (hi e).1, hno _ (hi e).2⟩
  | exitLast st => exact fun r e hr => hcall r hr (hi r ((hp p).symm.trans e) (hd r hr))
  | die q st => exact fun r e hr => hi r ((hp p).symm.trans e) (hd r hr)
  | _ => trivial

/-- A step that leaves children and zombies alone, makes nobody drowsy and ends no call for one who is. -/
theorem wait_mono (hW : Wait s) (hi : s'.initproc = s.initproc) (hp : ∀ c, (s'.proc c).parent = (s.proc c).parent)
    (hz : ∀ c, (s'.proc c).state = .zombie → (s.proc c).state = .zombie) (hd : ∀ r, Drowsy s' r → Drowsy s r)
    (hcall : ∀ p r, Drowsy s' r → Calling s p r → Calling s' p r) (hplaced : ∀ p, Placed (s'.kstack p))
    (hmem : ∀ p j, .op j ∈ s'.kstack p → .op j ∈ s.kstack p ∨ j.Knows s' p) : Wait s' := by
  refine ⟨hplaced, fun p j hj => ?_, fun r hr => ?_⟩
  · rcases hmem p j hj with e | e
    · exact knows_mono hp hz hd (hcall p) (hW.knows p j e)
    · exact e
  · obtain ⟨⟨c, hc⟩, hno⟩ := hW.drowsy r (hd r hr)
    refine ⟨⟨c, (hp c).trans hc⟩, fun c hc hz' => ?_⟩
    obtain ⟨e, p, hp'⟩ := hno c ((hp c).symm.trans hc) (hz c hz')
    exact ⟨e.trans hi.symm, p, hcall p r hr hp'⟩

theorem call_dozes {locks : List Nat} {status : Option Int} (c : Call) (hc : s.code h = .op (.body locks status) :: k) :
    ¬Dozes (call p locks status c) := by
  rw [dozes_mem]
  rintro ⟨i, hi, e⟩
  have hb := call_begins c hc hi
  cases i with
  | doze q c => exact hb.doze q c rfl
  | _ => cases e

theorem next_placed (hI : Inv s) (hn : Next s h k') (hp : Placed (s.code h)) : Placed k' := by
  cases hn with
  | stay => exact hp
  | pop c k code =>
    rw [code] at hp
    exact placed_tail hp
  | panic => exact ⟨fun e => absurd rfl e, hp⟩
  | call p locks status c k code =>
    rw [code] at hp
    refine placed_of_not fun e => ?_
    rcases dozes_append.mp e with e | e
    · exact call_dozes c code e
    · exact hp.1 Op.noConfusion e
  | interrupt new noff ops =>
    have hh : held Op.holds (s.code h) = [] := List.eq_nil_of_length_eq_zero ((hI.owns h).count.symm.trans noff)
    refine placed_of_not fun e => ?_
    rcases dozes_append.mp e with e | e
    · obtain ⟨j, hj, e⟩ := dozes_mem.mp e
      rcases ops j hj with rfl | ⟨c, _, rfl⟩ <;> cases e
    obtain ⟨j, hj, e⟩ := dozes_mem.mp e
    cases j with
    | doze q c =>
      cases c with
      | proc r =>
        rcases placed_held hp hj with e | e
        · rw [hh] at e
          cases e
        · rw [hh] at e
          cases e
      | _ => cases e
    | _ => cases e

theorem wait_shift (hI : Inv s) (hW : Wait s) (hs : Shift s s' h k') (hn : Next s h k') : Wait s' := by
  refine wait_mono hW hs.initproc (fun c => by rw [hs.proc]) (fun c e => by rw [hs.proc] at e; exact e) (fun r hr => ?_)
    (fun p r _ hr => ?_) (fun p => ?_) (fun p j hj => (shift_mem hs hn p j hj).imp_right fun e => calm_knows e.2.calm)
  · rcases hr with e | e
    · rw [hs.proc] at e
      exact .inl e
    · rcases shift_mem hs hn r _ e with e | ⟨_, e⟩
      · exact .inr e
      · exact absurd rfl (e.doze r (.proc r))
  · obtain ⟨i, hi, hc⟩ := hr
    refine ⟨i, ?_, hc⟩
    by_cases ho : (s.cpu h).on = some p
    · rw [hs.mine p ho]
      have hne : i ≠ .sched ∧ (∀ p, i ≠ .swtch p) ∧ ∀ ls st, i ≠ .body ls st := by
        cases i with
        | sched | swtch | body => exact hc.elim
        | _ => exact ⟨Op.noConfusion, (fun _ => Op.noConfusion), (fun _ _ => Op.noConfusion)⟩
      exact next_keeps hn (by rw [code_on ho]; exact hi) hne.1 hne.2.1 hne.2.2
    · rw [hs.other p ho]
      exact hi
  · by_cases ho : (s.cpu h).on = some p
    · rw [hs.mine p ho]
      exact next_placed hI hn (by rw [code_on ho]; exact hW.placed p)
    · rw [hs.other p ho]
      exact hW.placed p

end Knows

end Xv6.Smp
