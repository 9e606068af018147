/-
  Xv6.Smp.Moves — the two shapes of a step. Either the hart does an operation (`apply`),
  or it writes no process and only the code on its stack changes (`Shift`): a lock is
  taken or released, a `swtch` is made, a call or an interrupt begins.
-/

import Xv6.Smp.Steps

namespace Xv6.Smp

open Lib
open Sched (Slot Proc Chan ProcState freeproc incr charge)

section Moves

variable {H : Type} {s s' : St H} {h h' : H} {p q : Slot} {k k' : Code}

structure Shift (s s' : St H) (h : H) (k : Code) : Prop where
  proc : s'.proc = s.proc
  initproc : s'.initproc = s.initproc
  hist : s'.hist = s.hist
  nextpid : s'.nextpid = s.nextpid
  mine : ∀ p, (s.cpu h).on = some p → s'.kstack p = k
  other : ∀ p, (s.cpu h).on ≠ some p → s'.kstack p = s.kstack p

theorem shift_refl (s : St H) (h : H) : Shift s s h (s.code h) :=
  ⟨rfl, rfl, rfl, rfl, fun _ ho => (code_on ho).symm, fun _ _ => rfl⟩

variable [DecidableEq H]

inductive Next (s : St H) (h : H) : Code → Prop
  | stay : Next s h (s.code h)
  | pop (c : Lib.Code Lock Op) (k : Code) (code : s.code h = c :: k)
      (op : ∀ i, c = .op i → i = .sched ∨ ∃ p, i = .swtch p) : Next s h k
  | panic : Next s h (.op .panic :: s.code h)
  | call (p : Slot) (locks : List Nat) (status : Option Int) (c : Call) (k : Code)
      (code : s.code h = .op (.body locks status) :: k) : Next s h (call p locks status c ++ k)
  | interrupt (new : Code) (noff : (s.cpu h).noff = 0)
      (ops : ∀ j, .op j ∈ new → j = .yield ∨ ∃ c, Chan.isProc c = false ∧ j = .wakeup (some c) all) :
      Next s h (new ++ s.code h)

theorem shift_goto (s : St H) (h : H) (k : Code) : Shift s (s.goto h k) h k := by
  refine ⟨goto_proc, goto_initproc, goto_hist, goto_nextpid, fun p ho => ?_, fun p => goto_kstack⟩
  rw [goto_on ho]
  exact upd_same _ _ _

theorem shift_lock (s : St H) (h : H) (k : Code) (lock : Lock → Option H) (n : Nat) :
    Shift s ({ s with lock := lock, cpu := upd s.cpu h { s.cpu h with noff := n } }.goto h k) h k := by
  generalize hs : { s with lock := lock, cpu := upd s.cpu h { s.cpu h with noff := n } } = s1
  have hon : (s1.cpu h).on = (s.cpu h).on := by
    rw [← hs]
    dsimp only
    rw [upd_same]
  obtain ⟨hp, hi, hh, hx, hm, ho⟩ := shift_goto s1 h k
  refine ⟨hp.trans (by rw [← hs]), hi.trans (by rw [← hs]), hh.trans (by rw [← hs]), hx.trans (by rw [← hs]),
    fun p e => hm p (hon.trans e),
    fun p e => (ho p (hon ▸ e)).trans (by rw [← hs])⟩

theorem step_next (s : St H) (h : H) (ok : Bool) :
    (∃ k', Shift s (step s (h, .next ok)) h k' ∧ Next s h k') ∨
      ∃ i k, s.code h = .op i :: k ∧ i ≠ .sched ∧ (∀ p, i ≠ .swtch p) ∧
        step s (h, .next ok) = s.apply h (effect s (s.cpu h).proc ok i) k := by
  have hpanic : ∃ k', Shift s (s.panic h) h k' ∧ Next s h k' := ⟨_, shift_goto s h _, .panic⟩
  have hstay : ∃ k', Shift s s h k' ∧ Next s h k' := ⟨_, shift_refl s h, .stay⟩
  unfold step
  dsimp only
  split
  · exact .inl hstay
  · rename_i l k hc
    left
    unfold acquire
    split
    · exact ⟨k, shift_lock s h k _ _, .pop _ k hc fun i e => by cases e⟩
    · split
      · exact hpanic
      · exact hstay
  · rename_i l k hc
    left
    unfold release
    split
    · split
      · exact hpanic
      · exact ⟨k, shift_lock s h k _ _, .pop _ k hc fun i e => by cases e⟩
    · exact hpanic
  · rename_i k hc
    left
    unfold sched
    split
    · exact hpanic
    split
    · exact hpanic
    · obtain ⟨hp, hi, hh, hx, hm, ho⟩ := shift_goto s h k
      refine ⟨k, ⟨hp, hi, hh, hx, hm, ho⟩, .pop _ k hc fun i e => ?_⟩
      cases e
      exact .inl rfl
  · rename_i p k hc
    left
    obtain ⟨hp, hi, hh, hx, hm, ho⟩ := shift_goto s h k
    refine ⟨k, ⟨hp, hi, hh, hx, hm, ho⟩, .pop _ k hc fun i e => ?_⟩
    cases e
    exact .inr ⟨p, rfl⟩
  · rename_i i k hs ht hc
    exact .inr ⟨i, k, hc, (fun e => hs (e ▸ rfl)), (fun p e => ht p (e ▸ rfl)), rfl⟩

theorem step_shape (s : St H) (h : H) (e : Ev) :
    (∃ k', Shift s (step s (h, e)) h k' ∧ Next s h k') ∨
      ∃ i k ok, e = .next ok ∧ s.code h = .op i :: k ∧ i ≠ .sched ∧ (∀ p, i ≠ .swtch p) ∧
        step s (h, e) = s.apply h (effect s (s.cpu h).proc ok i) k := by
  have hstay : ∃ k', Shift s s h k' ∧ Next s h k' := ⟨_, shift_refl s h, .stay⟩
  cases e with
  | next ok =>
    rcases step_next s h ok with hs | ⟨i, k, hs⟩
    · exact .inl hs
    · exact .inr ⟨i, k, ok, rfl, hs⟩
  | call c =>
    left
    unfold step
    dsimp only
    split
    · rename_i p locks status k hp hc
      exact ⟨_, shift_goto s h _, .call p locks status c k hc⟩
    · exact hstay
  | devintr c a =>
    left
    unfold step
    dsimp only
    split
    · rename_i hn
      refine ⟨_, shift_goto s h _, .interrupt _ hn.1 fun j hj => ?_⟩
      simp [devintr] at hj
      exact .inr ⟨c, hn.2, hj⟩
    · exact hstay
  | timer clock a =>
    left
    unfold step
    dsimp only
    split
    · rename_i hn
      refine ⟨_, shift_goto s h _, .interrupt _ hn fun j hj => ?_⟩
      rcases List.mem_append.mp hj with e | e
      · split at e
        · simp [devintr] at e
          exact .inr ⟨.ticks, rfl, e⟩
        · cases e
      · split at e
        · simp at e
          exact .inl e
        · cases e
    · exact hstay

theorem stack_off {o : Option Slot} {i : Op} (hw : Wf o (.op i :: k)) (hn : ∀ p, ¬i.Fits (some p)) : o = none := by
  cases o with
  | none => rfl
  | some p => exact absurd hw.1 (hn p)

/-- An operation of the scheduler that writes `c->proc`. -/
theorem apply_idle {e : Eff} {c : Option Slot} (ho : (s.cpu h).on = none) (hx : e.ctx = none) (hc : e.cproc = some c) :
    (s.apply h e k).kstack = s.kstack ∧ (s.apply h e k).stack0 = upd s.stack0 h (e.code ++ k) ∧
      (s.apply h e k).cpu = upd s.cpu h { s.cpu h with proc := c } := by
  have hon : (upd s.cpu h { s.cpu h with proc := c } h).on = none := by rw [upd_same]; exact ho
  unfold St.apply
  rw [hx, hc, goto_off (by exact hon)]
  exact ⟨rfl, rfl, rfl⟩

/-- Where the stacks stand after an operation. -/
theorem effect_kstack {i : Op} (ok : Bool) (hI : Inv s) (hc : s.code h = .op i :: k) (p : Slot) :
    (s.cpu h).on = some p ∧ (s.apply h (effect s (s.cpu h).proc ok i) k).kstack p =
    (effect s (s.cpu h).proc ok i).code ++ k ∨
      (s.cpu h).on ≠ some p ∧
        ((s.apply h (effect s (s.cpu h).proc ok i) k).kstack p = s.kstack p ∧
          (effect s (s.cpu h).proc ok i).ctx ≠ some p ∨
          (effect s (s.cpu h).proc ok i).ctx = some p ∧ (s.apply h (effect s (s.cpu h).proc ok i) k).kstack p =
            forkret p) := by
  cases hcp : (effect s (s.cpu h).proc ok i).cproc with
  | none =>
    by_cases ho : (s.cpu h).on = some p
    · exact .inl ⟨ho, apply_stack hcp ho⟩
    · exact .inr ⟨ho, apply_kstack hcp ho⟩
  | some c =>
    have hi : (∃ a b c, i = .dispatch a b c) ∨ ∃ a, i = .switched a := by
      by_contra hn
      push Not at hn
      rw [effect_cproc hn.1 hn.2] at hcp
      cases hcp
    have hw := wf_code hI hc
    have ho : (s.cpu h).on = none := by
      rcases hi with ⟨a, b, c, rfl⟩ | ⟨a, rfl⟩
      · exact stack_off hw fun _ => id
      · exact stack_off hw fun _ => id
    have hx (q : Slot) : (effect s (s.cpu h).proc ok i).ctx ≠ some q := fun e => by
      rcases hi with ⟨a, b, c, rfl⟩ | ⟨a, rfl⟩
      · cases (effect_ctx e).1
      · cases (effect_ctx e).1
    refine .inr ⟨(fun e => by rw [ho] at e; cases e), .inl ⟨?_, hx p⟩⟩
    rw [(apply_idle ho (Option.eq_none_iff_forall_ne_some.mpr hx) hcp).1]

end Moves

end Xv6.Smp
