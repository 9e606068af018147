/-
  Xv6.Sched.Pause — `sys_pause` and `sys_sleep` (`kernel/sysproc.c`) against the clock of
  `clockintr` (`kernel/trap.c`): `sleep_pause_iff` says when both return at the first check that
  sees enough ticks. `sys_sleep` lacks the test for a negative argument.

  A process in the loop checks, sleeps, is woken by a tick or a kill, and checks again when it
  runs. A call is given by what each check sees: the ticks since the check before, any number
  of them, and whether the process has been killed.
-/

import Mathlib.Data.BitVec

namespace Xv6.Sched.Pause

/-- `ticks` after `e` calls of `clockintr`. -/
def clock (ticks0 : BitVec 32) (e : Nat) : BitVec 32 := ticks0 + BitVec.ofNat 32 e

structure Look where
  passed : Nat
  killed : Bool

/-- The loop, at a check `e` ticks after the call; the comparison is one of `uint`s. The result
    is the tick of the return and the value; `none` if the process is still in the loop. -/
def waitLoop (n ticks0 : BitVec 32) (e : Nat) (killed : Bool) : List Look → Option (Nat × Int)
  | [] => if clock ticks0 e - ticks0 < n then if killed then some (e, -1) else none else some (e, 0)
  | l :: rest =>
    if clock ticks0 e - ticks0 < n then
      if killed then some (e, -1) else waitLoop n ticks0 (e + l.passed) l.killed rest
    else some (e, 0)

def sysPause (n ticks0 : BitVec 32) (killed : Bool) (rest : List Look) : Option (Nat × Int) :=
  let n := if n.toInt < 0 then 0 else n
  waitLoop n ticks0 0 killed rest

def sysSleep (n ticks0 : BitVec 32) (killed : Bool) (rest : List Look) : Option (Nat × Int) :=
  waitLoop n ticks0 0 killed rest

/-- What a call is to return that waits for `k` ticks. -/
def firstCheck (k e : Nat) (killed : Bool) : List Look → Option (Nat × Int)
  | [] => if e < k then if killed then some (e, -1) else none else some (e, 0)
  | l :: rest => if e < k then if killed then some (e, -1) else firstCheck k
    (e + l.passed) l.killed rest else some (e, 0)

section loop

variable (n ticks0 : BitVec 32)

theorem clock_lt (e : Nat) : clock ticks0 e - ticks0 < n ↔ e % 4294967296 < n.toNat := by
  have h : clock ticks0 e - ticks0 = BitVec.ofNat 32 e := by
    unfold clock
    rw [BitVec.add_comm, BitVec.add_sub_cancel]
  rw [h, BitVec.lt_def, BitVec.toNat_ofNat]

/-- The loop returns 0 only where the difference of the counters is large enough. -/
theorem waitLoop_zero {e j : Nat} {killed : Bool} {rest : List Look}
    (h : waitLoop n ticks0 e killed rest = some (j, 0)) :
    n.toNat ≤ j % 4294967296 := by
  induction rest generalizing e killed with
  | nil =>
    simp only [waitLoop, clock_lt] at h
    split at h
    · split at h <;> simp at h
    · simp only [Option.some.injEq, Prod.mk.injEq] at h
      omega
  | cons l rest ih =>
    simp only [waitLoop, clock_lt] at h
    split at h
    · split at h
      · simp at h
      · exact ih h
    · simp only [Option.some.injEq, Prod.mk.injEq] at h
      omega

/-- The loop is right if the counter has not gone round when enough ticks are seen. -/
theorem waitLoop_eq_iff (e : Nat) (killed : Bool) (rest : List Look) :
    waitLoop n ticks0 e killed rest = firstCheck n.toNat e killed rest ↔
      ∀ j, firstCheck n.toNat e killed rest = some (j, 0) → n.toNat ≤ j % 4294967296 := by
  refine ⟨fun h j hj => waitLoop_zero n ticks0 (h.trans hj), fun h => ?_⟩
  have hlt := n.isLt
  induction rest generalizing e killed with
  | nil =>
    by_cases he : e < n.toNat
    · simp [waitLoop, firstCheck, clock_lt, he, Nat.mod_eq_of_lt (Nat.lt_trans he hlt)]
    · have := h e (by simp [firstCheck, he])
      simp [waitLoop, firstCheck, clock_lt, he, Nat.not_lt.mpr this]
  | cons l rest ih =>
    by_cases he : e < n.toNat
    · cases killed with
      | true => simp [waitLoop, firstCheck, clock_lt, he, Nat.mod_eq_of_lt (Nat.lt_trans he hlt)]
      | false =>
        simp only [firstCheck, he, if_true, Bool.false_eq_true, if_false] at h
        simpa [waitLoop, firstCheck, clock_lt, he, Nat.mod_eq_of_lt (Nat.lt_trans he hlt)] using ih _ _ h
    · have := h e (by simp [firstCheck, he])
      simp [waitLoop, firstCheck, clock_lt, he, Nat.not_lt.mpr this]

end loop

theorem sleep_pause_iff (n ticks0 : BitVec 32) (killed : Bool) (rest : List Look) :
    (sysPause n ticks0 killed rest = firstCheck (max n.toInt 0).toNat 0 killed rest ∧
      sysSleep n ticks0 killed rest = firstCheck (max n.toInt 0).toNat 0 killed rest) ↔
    0 ≤ n.toInt ∧ ∀ e, firstCheck (max n.toInt 0).toNat 0 killed rest = some (e, 0) → n.toInt ≤ e % 4294967296 := by
  by_cases hn : n.toInt < 0
  · have hz : (max n.toInt 0).toNat = 0 := by omega
    have hnow : firstCheck 0 0 killed rest = some (0, 0) := by cases rest <;> simp [firstCheck]
    rw [hz, hnow]
    refine ⟨fun h => ?_, fun h => by omega⟩
    have := waitLoop_zero n ticks0 h.2
    simp only [BitVec.toInt_eq_toNat_cond] at hn
    split at hn <;> omega
  · have hk : (max n.toInt 0).toNat = n.toNat := by
      simp only [BitVec.toInt_eq_toNat_cond] at hn ⊢
      split at hn <;> omega
    simp only [sysPause, sysSleep, if_neg hn, and_self, hk, waitLoop_eq_iff]
    constructor
    · intro h
      refine ⟨by omega, fun e he => ?_⟩
      have := h e he
      omega
    · intro h e he
      have := h.2 e he
      omega

/-- `sleep(-1)` goes to sleep, and `pause(-1)` returns. -/
theorem sleep_negative : sysPause (-1) 0 false [] = some (0, 0) ∧ sysSleep (-1) 0 false [] = none := by decide

end Xv6.Sched.Pause
