/-
  Xv6.Sched.Procinfo — what `sys_getprocinfo` (`kernel/sysproc.c`) reports as `total_ticks`,
  on any number of harts (`Xv6.Sched.Ticks`). It is `ticks_used`, which the demotion rule of
  `usertrap` sets back to 0, so that it is the total of a process's ticks only until its first
  demotion (`running_total_iff`).
-/

import Xv6.Sched.Ticks

namespace Xv6.Sched

open Lib

/-- `struct uproc`, without the name. -/
structure Uproc where
  pid : Int
  priority : Int
  total_ticks : Nat

/-- The loop of `sys_getprocinfo` at one slot. -/
def procinfo (p : Proc) : Option Uproc :=
  if p.state ≠ .unused then some ⟨p.pid, p.priority, (p.ticksUsed % 4294967296).toNat⟩ else none

theorem total_levelAfter (n : Nat) : ((levelAfter n).2 % 4294967296).toNat = n ↔ n < 5 := by
  unfold levelAfter
  split_ifs with h5 h15
  · omega
  · omega
  · have hb : Int.bmod ((n : Int) - 15) 4294967296 % 4294967296 = ((n : Int) - 15) % 4294967296 := Int.bmod_emod
    omega

variable {H : Type} [DecidableEq H] {zero : H} {q : Slot}

/-- The ticks that the reports give for slot `q` are those charged since `allocproc`, and do not
    go down while the process lives. -/
def RunningTotal (zero : H) (es : List (H × Ev)) (q : Slot) : Prop :=
  ∀ es₁ es₂ es₃, es = es₁ ++ (es₂ ++ es₃) →
    Always (Meter.step zero) (fun s => (s.harts.core.proc q).state ≠ .unused)
    (run (Meter.step zero) Meter.boot es₁) es₂ →
    ∃ u v, procinfo ((run (Meter.step zero) Meter.boot es₁).harts.core.proc q) = some u ∧
      procinfo ((run (Meter.step zero) Meter.boot (es₁ ++ es₂)).harts.core.proc q) = some v ∧
      u.total_ticks ≤ v.total_ticks ∧ v.total_ticks = (run (Meter.step zero) Meter.boot (es₁ ++ es₂)).charged q

theorem charged_mono (es : List (H × Ev)) : ∀ {s : Meter H},
    Always (Meter.step zero) (fun s => (s.harts.core.proc q).state ≠ .unused) s es →
    s.charged q ≤ (run (Meter.step zero) s es).charged q ∧
      ((run (Meter.step zero) s es).harts.core.proc q).state ≠ .unused := by
  induction es with
  | nil => exact fun h => ⟨Nat.le_refl _, h⟩
  | cons e es ih =>
    intro s h
    refine (ih h.2).imp_left (Nat.le_trans ?_)
    -- the slot of a process is not allocated
    have ha : ¬ Allocates (s.harts.on e.1) e.2 q := not_allocates (s := s.harts.on e.1) h.1
    show s.charged q ≤ if _ then 0 else _
    rw [if_neg ha]
    split <;> omega

theorem procinfo_total (es : List (H × Ev))
    (hq : ((run (Meter.step zero) Meter.boot es).harts.core.proc q).state ≠ .unused) :
    ∃ u, procinfo ((run (Meter.step zero) Meter.boot es).harts.core.proc q) = some u ∧
      (u.total_ticks = (run (Meter.step zero) Meter.boot es).charged q ↔
        (run (Meter.step zero) Meter.boot es).charged q < 5) := by
  refine ⟨_, if_pos hq, ?_⟩
  have hl : ((run (Meter.step zero) Meter.boot es).harts.core.proc q).ticksUsed = _ :=
    congrArg Prod.snd (level_meter zero es q)
  simp only [hl, total_levelAfter]

theorem running_total_iff (zero : H) (es : List (H × Ev)) (q : Slot) : RunningTotal zero es q ↔
    ∀ es₁ es₂, es = es₁ ++ es₂ → ((run (Meter.step zero) Meter.boot es₁).harts.core.proc q).state ≠ .unused →
      (run (Meter.step zero) Meter.boot es₁).charged q < 5 := by
  constructor
  · intro h es₁ es₂ he hq
    obtain ⟨-, v, -, hv, -, htotal⟩ := h es₁ [] es₂ he hq
    rw [List.append_nil] at hv htotal
    obtain ⟨u, hu, hiff⟩ := procinfo_total es₁ hq
    obtain rfl := Option.some.inj (hu.symm.trans hv)
    exact hiff.mp htotal
  · intro h es₁ es₂ es₃ he hlive
    obtain ⟨hle, hq⟩ := charged_mono es₂ hlive
    rw [← run_append] at hle hq
    obtain ⟨u, hu, hu'⟩ := procinfo_total es₁ hlive.head
    obtain ⟨v, hv, hv'⟩ := procinfo_total (es₁ ++ es₂) hq
    have hut := hu'.mpr (h es₁ _ he hlive.head)
    have hvt := hv'.mpr (h (es₁ ++ es₂) es₃ (by rw [he, List.append_assoc]) hq)
    exact ⟨u, v, hu, hv, by rw [hut, hvt]; exact hle, hvt⟩

/-- The scheduler's turn and a timer interrupt in user mode, `n` times. -/
def userTicks (n : Nat) : List (Unit × Ev) := (List.replicate n [((), Ev.scheduler), ((), Ev.timer true)]).flatten

/-- After the fourth tick the report says 4, and after the fifth it says 0. -/
theorem total_ticks_drop :
    (procinfo ((run (Meter.step ()) Meter.boot (userTicks 4)).harts.core.proc boot.initproc)).map Uproc.total_ticks =
      some 4 ∧
    (procinfo ((run (Meter.step ()) Meter.boot (userTicks 5)).harts.core.proc boot.initproc)).map Uproc.total_ticks =
      some 0 ∧
    (run (Meter.step ()) Meter.boot (userTicks 5)).charged boot.initproc = 5 := by
  decide +kernel

end Xv6.Sched
