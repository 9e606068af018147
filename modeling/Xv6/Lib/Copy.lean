/-
  Xv6.Lib.Copy — single copies made one after the other in one store. If no copy writes where
  a later one reads or writes, all of them see the store as it was (`copyAll_spec`).
-/

import Xv6.Lib.Writes

namespace Xv6.Lib

variable {A V : Type} [DecidableEq A]

/-- Copies the second address of each pair to the first. -/
def copyAll : List (A × A) → (A → V) → A → V
  | [], m => m
  | p :: ps, m => copyAll ps (upd m p.1 (m p.2))

/-- `p` leaves alone what `q` reads and writes. -/
def Spares (p q : A × A) : Prop := p.1 ≠ q.1 ∧ p.1 ≠ q.2

theorem copyAll_ne {a : A} : ∀ {ps : List (A × A)} (m : A → V), (∀ p ∈ ps, a ≠ p.1) → copyAll ps m a = m a := by
  intro ps
  induction ps with
  | nil => exact fun _ _ => rfl
  | cons p ps ih =>
    intro m h
    rw [copyAll, ih _ fun q hq => h q (.tail _ hq), upd_ne _ _ (h p (.head _))]

theorem copyAll_spec : ∀ {ps : List (A × A)} (m : A → V), ps.Pairwise Spares → ∀ p ∈ ps, copyAll ps m p.1 = m p.2 := by
  intro ps
  induction ps with
  | nil => exact fun _ _ p hp => absurd hp List.not_mem_nil
  | cons q ps ih =>
    intro m h p hp
    obtain ⟨hq, hps⟩ := List.pairwise_cons.mp h
    rw [copyAll]
    rcases List.mem_cons.mp hp with rfl | hp
    · rw [copyAll_ne _ fun r hr => (hq r hr).1, upd_same]
    · rw [ih _ hps p hp, upd_ne _ _ (hq p hp).2.symm]

end Xv6.Lib
