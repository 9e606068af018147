/-
  Xv6.Lib.Count — sums of a weight over a finite set of parties, when one party changes.
-/

import Mathlib.Algebra.Order.BigOperators.Group.Finset
import Xv6.Lib.Writes

namespace Xv6.Lib

variable {α β : Type} [Fintype α]

def total (g : β → Nat) (f : α → β) : Nat := ∑ a, g (f a)

theorem total_congr {g g' : β → Nat} {f f' : α → β} (h : ∀ a, g (f a) = g' (f' a)) : total g f = total g' f' :=
  Finset.sum_congr rfl fun a _ => h a

theorem le_total (g : β → Nat) (f : α → β) (a : α) : g (f a) ≤ total g f :=
  Finset.single_le_sum (f := fun x => g (f x)) (fun _ _ => Nat.zero_le _) (Finset.mem_univ a)

theorem total_eq_zero {g : β → Nat} {f : α → β} : total g f = 0 ↔ ∀ a, g (f a) = 0 := by
  simp [total]

/-- One party changes: the total changes by its weight. -/
theorem total_upd [DecidableEq α] (g : β → Nat) (f : α → β) (a : α) (v : β) :
    total g (upd f a v) + g (f a) = total g f + g v := by
  unfold total
  rw [← Finset.add_sum_erase _ _ (Finset.mem_univ a), ← Finset.add_sum_erase _ (fun x => g (f x)) (Finset.mem_univ a)]
  have hrest : ∑ x ∈ Finset.univ.erase a, g (upd f a v x) = ∑ x ∈ Finset.univ.erase a, g (f x) :=
    Finset.sum_congr rfl fun x hx => by rw [upd_ne _ _ (Finset.ne_of_mem_erase hx)]
  rw [upd_same]
  omega

end Xv6.Lib
