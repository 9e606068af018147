/-
  Xv6.Lib.First — a scan of a table from slot 0 on for the first slot that meets a test.
-/

import Mathlib.Data.List.FinRange

namespace Xv6.Lib

variable {n : Nat}

def first (f : Fin n → Bool) : Option (Fin n) := (List.finRange n).find? f

theorem first_some {f : Fin n → Bool} {i : Fin n} (h : first f = some i) : f i = true ∧ ∀ j, j < i → f j = false := by
  obtain ⟨hi, as, bs, he, has⟩ := List.find?_eq_some_iff_append.mp h
  refine ⟨hi, fun j hj => ?_⟩
  have hp := List.pairwise_lt_finRange n
  rw [he] at hp
  have hm : j ∈ as ++ i :: bs := he ▸ List.mem_finRange j
  rcases List.mem_append.mp hm with h1 | h1
  · simpa using has j h1
  · rcases List.mem_cons.mp h1 with rfl | h2
    · exact absurd hj (lt_irrefl _)
    · have := (List.pairwise_cons.mp (List.pairwise_append.mp hp).2.1).1 j h2
      exact absurd hj (lt_asymm this)

theorem first_none {f : Fin n → Bool} (h : first f = none) (i : Fin n) : f i = false := by
  simpa using List.find?_eq_none.mp h i (List.mem_finRange i)

end Xv6.Lib
