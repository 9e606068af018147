/-
  Xv6.Lib.Radix — a tree of tables in a store. A table has an entry for each index, and an
  entry may point to a table a level down (`child`). A path of indices leads to a table
  (`node`); those at most `n` levels below the root are the tables of a tree of depth `n`. In a
  tree whose tables are separate (`Separate`) there are two kinds of writes: one to an entry of
  the lowest tables changes that entry and nothing else, and one that attaches an empty table
  adds the table and changes no entry of the lowest tables (`cell`).
-/

import Mathlib.Data.List.Induction

namespace Xv6.Lib.Radix

variable {A I W : Type} (child : W → Option A)

/-- The table that a path leads to. -/
def node (m : A → I → W) : A → List I → Option A
  | a, [] => some a
  | a, i :: p => (child (m a i)).bind fun b => node m b p

def Table (m : A → I → W) (n : Nat) (r a : A) : Prop := ∃ p : List I, p.length ≤ n ∧ node child m r p = some a

def Separate (m : A → I → W) (n : Nat) (r : A) : Prop :=
  ∀ (p q : List I) (a : A), p.length ≤ n → q.length ≤ n → node child m r p = some a → node child m r q = some a → p = q

/-- Entry `i` of the table at the end of path `p`, and `zero` if there is none. -/
def cell (zero : W) (m : A → I → W) (r : A) (p : List I) (i : I) : W := (node child m r p).elim zero fun a => m a i

variable {child} {zero : W} {m m' : A → I → W} {n : Nat} {r a b : A} {i : I} {p q : List I}

theorem node_snoc (m : A → I → W) (r : A) (p : List I) (i : I) :
    node child m r (p ++ [i]) = (node child m r p).bind fun a => child (m a i) := by
  induction p generalizing r with
  | nil =>
    show (child (m r i)).bind (fun b => some b) = child (m r i)
    cases child (m r i) <;> rfl
  | cons j p ih =>
    simp only [List.cons_append, node, Option.bind_assoc, ih]

/-- Paths only look at the tables above their end. -/
theorem node_congr (h : ∀ q a, q.length < n → node child m r q = some a → ∀ i, child (m' a i) = child (m a i)) :
    ∀ p : List I, p.length ≤ n → node child m' r p = node child m r p := by
  intro p
  induction p using List.reverseRecOn with
  | nil => exact fun _ => rfl
  | append_singleton p i ih =>
    intro hp
    rw [List.length_append, List.length_singleton] at hp
    rw [node_snoc, node_snoc, ih (by omega)]
    cases hc : node child m r p with
    | none => rfl
    | some c => exact h p c (by omega) hc i

theorem table_congr (h : ∀ p : List I, p.length ≤ n → node child m' r p = node child m r p) (a : A) :
    Table child m' n r a ↔ Table child m n r a :=
  exists_congr fun p => and_congr_right fun hp => by rw [h p hp]

theorem separate_congr (h : ∀ p : List I, p.length ≤ n → node child m' r p = node child m r p)
    (hs : Separate child m n r) :
    Separate child m' n r := by
  intro p q a hp hq h1 h2
  rw [h p hp] at h1
  rw [h q hq] at h2
  exact hs p q a hp hq h1 h2

/-! ## A write to a lowest table -/

section leaf

variable (hs : Separate child m n r) (hp : p.length = n) (ha : node child m r p = some a)
  (h : ∀ b j, Table child m n r b → (b = a → j ≠ i) → m' b j = m b j)

include hs hp ha h

/-- The path of a lowest table leads to no table above. -/
theorem node_leaf (q : List I) (hq : q.length ≤ n) : node child m' r q = node child m r q := by
  refine node_congr (n := n) (fun q b hq hb j => ?_) q hq
  rw [h b j ⟨q, Nat.le_of_lt hq, hb⟩ fun e => ?_]
  subst e
  have := hs p q b (Nat.le_of_eq hp) (Nat.le_of_lt hq) ha hb
  rw [← this, hp] at hq
  exact absurd hq (Nat.lt_irrefl _)

theorem cell_leaf [DecidableEq I] (q : List I) (hq : q.length = n) (j : I) :
    cell child zero m' r q j = if q = p ∧ j = i then m' a i else cell child zero m r q j := by
  unfold cell
  rw [node_leaf hs hp ha h q (Nat.le_of_eq hq)]
  by_cases e : q = p
  · subst e
    rw [ha]
    show m' a j = if q = q ∧ j = i then m' a i else m a j
    by_cases hj : j = i
    · rw [if_pos ⟨rfl, hj⟩, hj]
    · rw [if_neg fun e => hj e.2, h a j ⟨q, Nat.le_of_eq hq, ha⟩ fun _ => hj]
  · rw [if_neg fun h => e h.1]
    cases hb : node child m r q with
    | none => rfl
    | some b =>
      have hne : b ≠ a := fun hba => e (hs q p a (Nat.le_of_eq hq) (Nat.le_of_eq hp) (hba ▸ hb) ha)
      exact h b j ⟨q, Nat.le_of_eq hq, hb⟩ fun hba => absurd hba hne

end leaf

/-! ## A new table -/

/-- Entry `i` of table `a`, at the end of path `p`, comes to point to table `b`, which has no
    children and was none of the tree's. -/
structure Attached (child : W → Option A) (zero : W) (m : A → I → W) (n : Nat) (r : A) (p : List I)
    (a : A) (i : I) (b : A)
    (m' : A → I → W) : Prop where
  blank : child zero = none
  depth : p.length < n
  table : node child m r p = some a
  lacks : child (m a i) = none
  fresh : ¬ Table child m n r b
  points : child (m' a i) = some b
  empty : ∀ j, m' b j = zero
  same : ∀ c j, Table child m n r c → (c = a → j ≠ i) → m' c j = m c j

section attached

variable [DecidableEq I] (h : Attached child zero m n r p a i b m') (hs : Separate child m n r)

include h hs

theorem node_attached :
    ∀ q : List I, q.length ≤ n → node child m' r q = if q = p ++ [i] then some b else node child m r q := by
  intro q
  induction q using List.reverseRecOn with
  | nil => exact fun _ => by rw [if_neg (by simp)]; rfl
  | append_singleton q j ih =>
    intro hq
    rw [List.length_append] at hq
    rw [node_snoc, ih (by omega)]
    by_cases hqp : q = p ++ [i]
    · -- below the new table there is nothing yet, and there was nothing before
      have hne : q ++ [j] ≠ p ++ [i] := fun e => by
        have := congrArg List.length e
        rw [hqp] at this
        simp at this
      rw [if_pos hqp, if_neg hne, node_snoc, hqp, node_snoc, h.table, Option.bind_some, Option.bind_some, h.lacks]
      exact (congrArg child (h.empty j)).trans h.blank
    · rw [if_neg hqp, node_snoc]
      cases hc : node child m r q with
      | none =>
        have hne : q ++ [j] ≠ p ++ [i] := fun e => by
          rw [(List.append_inj' e rfl).1, h.table] at hc
          cases hc
        rw [if_neg hne]
        rfl
      | some c =>
        by_cases he : q ++ [j] = p ++ [i]
        · obtain ⟨rfl, hj⟩ := List.append_inj' he rfl
          obtain rfl : j = i := by simpa using hj
          rw [if_pos he]
          rw [h.table] at hc
          obtain rfl := Option.some.inj hc
          exact h.points
        · rw [if_neg he]
          refine congrArg child (h.same c j ⟨q, by omega, hc⟩ fun e hj => he ?_)
          subst e
          have hqe : q = p := hs q p c (by omega) (Nat.le_of_lt h.depth) hc h.table
          rw [hqe, hj]

theorem table_attached (c : A) : Table child m' n r c ↔ Table child m n r c ∨ c = b := by
  have hlen : (p ++ [i]).length ≤ n := by
    rw [List.length_append]
    exact h.depth
  have hlacks : node child m r (p ++ [i]) = none := by
    rw [node_snoc, h.table]
    exact h.lacks
  constructor
  · rintro ⟨q, hq, hc⟩
    rw [node_attached h hs q hq] at hc
    split at hc
    · exact .inr (Option.some.inj hc).symm
    · exact .inl ⟨q, hq, hc⟩
  · rintro (⟨q, hq, hc⟩ | rfl)
    · refine ⟨q, hq, ?_⟩
      rw [node_attached h hs q hq, if_neg fun e => ?_]
      · exact hc
      · rw [e, hlacks] at hc
        cases hc
    · exact ⟨p ++ [i], hlen, by rw [node_attached h hs _ hlen, if_pos rfl]⟩

theorem separate_attached : Separate child m' n r := by
  intro q q' c hq hq' h1 h2
  rw [node_attached h hs _ hq] at h1
  rw [node_attached h hs _ hq'] at h2
  split at h1
  · next e =>
    split at h2
    · next e' => rw [e, e']
    · rw [← Option.some.inj h1] at h2
      exact absurd ⟨q', hq', h2⟩ h.fresh
  · split at h2
    · rw [← Option.some.inj h2] at h1
      exact absurd ⟨q, hq, h1⟩ h.fresh
    · exact hs q q' c hq hq' h1 h2

theorem cell_attached (q : List I) (hq : q.length = n) (j : I) :
    cell child zero m' r q j = cell child zero m r q j := by
  unfold cell
  rw [node_attached h hs q (Nat.le_of_eq hq)]
  by_cases e : q = p ++ [i]
  · rw [if_pos e, e, node_snoc, h.table]
    show m' b j = (child (m a i)).elim zero _
    rw [h.lacks]
    exact h.empty j
  · rw [if_neg e]
    cases hc : node child m r q with
    | none => rfl
    | some c =>
      have hca : c ≠ a := fun hca => by
        have := hs q p a (Nat.le_of_eq hq) (Nat.le_of_lt h.depth) (hca ▸ hc) h.table
        rw [this] at hq
        exact absurd (hq ▸ h.depth) (Nat.lt_irrefl _)
      exact h.same c j ⟨q, Nat.le_of_eq hq, hc⟩ fun e => absurd e hca

end attached

end Xv6.Lib.Radix
