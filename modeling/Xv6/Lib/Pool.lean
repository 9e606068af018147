/-
  Xv6.Lib.Pool — a pool of `N` numbered items, each free or owned by one party. A party
  takes a free item or gives one back; parties with `k` items each are at most `N / k` many.
-/

import Mathlib.Data.List.Nodup
import Mathlib.Data.List.Perm.Subperm
import Xv6.Lib.Writes

namespace Xv6.Lib

variable {P : Type}

structure Pool (N : Nat) (free : Nat → Bool) (own : P → List Nat) : Prop where
  owner : ∀ i, i < N → (free i = false ↔ ∃ p, i ∈ own p)
  small : ∀ p i, i ∈ own p → i < N
  nodup : ∀ p, (own p).Nodup
  disjoint : ∀ p q i, i ∈ own p → i ∈ own q → p = q

namespace Pool

variable {N : Nat} {free : Nat → Bool} {own : P → List Nat}

theorem empty : Pool N (fun i => decide (i < N)) fun _ : P => [] := by
  refine ⟨fun i hi => ?_, (fun p i h => by cases h), fun p => List.nodup_nil, (fun p q i h => by cases h)⟩
  simp [hi]

variable {i : Nat}

theorem not_free (h : Pool N free own) {p : P} (hi : i ∈ own p) : free i = false :=
  (h.owner i (h.small p i hi)).mpr ⟨p, hi⟩

theorem not_owned (h : Pool N free own) (hi : free i = true) (p : P) : i ∉ own p := by
  intro hm
  rw [h.not_free hm] at hi
  cases hi

variable [DecidableEq P]

theorem mem_upd {p q : P} {is : List Nat} (h : i ∈ upd own p is q) : (q = p ∧ i ∈ is) ∨ (q ≠ p ∧ i ∈ own q) := by
  by_cases hq : q = p
  · rw [hq, upd_same] at h; exact .inl ⟨hq, h⟩
  · rw [upd_ne _ _ hq] at h; exact .inr ⟨hq, h⟩

theorem take (h : Pool N free own) (hi : free i = true) (hN : i < N) (p : P) :
    Pool N (upd free i false) (upd own p (own p ++ [i])) := by
  have hno := h.not_owned hi
  -- who owns an item now is either the taker of `i` or owned it before
  have hold : ∀ q j, j ∈ upd own p (own p ++ [i]) q → (q = p ∧ j = i) ∨ j ∈ own q := by
    intro q j hj
    rcases mem_upd hj with ⟨hq, hm⟩ | ⟨-, hm⟩
    · rcases List.mem_append.mp hm with hm | hm
      · exact .inr (hq ▸ hm)
      · exact .inl ⟨hq, List.mem_singleton.mp hm⟩
    · exact .inr hm
  have hkeep : ∀ q j, j ∈ own q → j ∈ upd own p (own p ++ [i]) q := by
    intro q j hj
    by_cases hq : q = p
    · rw [hq, upd_same]; exact List.mem_append_left _ (hq ▸ hj)
    · rw [upd_ne _ _ hq]; exact hj
  refine ⟨fun j hj => ?_, fun q j hj => ?_, fun q => ?_, fun q r j hq hr => ?_⟩
  · by_cases hji : j = i
    · rw [hji, upd_same]
      exact ⟨fun _ => ⟨p, by rw [upd_same]; simp⟩, fun _ => rfl⟩
    rw [upd_ne _ _ hji, h.owner j hj]
    constructor
    · intro ⟨q, hq⟩
      exact ⟨q, hkeep q j hq⟩
    · intro ⟨q, hq⟩
      rcases hold q j hq with ⟨-, e⟩ | hm
      · exact absurd e hji
      · exact ⟨q, hm⟩
  · rcases hold q j hj with ⟨-, e⟩ | hm
    · rw [e]; exact hN
    · exact h.small q j hm
  · by_cases hq : q = p
    · rw [hq, upd_same]
      exact List.nodup_append.mpr ⟨h.nodup p, List.nodup_singleton i,
        fun a ha b hb e => hno p (by rw [← List.mem_singleton.mp hb, ← e]; exact ha)⟩
    · rw [upd_ne _ _ hq]; exact h.nodup q
  · rcases hold q j hq with ⟨e1, e2⟩ | h1
    · rcases hold r j hr with ⟨e3, -⟩ | h2
      · rw [e1, e3]
      · exact absurd (e2 ▸ h2) (hno r)
    · rcases hold r j hr with ⟨-, e2⟩ | h2
      · exact absurd (e2 ▸ h1) (hno q)
      · exact h.disjoint q r j h1 h2

/-- A party gives back the first of its items. -/
theorem give (h : Pool N free own) {p : P} {rest : List Nat} (hp : own p = i :: rest) :
    Pool N (upd free i true) (upd own p rest) := by
  have hnd := List.nodup_cons.mp (hp ▸ h.nodup p)
  have hi : i ∈ own p := by rw [hp]; exact .head _
  have hold : ∀ q j, j ∈ upd own p rest q → j ∈ own q ∧ j ≠ i := by
    intro q j hj
    rcases mem_upd hj with ⟨hq, hm⟩ | ⟨hq, hm⟩
    · refine ⟨by rw [hq, hp]; exact .tail _ hm, fun e => hnd.1 (e ▸ hm)⟩
    · exact ⟨hm, fun e => hq (h.disjoint q p i (e ▸ hm) hi)⟩
  refine ⟨fun j hj => ?_, fun q j hj => h.small q j (hold q j hj).1, fun q => ?_,
    fun q r j hq hr => h.disjoint q r j (hold q j hq).1 (hold r j hr).1⟩
  · by_cases hji : j = i
    · rw [hji, upd_same]
      exact ⟨(fun e => by cases e), fun ⟨q, hq⟩ => absurd rfl (hold q i hq).2⟩
    rw [upd_ne _ _ hji, h.owner j hj]
    constructor
    · intro ⟨q, hq⟩
      refine ⟨q, ?_⟩
      by_cases hqp : q = p
      · rw [hqp, hp] at hq
        rw [hqp, upd_same]
        exact (List.mem_cons.mp hq).resolve_left hji
      · rw [upd_ne _ _ hqp]; exact hq
    · intro ⟨q, hq⟩
      exact ⟨q, (hold q j hq).1⟩
  · by_cases hq : q = p
    · rw [hq, upd_same]; exact hnd.2
    · rw [upd_ne _ _ hq]; exact h.nodup q

omit [DecidableEq P] in
/-- Parties with `k` items each do not have more than all items together. -/
theorem bound (h : Pool N free own) {k : Nat} {ps : List P} (hps : ps.Nodup) (hk : ∀ p ∈ ps, (own p).length = k) :
    ps.length * k ≤ N := by
  have hlen : (ps.flatMap own).length = ps.length * k := by
    clear hps
    induction ps with
    | nil => simp
    | cons p ps ih =>
      rw [List.flatMap_cons, List.length_append, hk p List.mem_cons_self, ih fun q hq => hk q (.tail _ hq),
        List.length_cons, Nat.succ_mul, Nat.add_comm]
  have hnd : (ps.flatMap own).Nodup := by
    refine List.nodup_flatMap.mpr ⟨fun p _ => h.nodup p, ?_⟩
    refine List.Pairwise.imp (fun {p q} hne => ?_) hps
    exact fun i hi hj => hne (h.disjoint p q i hi hj)
  have hsub : ps.flatMap own ⊆ List.range N := by
    intro i hi
    obtain ⟨p, -, hp⟩ := List.mem_flatMap.mp hi
    exact List.mem_range.mpr (h.small p i hp)
  have := (hnd.subperm hsub).length_le
  rwa [hlen, List.length_range] at this

omit [DecidableEq P] in
/-- Different keys stand for different parties with `k` items each. -/
theorem bound_keys (h : Pool N free own) {κ : Type} {k : Nat} {R : P → κ → Prop} (hR : ∀ p x y, R p x → R p y → x = y)
    {xs : List κ} (hxs : xs.Nodup) (hx : ∀ x ∈ xs, ∃ p, R p x ∧ (own p).length = k) : xs.length * k ≤ N := by
  have hps : ∃ ps : List P, ps.length = xs.length ∧ ps.Nodup ∧ ∀ p ∈ ps, (∃ x ∈ xs, R p x) ∧ (own p).length = k := by
    clear h
    induction xs with
    | nil => exact ⟨[], rfl, List.nodup_nil, fun p hp => by cases hp⟩
    | cons x xs ih =>
      obtain ⟨hnot, hnd⟩ := List.nodup_cons.mp hxs
      obtain ⟨ps, hlen, hpn, hps⟩ := ih hnd fun y hy => hx y (.tail _ hy)
      obtain ⟨p, hp, hpk⟩ := hx x List.mem_cons_self
      refine ⟨p :: ps, by simp [hlen], List.nodup_cons.mpr ⟨fun hm => ?_, hpn⟩, fun q hq => ?_⟩
      · obtain ⟨⟨y, hy, hpy⟩, -⟩ := hps p hm
        exact hnot (hR p x y hp hpy ▸ hy)
      · rcases List.mem_cons.mp hq with e | hq
        · rw [e]; exact ⟨⟨x, List.mem_cons_self, hp⟩, hpk⟩
        · obtain ⟨⟨y, hy, hqy⟩, hqk⟩ := hps q hq
          exact ⟨⟨y, .tail _ hy, hqy⟩, hqk⟩
  obtain ⟨ps, hlen, hpn, hps⟩ := hps
  rw [← hlen]
  exact h.bound hpn fun p hp => (hps p hp).2

end Pool

/-! ## The number of free items -/

def freeCount (N : Nat) (free : Nat → Bool) : Nat := (List.range N).countP free

theorem freeCount_take_le (N : Nat) (free : Nat → Bool) (i : Nat) :
    freeCount N (upd free i false) ≤ freeCount N free := by
  refine List.countP_mono_left fun j _ hj => ?_
  by_cases hji : j = i
  · rw [hji, upd_same] at hj; cases hj
  · rwa [upd_ne _ _ hji] at hj

theorem freeCount_give_le (N : Nat) (free : Nat → Bool) (i : Nat) :
    freeCount N (upd free i true) ≤ freeCount N free + 1 := by
  unfold freeCount
  induction N with
  | zero => exact Nat.zero_le _
  | succ N ih =>
    rw [List.range_succ, List.countP_append, List.countP_append]
    by_cases hN : N = i
    · -- the items before `i` are as they were
      have hsame : (List.range N).countP (upd free i true) = (List.range N).countP free := by
        refine List.countP_congr fun j hj => ?_
        rw [upd_ne _ _ (by have := List.mem_range.mp hj; omega)]
      have h1 : [N].countP (upd free i true) ≤ 1 := List.countP_le_length
      omega
    · have hlast : [N].countP (upd free i true) = [N].countP free := by
        rw [List.countP_singleton, List.countP_singleton, upd_ne _ _ hN]
      omega

end Xv6.Lib
