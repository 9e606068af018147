/-
  Xv6.Lib.Forest — families: a forest given by parent links, whose nodes are born, get a
  parent, grow up, die and are reaped. A node with children does not die: they are handed
  to the root first. Whatever the order of these moves, every grown node has a living
  parent and reaches the root by following parents (`Tree`).
-/

import Xv6.Lib.Writes

namespace Xv6.Lib

variable {α : Type} [DecidableEq α]

/-! ## Following parents -/

inductive Reaches (par : α → Option α) (root : α) : α → Prop
  | root : Reaches par root root
  | up {x y : α} (h : par x = some y) (hy : Reaches par root y) : Reaches par root x

section Reaches

variable {par : α → Option α} {root a x : α}

/-- A node without children gets another parent, or none. -/
theorem reaches_leaf (v : Option α) (hx : Reaches par root x) (ha : ∀ y, par y ≠ some a) (hne : x ≠ a) :
    Reaches (upd par a v) root x := by
  induction hx with
  | root => exact .root
  | @up x y hp _ ih => exact .up (by rw [upd_ne _ _ hne]; exact hp) (ih fun e => ha x (e ▸ hp))

theorem reaches_handed (a : α) (hx : Reaches par root x) : Reaches (upd par a (some root)) root x := by
  induction hx with
  | root => exact .root
  | @up x y hp _ ih =>
    by_cases e : x = a
    · exact .up (by rw [e, upd_same]) .root
    · exact .up (by rw [upd_ne _ _ e]; exact hp) ih

end Reaches

/-! ## Families -/

inductive Age where
  | free
  | young
  | grown
  | dead
  deriving DecidableEq, Repr

structure Family (α : Type) where
  age : α → Age
  par : α → Option α
  root : α

inductive Family.Move (F : Family α) : Family α → Prop
  | same : Move F F
  | born (a : α) (age : F.age a = .free) : Move F { F with age := upd F.age a .young }
  | undone (a : α) (age : F.age a = .young) (par : F.par a = none) : Move F { F with age := upd F.age a .free }
  | adopted (a p : α) (age : F.age a = .young) (par : F.par a = none) (grown : F.age p = .grown) :
      Move F { F with par := upd F.par a (some p) }
  | grew (a : α) (age : F.age a = .young) (par : (F.par a).isSome) : Move F { F with age := upd F.age a .grown }
  | handed (a : α) (par : (F.par a).isSome) : Move F { F with par := upd F.par a (some F.root) }
  | died (a : α) (age : F.age a = .grown) (root : a ≠ F.root) (kids : ∀ x, F.par x ≠ some a) :
      Move F { F with age := upd F.age a .dead }
  | reaped (a : α) (age : F.age a = .dead) : Move F { F with age := upd F.age a .free, par := upd F.par a none }

structure Family.Tree (F : Family α) : Prop where
  root : F.age F.root = .grown ∧ F.par F.root = none
  parent : ∀ x y, F.par x = some y → F.age y = .grown
  raised : ∀ x, x ≠ F.root → F.age x = .grown ∨ F.age x = .dead → (F.par x).isSome
  fresh : ∀ x, F.age x = .free → F.par x = none
  reaches : ∀ x y, F.par x = some y → Reaches F.par F.root y

variable {F F' : Family α}

section

variable (hT : F.Tree)

include hT

variable {a : α}

omit [DecidableEq α] in
/-- A node that is not grown has no children. -/
theorem Family.Tree.kids (ha : F.age a ≠ .grown) (x : α) : F.par x ≠ some a :=
  fun e => ha (hT.parent x a e)

omit [DecidableEq α] in
theorem Family.Tree.ne_root (ha : F.age a ≠ .grown) : a ≠ F.root :=
  fun e => ha (e ▸ hT.root.1)

theorem Family.Tree.aged {g : Age} (ha : a ≠ F.root) (hk : g = .grown ∨ ∀ x, F.par x ≠ some a)
    (hr : g = .grown ∨ g = .dead → (F.par a).isSome) (hf : g = .free → F.par a = none) :
    Family.Tree { F with age := upd F.age a g } where
  root := ⟨(upd_ne _ _ ha.symm).trans hT.root.1, hT.root.2⟩
  parent x y hp := by
    by_cases e : y = a
    · subst e
      rcases hk with hk | hk
      · exact (upd_same _ _ _).trans hk
      · exact absurd hp (hk x)
    · exact (upd_ne _ _ e).trans (hT.parent x y hp)
  raised x hx hg := by
    by_cases e : x = a
    · subst e
      exact hr (by rw [← upd_same F.age x g]; exact hg)
    · exact hT.raised x hx (by rw [← upd_ne F.age g e]; exact hg)
  fresh x hg := by
    by_cases e : x = a
    · subst e
      exact hf (by rw [← upd_same F.age x g]; exact hg)
    · exact hT.fresh x (by rw [← upd_ne F.age g e]; exact hg)
  reaches := hT.reaches

theorem Family.Tree.grown_reaches (ha : F.age a = .grown) : Reaches F.par F.root a := by
  by_cases hr : a = F.root
  · rw [hr]
    exact .root
  · obtain ⟨z, hz⟩ := Option.isSome_iff_exists.mp (hT.raised a hr (.inl ha))
    exact .up hz (hT.reaches a z hz)

/-- A node other than the root gets a grown parent. -/
theorem Family.Tree.linked {a p : α} (ha : a ≠ F.root) (hf : F.age a ≠ .free) (hp : F.age p = .grown)
    (hr : ∀ y, F.age y = .grown → Reaches F.par F.root y → Reaches (upd F.par a (some p)) F.root y) :
    Family.Tree { F with par := upd F.par a (some p) } := by
  have hother {x y : α} (h : upd F.par a (some p) x = some y) : F.age y = .grown := by
    by_cases e : x = a
    · subst e
      rw [upd_same] at h
      cases h
      exact hp
    · exact hT.parent x y ((upd_ne _ _ e).symm.trans h)
  refine ⟨⟨hT.root.1, (upd_ne _ _ ha.symm).trans hT.root.2⟩, fun x y => hother, fun x hx hg => ?_, fun x hg => ?_,
    fun x y h => hr y (hother h) (hT.grown_reaches (hother h))⟩
  · by_cases e : x = a
    · subst e
      exact congrArg Option.isSome (upd_same F.par x (some p))
    · exact (congrArg Option.isSome (upd_ne F.par (some p) e)).trans (hT.raised x hx hg)
  · have e : x ≠ a := fun e => hf (e ▸ hg)
    exact (upd_ne _ _ e).trans (hT.fresh x hg)

theorem Family.Tree.reap (ha : F.age a = .dead) :
    Family.Tree { F with age := upd F.age a .free, par := upd F.par a none } := by
  have hne : F.age a ≠ .grown := by rw [ha]; exact Age.noConfusion
  have hroot := hT.ne_root hne
  have hother {x y : α} (hp : upd F.par a none x = some y) : F.par x = some y := by
    have e : x ≠ a := fun e => by rw [e, upd_same] at hp; cases hp
    exact (upd_ne _ _ e).symm.trans hp
  refine ⟨⟨(upd_ne _ _ hroot.symm).trans hT.root.1, (upd_ne _ _ hroot.symm).trans hT.root.2⟩, fun x y hp => ?_,
    fun x hx hg => ?_, fun x hg => ?_, fun x y hp => ?_⟩
  · have hy := hT.parent x y (hother hp)
    have e : y ≠ a := fun e => hne (e ▸ hy)
    exact (upd_ne _ _ e).trans hy
  · by_cases e : x = a
    · subst e
      replace hg : upd F.age x .free x = .grown ∨ upd F.age x .free x = .dead := hg
      rw [upd_same] at hg
      rcases hg with e | e <;> cases e
    · replace hg : F.age x = .grown ∨ F.age x = .dead := by rw [← upd_ne F.age .free e]; exact hg
      exact (congrArg Option.isSome (upd_ne F.par none e)).trans (hT.raised x hx hg)
  · by_cases e : x = a
    · subst e
      exact upd_same _ _ _
    · exact (upd_ne _ _ e).trans (hT.fresh x ((upd_ne _ _ e).symm.trans hg))
  · have e : y ≠ a := fun e => hT.kids hne x (e ▸ hother hp)
    exact reaches_leaf _ (hT.reaches x y (hother hp)) (hT.kids hne) e

theorem Family.Tree.move (hm : F.Move F') : F'.Tree := by
  cases hm with
  | same => exact hT
  | born a age =>
    have hne : F.age a ≠ .grown := by rw [age]; exact Age.noConfusion
    exact hT.aged (hT.ne_root hne) (.inr (hT.kids hne)) (fun e => by rcases e with e | e <;> cases e)
      (fun e => by cases e)
  | undone a age par =>
    have hne : F.age a ≠ .grown := by rw [age]; exact Age.noConfusion
    exact hT.aged (hT.ne_root hne) (.inr (hT.kids hne)) (fun e => by rcases e with e | e <;> cases e) (fun _ => par)
  | adopted a p age par grown =>
    have hne : F.age a ≠ .grown := by rw [age]; exact Age.noConfusion
    refine hT.linked (hT.ne_root hne) (by rw [age]; exact Age.noConfusion) grown fun y hy hr => ?_
    exact reaches_leaf _ hr (hT.kids hne) fun e => hne (e ▸ hy)
  | grew a age par =>
    have hne : F.age a ≠ .grown := by rw [age]; exact Age.noConfusion
    exact hT.aged (hT.ne_root hne) (.inl rfl) (fun _ => par) (fun e => by cases e)
  | handed a par =>
    have hroot : a ≠ F.root := fun e => by rw [e, hT.root.2] at par; cases par
    exact hT.linked hroot (fun e => by rw [hT.fresh a e] at par; cases par) hT.root.1 fun y _ => reaches_handed a
  | died a age root kids => exact hT.aged root (.inr kids) (fun _ => hT.raised a root (.inl age)) (fun e => by cases e)
  | reaped a age => exact hT.reap age

end

end Xv6.Lib
