/-
  Xv6.Lib.Locks — spin locks and the code that takes them. The code of a thread is the
  list of what it does next: acquire a lock, release one, or an operation of the program.
  `held` reads off the code which locks the thread holds before it runs it: those that it
  is going to release before it acquires them. An operation says itself which locks it, or
  what it turns into, releases (`holds`).

  `Owns` says that a processor holds exactly the locks its code counts on. The rules below
  keep it through an acquire, a release, an operation and a step of another processor.
-/

import Xv6.Lib.Writes

namespace Xv6.Lib

inductive Code (L I : Type) where
  | acquire (l : L)
  | release (l : L)
  | op (i : I)
  deriving DecidableEq, Repr

variable {L I H : Type} [DecidableEq L] (holds : I → List L)

def held : List (Code L I) → List L
  | [] => []
  | .acquire l :: k => (held k).erase l
  | .release l :: k => l :: held k
  | .op i :: k => holds i ++ held k

/-- What is acquired is counted on by the code after it. -/
def Balanced : List (Code L I) → Prop
  | [] => True
  | .acquire l :: k => l ∈ held holds k ∧ Balanced k
  | .release _ :: k => Balanced k
  | .op _ :: k => Balanced k

/-- Processor `h`, with `n` locks to its name, holds exactly the locks that `k` counts on. -/
structure Owns (lock : L → Option H) (n : Nat) (h : H) (k : List (Code L I)) : Prop where
  iff : ∀ l, lock l = some h ↔ l ∈ held holds k
  nodup : (held holds k).Nodup
  count : n = (held holds k).length

variable {holds} {lock : L → Option H} {n : Nat} {h h' : H} {k k' : List (Code L I)} {l : L}

@[simp] theorem held_nil : held holds [] = [] := rfl

@[simp] theorem held_acquire : held holds (.acquire l :: k) = (held holds k).erase l := rfl

@[simp] theorem held_release : held holds (.release l :: k) = l :: held holds k := rfl

@[simp] theorem held_op (i : I) : held holds (.op i :: k) = holds i ++ held holds k := rfl

@[simp] theorem balanced_nil : Balanced holds [] := trivial

@[simp] theorem balanced_acquire : Balanced holds (.acquire l :: k) ↔ l ∈ held holds k ∧ Balanced holds k := .rfl

@[simp] theorem balanced_release : Balanced holds (.release l :: k) ↔ Balanced holds k := .rfl

@[simp] theorem balanced_op (i : I) : Balanced holds (.op i :: k) ↔ Balanced holds k := .rfl

theorem owns_acquire (hw : Owns holds lock n h (.acquire l :: k)) (hb : Balanced holds (.acquire l :: k))
    (hl : lock l = none) : Owns holds (upd lock l (some h)) (n + 1) h k := by
  obtain ⟨hiff, hnd, hn⟩ := hw
  have hp : (held holds k).Perm (l :: (held holds k).erase l) := List.perm_cons_erase hb.1
  have hnot : l ∉ (held holds k).erase l := fun hm => by
    have := (hiff l).mpr hm
    rw [hl] at this
    cases this
  refine ⟨fun l' => ?_, hp.nodup_iff.mpr (List.nodup_cons.mpr ⟨hnot, hnd⟩), ?_⟩
  · by_cases he : l' = l
    · rw [he, upd_same]
      exact ⟨fun _ => hb.1, fun _ => rfl⟩
    · rw [upd_ne _ _ he, hiff, hp.mem_iff, List.mem_cons, or_iff_right he]
      exact .rfl
  · rw [hp.length_eq, hn]
    rfl

theorem owns_release (hw : Owns holds lock n h (.release l :: k)) : Owns holds (upd lock l none) (n - 1) h k := by
  obtain ⟨hiff, hnd, hn⟩ := hw
  obtain ⟨hnot, hnd'⟩ := List.nodup_cons.mp hnd
  refine ⟨fun l' => ?_, hnd', ?_⟩
  · by_cases he : l' = l
    · rw [he, upd_same]
      exact ⟨(fun hc => by cases hc), fun hm => absurd hm hnot⟩
    · rw [upd_ne _ _ he, hiff, held_release, List.mem_cons, or_iff_right he]
  · rw [hn, held_release, List.length_cons, Nat.add_sub_cancel]

theorem owns_frame {v : Option H} (hw : Owns holds lock n h k) (hl : lock l ≠ some h) (hv : v ≠ some h) :
    Owns holds (upd lock l v) n h k := by
  refine ⟨fun l' => ?_, hw.nodup, hw.count⟩
  by_cases he : l' = l
  · rw [he, upd_same, ← hw.iff]
    exact ⟨fun hc => absurd hc hv, fun hc => absurd hc hl⟩
  · rw [upd_ne _ _ he, hw.iff]

/-- The thread goes on with other code that counts on the same locks. -/
theorem owns_perm (hw : Owns holds lock n h k) (hp : (held holds k').Perm (held holds k)) : Owns holds lock n h k' :=
  ⟨fun l => (hw.iff l).trans hp.mem_iff.symm, hp.nodup_iff.mpr hw.nodup, hw.count.trans hp.length_eq.symm⟩

theorem owns_mem (hw : Owns holds lock n h k) (hm : l ∈ held holds k) : lock l = some h := (hw.iff l).mpr hm

end Xv6.Lib
