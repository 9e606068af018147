/-
  Xv6.Lib.Ring — a doubly linked ring through a sentinel: `next` and `prev` of every node,
  where `none` is the sentinel. `Ring r l` says that `next` leads from the sentinel through
  `l` back to it, and `prev` the other way.
-/

import Xv6.Lib.Writes
import Mathlib.Data.List.Chain
import Mathlib.Data.List.Nodup
import Mathlib.Data.Option.Basic

namespace Xv6.Lib

structure Links (β : Type) where
  next : Option β → Option β
  prev : Option β → Option β

namespace Links

variable {β : Type}

/-- The sentinel alone. -/
def empty : Links β := ⟨fun _ => none, fun _ => none⟩

/-- Follow `f` from a node up to the sentinel, over at most `k` nodes. -/
def walk (f : Option β → Option β) : Nat → Option β → List β
  | 0, _ => []
  | _ + 1, none => []
  | k + 1, some b => b :: walk f k (f (some b))

def Adj (r : Links β) (a b : Option β) : Prop := r.next a = b ∧ r.prev b = a

def Ring (r : Links β) (l : List β) : Prop := List.IsChain (Adj r) (none :: (l.map some ++ [none]))

theorem ring_empty : Ring (empty : Links β) [] := by
  simp [Ring, Adj, empty]

variable {r : Links β} {l : List β} {b : β}

/-- A change of links that the nodes of a chain do not use. -/
theorem chain_frame {r' : Links β} : ∀ {xs : List (Option β)}, List.IsChain (Adj r) xs →
    (∀ a ∈ xs.dropLast, r'.next a = r.next a) → (∀ b ∈ xs.tail, r'.prev b = r.prev b) → List.IsChain (Adj r') xs
  | [], _, _, _ => .nil
  | [_], _, _, _ => .singleton _
  | a :: b :: xs, h, hn, hp => by
    rw [List.isChain_cons_cons] at h ⊢
    refine ⟨⟨(hn a (by simp)).trans h.1.1, (hp b (by simp)).trans h.1.2⟩, ?_⟩
    exact chain_frame h.2 (fun x hx => hn x (by simp [hx])) (fun x hx => hp x (by simp [List.mem_of_mem_tail hx]))

theorem walk_eq (f : Option β → Option β) : ∀ (l : List β) (a : Option β) (k : Nat), l.length ≤ k →
    List.IsChain (fun x y => f x = y) (a :: (l.map some ++ [none])) → walk f k (f a) = l
  | [], a, 0, _, _ => rfl
  | [], a, k + 1, _, h => by
    have ha : f a = none := by simpa using h
    rw [ha]; rfl
  | b :: l, a, k + 1, hk, h => by
    obtain ⟨ha, hl⟩ := List.isChain_cons_cons.mp h
    rw [ha, walk, walk_eq f l (some b) k (Nat.le_of_succ_le_succ hk) hl]

/-- Forwards, the nodes are met in the order of the ring. -/
theorem walk_next (h : Ring r l) {k : Nat} (hk : l.length ≤ k) : walk r.next k (r.next none) = l :=
  walk_eq r.next l none k hk (h.imp fun _ _ h => h.1)

theorem walk_prev (h : Ring r l) {k : Nat} (hk : l.length ≤ k) : walk r.prev k (r.prev none) = l.reverse := by
  refine walk_eq r.prev l.reverse none k (by simpa using hk) ?_
  have hr : none :: (l.reverse.map some ++ [none]) = (none :: (l.map some ++ [none])).reverse := by simp
  rw [hr, List.isChain_reverse]
  exact h.imp fun _ _ h => h.2

/-- Every node but the last of a chain is linked to the next one. -/
theorem chain_next : ∀ {xs : List (Option β)}, List.IsChain (Adj r) xs → ∀ a ∈ xs.dropLast, r.prev (r.next a) = a
  | [], _, a, ha | [_], _, a, ha => nomatch ha
  | x :: y :: xs, h, a, ha => by
    obtain ⟨h1, h2⟩ := List.isChain_cons_cons.mp h
    rcases List.mem_cons.mp ha with rfl | ha
    · rw [h1.1, h1.2]
    · exact chain_next h2 a ha

theorem chain_prev : ∀ {xs : List (Option β)}, List.IsChain (Adj r) xs → ∀ a ∈ xs.tail, r.next (r.prev a) = a
  | [], _, a, ha | [_], _, a, ha => nomatch ha
  | x :: y :: xs, h, a, ha => by
    obtain ⟨h1, h2⟩ := List.isChain_cons_cons.mp h
    rcases List.mem_cons.mp ha with rfl | ha
    · rw [h1.2, h1.1]
    · exact chain_prev h2 a ha

/-- In a ring of all nodes `next` and `prev` are inverse to each other. -/
theorem ring_inverse (h : Ring r l) (hall : ∀ b, b ∈ l) (a : Option β) :
    r.prev (r.next a) = a ∧ r.next (r.prev a) = a := by
  have hd : (none :: (l.map some ++ [none])).dropLast = none :: l.map some := by
    rw [← List.cons_append, List.dropLast_concat]
  refine ⟨chain_next h a ?_, chain_prev h a ?_⟩
  · rw [hd]
    cases a with
    | none => exact .head _
    | some b => simp [hall b]
  · cases a with
    | none => simp
    | some b => simp [hall b]

variable [DecidableEq β]

/-- `b->next->prev = b->prev; b->prev->next = b->next`. -/
def unlink (r : Links β) (b : β) : Links β :=
  let r := { r with prev := upd r.prev (r.next (some b)) (r.prev (some b)) }
  { r with next := upd r.next (r.prev (some b)) (r.next (some b)) }

/-- `b->next = head.next; b->prev = &head; head.next->prev = b; head.next = b`. -/
def pushFront (r : Links β) (b : β) : Links β :=
  let r := { r with next := upd r.next (some b) (r.next none) }
  let r := { r with prev := upd r.prev (some b) none }
  let r := { r with prev := upd r.prev (r.next none) (some b) }
  { r with next := upd r.next none (some b) }

omit [DecidableEq β] in
theorem nodes_nodup (h : l.Nodup) : (l.map some ++ [none]).Nodup := by
  refine List.Nodup.append (h.map (Option.some_injective β)) (List.nodup_singleton _) ?_
  simp [List.Disjoint]

theorem ring_pushFront (h : Ring r l) (hnd : l.Nodup) (hb : b ∉ l) : Ring (r.pushFront b) (b :: l) := by
  have hnodes := nodes_nodup hnd
  have hlast : (l.map some ++ [none]).dropLast = l.map some := List.dropLast_concat
  have hbm : some b ∉ l.map some ++ [none] := by simpa using hb
  have hne : l.map some ++ [none] ≠ [] := by simp
  unfold Ring at h ⊢
  rw [List.map_cons, List.cons_append]
  generalize l.map some ++ [none] = nodes at h hnodes hlast hbm hne ⊢
  cases nodes with
  | nil => exact absurd rfl hne
  | cons x xs =>
    obtain ⟨⟨hx, -⟩, hxs⟩ := List.isChain_cons_cons.mp h
    obtain ⟨hxx, hxb⟩ : x ∉ xs ∧ some b ≠ x := ⟨(List.nodup_cons.mp hnodes).1, fun e => hbm (by simp [e])⟩
    refine List.isChain_cons_cons.mpr ⟨⟨?_, ?_⟩, List.isChain_cons_cons.mpr ⟨⟨?_, ?_⟩, ?_⟩⟩
    · simp [pushFront]
    · simp [pushFront, hx, upd, hxb]
    · simp [pushFront, hx, upd]
    · simp [pushFront, hx, upd]
    · refine chain_frame hxs (fun a ha => ?_) (fun a ha => ?_)
      · rw [hlast] at ha
        obtain ⟨c, hc, rfl⟩ := List.mem_map.mp ha
        have : some c ≠ some b := fun e => hb (Option.some.inj e ▸ hc)
        simp [pushFront, upd, this]
      · have h1 : a ≠ x := fun e => hxx (e ▸ ha)
        have h2 : a ≠ some b := fun e => hbm (.tail _ (e ▸ ha))
        simp [pushFront, hx, upd, h1, h2]

theorem ring_unlink {as cs : List β} (h : Ring r (as ++ b :: cs)) (hnd : (as ++ b :: cs).Nodup) :
    Ring (r.unlink b) (as ++ cs) := by
  obtain ⟨has, hbcs, hdis⟩ := List.nodup_append'.mp hnd
  have hcs := nodes_nodup (List.nodup_cons.mp hbcs).2
  -- the nodes up to `b`'s predecessor `x`, and from its successor `y` on
  obtain ⟨pre, x, hpre⟩ : ∃ pre x, none :: as.map some = pre ++ [x] :=
    ⟨_, _, (List.dropLast_append_getLast (List.cons_ne_nil _ _)).symm⟩
  obtain ⟨y, ys, hpost⟩ : ∃ y ys, cs.map some ++ [none] = y :: ys :=
    List.exists_cons_of_ne_nil (by simp)
  have hxas : (pre ++ [x]).Nodup := by
    rw [← hpre]
    exact List.nodup_cons.mpr ⟨by simp, has.map (Option.some_injective β)⟩
  have hapart : ∀ a ∈ as.map some, a ≠ y := by
    intro a ha e
    have hy : y ∈ cs.map some ++ [none] := hpost ▸ List.mem_cons_self
    obtain ⟨c, hc, rfl⟩ := List.mem_map.mp ha
    rw [← e] at hy
    exact hdis hc (List.mem_cons_of_mem _ (by simpa using hy))
  have hapart' : ∀ a ∈ cs.map some, a ≠ x := by
    intro a ha e
    have hx : x ∈ none :: as.map some := by rw [hpre]; simp
    obtain ⟨c, hc, rfl⟩ := List.mem_map.mp ha
    rw [← e] at hx
    exact hdis (by simpa using hx) (.tail _ hc)
  have hall : none :: ((as ++ b :: cs).map some ++ [none]) = pre ++ x :: some b :: y :: ys := by
    rw [List.map_append, List.map_cons, List.append_assoc, List.cons_append, hpost, ← List.cons_append, hpre]; simp
  have hgoal : none :: ((as ++ cs).map some ++ [none]) = pre ++ x :: y :: ys := by
    rw [List.map_append, List.append_assoc, hpost, ← List.cons_append, hpre]; simp
  unfold Ring at h ⊢
  rw [hall, List.isChain_append_cons_cons, List.isChain_cons_cons] at h
  obtain ⟨h1, ⟨hxb, hbx⟩, ⟨hby, hyb⟩, h2⟩ := h
  have hnext : (r.unlink b).next = upd r.next x y := by
    simp only [unlink, hby, hbx]
    congr 1
    simp only [upd]
    split
    · rfl
    · exact hbx
  have hprev : (r.unlink b).prev = upd r.prev y x := by simp only [unlink, hby, hbx]
  rw [hgoal, List.isChain_append_cons_cons]
  refine ⟨chain_frame h1 (fun a ha => ?_) (fun a ha => ?_), ⟨by simp [hnext], by simp [hprev]⟩,
    chain_frame h2 (fun a ha => ?_) (fun a ha => ?_)⟩
  · rw [List.dropLast_concat] at ha
    have : a ≠ x := fun e => (List.nodup_append'.mp hxas).2.2 (e ▸ ha) (by simp)
    rw [hnext, upd_ne _ _ this]
  · rw [← hpre] at ha
    rw [hprev, upd_ne _ _ (hapart a ha)]
  · rw [← hpost, List.dropLast_concat] at ha
    rw [hnext, upd_ne _ _ (hapart' a ha)]
  · rw [hpost] at hcs
    have : a ≠ y := fun e => (List.nodup_cons.mp hcs).1 (e ▸ ha)
    rw [hprev, upd_ne _ _ this]

/-- Taking a node out and putting it in front leaves a ring of the same nodes. -/
theorem ring_front (h : Ring r l) (hnd : l.Nodup) (hb : b ∈ l) :
    ∃ l', Ring ((r.unlink b).pushFront b) l' ∧ l'.Nodup ∧ ∀ x, x ∈ l' ↔ x ∈ l := by
  obtain ⟨as, cs, rfl⟩ := List.append_of_mem hb
  have hperm : (as ++ b :: cs).Perm (b :: (as ++ cs)) := List.perm_middle
  have hnd' := hperm.nodup_iff.mp hnd
  have ⟨hb', hrest⟩ := List.nodup_cons.mp hnd'
  exact ⟨b :: (as ++ cs), ring_pushFront (ring_unlink h hnd) hrest hb', hnd', fun x => hperm.mem_iff.symm⟩

/-- A ring built by putting distinct nodes in front one by one. -/
theorem ring_foldl (l : List β) : ∀ {r : Links β} {acc : List β}, Ring r acc → (l ++ acc).Nodup →
    Ring (l.foldl (fun r b => r.pushFront b) r) (l.reverse ++ acc) := by
  induction l with
  | nil => intro r acc h _; exact h
  | cons b l ih =>
    intro r acc h hnd
    have hperm : (b :: l ++ acc).Perm (l ++ b :: acc) := by simpa using List.perm_middle.symm
    obtain ⟨hb, hrest⟩ := List.nodup_cons.mp hnd
    have hacc : acc.Nodup := (List.nodup_append'.mp hrest).2.1
    have hpush := ring_pushFront h hacc fun hm => hb (List.mem_append_right _ hm)
    simpa using ih hpush (hperm.nodup_iff.mp hnd)

end Links

end Xv6.Lib
