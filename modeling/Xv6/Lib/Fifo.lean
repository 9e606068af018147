/-
  Xv6.Lib.Fifo — a circular buffer under free-running counters of `w` bits that wrap. The
  buffer has `N` cells, and `N` divides the number of counter values, so a counter picks its
  cell by its remainder, also across a wrap. `contents b r n` are the `n` entries from counter
  `r` on.
-/

import Mathlib.Data.List.Range
import Xv6.Lib.Writes

namespace Xv6.Lib.Fifo

variable {w N : Nat} (hN : 0 < N) {α : Type}

def values (w : Nat) : Nat := Nat.pow 2 w

def slot (i : BitVec w) : Fin N := ⟨i.toNat % N, Nat.mod_lt _ hN⟩

def adv (r : BitVec w) (n : Nat) : BitVec w := r + BitVec.ofNat w n

def contents (b : Fin N → α) (r : BitVec w) (n : Nat) : List α := (List.range n).map fun j => b (slot hN (adv r j))

@[simp] theorem adv_zero (r : BitVec w) : adv r 0 = r := by simp [adv]

theorem adv_adv (r : BitVec w) (i j : Nat) : adv (adv r i) j = adv r (i + j) := by
  unfold adv
  rw [BitVec.add_assoc, ← BitVec.ofNat_add]

theorem adv_one (r : BitVec w) : adv r 1 = r + 1#w := rfl

@[simp] theorem length_contents (b : Fin N → α) (r : BitVec w) (n : Nat) :
    (contents hN b r n).length = n := by simp [contents]

theorem contents_succ (b : Fin N → α) (r : BitVec w) (n : Nat) :
    contents hN b r (n + 1) = contents hN b r n ++ [b (slot hN (adv r n))] := by
  unfold contents
  rw [List.range_succ, List.map_append]
  rfl

theorem contents_add (b : Fin N → α) (r : BitVec w) (m n : Nat) :
    contents hN b r (m + n) = contents hN b r m ++ contents hN b (adv r m) n := by
  induction n with
  | zero => exact (List.append_nil _).symm
  | succ n ih => rw [← Nat.add_assoc, contents_succ, contents_succ, ih, adv_adv, List.append_assoc]

theorem contents_cons (b : Fin N → α) (r : BitVec w) (n : Nat) :
    contents hN b r (n + 1) = b (slot hN r) :: contents hN b (adv r 1) n := by
  rw [Nat.add_comm, contents_add, contents_succ, adv_zero]
  rfl

theorem slot_adv (hd : N ∣ values w) (r : BitVec w) (n : Nat) : (slot hN (adv r n)).val = (r.toNat + n) % N := by
  show (r + BitVec.ofNat w n).toNat % N = _
  have hd' : N ∣ 2 ^ w := hd
  rw [BitVec.toNat_add, BitVec.toNat_ofNat, Nat.mod_mod_of_dvd _ hd']
  conv_rhs => rw [Nat.add_mod]
  rw [Nat.add_mod, Nat.mod_mod_of_dvd _ hd']

/-- Entries less than `N` apart are in different cells. -/
theorem slot_ne (hd : N ∣ values w) (r : BitVec w) {i j : Nat} (hij : i < j) (hj : j < i + N) :
    slot hN (adv r i) ≠ slot hN (adv r j) := by
  intro h
  have hv := congrArg Fin.val h
  rw [slot_adv hN hd, slot_adv hN hd] at hv
  have hdvd : N ∣ (r.toNat + j) - (r.toNat + i) := Nat.dvd_of_mod_eq_zero (Nat.sub_mod_eq_zero_of_mod_eq hv.symm)
  have := Nat.le_of_dvd (by omega) hdvd
  omega

variable {n : Nat} {r e : BitVec w}

theorem contents_upd (hd : N ∣ values w) (b : Fin N → α) (r : BitVec w) {k : Nat} (hnk : n ≤ k) (hk : k < N) (x : α) :
    contents hN (upd b (slot hN (adv r k)) x) r n = contents hN b r n := by
  refine List.map_congr_left fun j hj => ?_
  have hjn := List.mem_range.mp hj
  exact upd_ne _ _ (slot_ne hN hd r (by omega) (by omega))

/-! ## The distance of two counters -/

def dist (r e : BitVec w) : Nat := (e - r).toNat

theorem dist_lt (r e : BitVec w) : dist r e < values w := (e - r).isLt

theorem adv_dist (r e : BitVec w) : adv r (dist r e) = e := by
  unfold adv dist
  rw [BitVec.ofNat_toNat, BitVec.setWidth_eq]
  rw [BitVec.add_comm]
  exact BitVec.sub_add_cancel e r

theorem dist_adv (r : BitVec w) (h : n < values w) : dist r (adv r n) = n := by
  have h' : n < 2 ^ w := h
  unfold dist adv
  rw [BitVec.add_comm, BitVec.add_sub_cancel, BitVec.toNat_ofNat, Nat.mod_eq_of_lt h']

theorem dist_eq_zero : dist r e = 0 ↔ r = e := by
  constructor
  · intro h
    rw [← adv_dist r e, h, adv_zero]
  · intro h
    rw [h]
    unfold dist
    rw [BitVec.sub_self]
    rfl

theorem dist_succ_right (h : dist r e + 1 < values w) : dist r (e + 1#w) = dist r e + 1 := by
  have he : e + 1#w = adv r (dist r e + 1) := by rw [← adv_adv, adv_dist, adv_one]
  rw [he, dist_adv r h]

theorem dist_succ_left (h : dist r e = n + 1) : dist (r + 1#w) e = n := by
  have he : e = adv (r + 1#w) n := by rw [← adv_one, adv_adv, Nat.add_comm, ← h, adv_dist]
  have hlt := dist_lt r e
  rw [he, dist_adv _ (by omega)]

theorem dist_pred_right (h : dist r e = n + 1) : dist r (e - 1#w) = n := by
  have hlt := dist_lt r e
  have he : e - 1#w = adv r n := by
    rw [← adv_dist r e, h, ← adv_adv, adv_one, BitVec.add_sub_cancel]
  rw [he, dist_adv _ (by omega)]

theorem dist_add {m : BitVec w} (h : dist r m ≤ dist r e) : dist m e = dist r e - dist r m := by
  have hlt := dist_lt r e
  have he : e = adv m (dist r e - dist r m) := by
    have h1 : dist r m + (dist r e - dist r m) = dist r e := by omega
    rw [← adv_dist r m, adv_adv, dist_adv r (dist_lt r m), h1, adv_dist]
  rw [he, dist_adv _ (by omega)]
  rw [← he]

/-! ## The entries between two counters -/

def queue (b : Fin N → α) (r e : BitVec w) : List α := contents hN b r (dist r e)

theorem length_queue (b : Fin N → α) (r e : BitVec w) : (queue hN b r e).length = dist r e := length_contents hN b r _

theorem queue_nil (b : Fin N → α) (h : r = e) : queue hN b r e = [] := by
  unfold queue
  rw [dist_eq_zero.mpr h]
  rfl

/-- A write at the last counter, which is free. -/
theorem queue_write (hd : N ∣ values w) (b : Fin N → α) (h : dist r e < N) (x : α) :
    queue hN (upd b (slot hN e) x) r e = queue hN b r e := by
  have hw := contents_upd hN hd b r (le_refl (dist r e)) h x
  rwa [adv_dist] at hw

theorem queue_push (b : Fin N → α) (h : dist r e + 1 < values w) :
    queue hN b r (e + 1#w) = queue hN b r e ++ [b (slot hN e)] := by
  unfold queue
  rw [dist_succ_right h, contents_succ, adv_dist]

theorem queue_pop (b : Fin N → α) (h : r ≠ e) : queue hN b r e = b (slot hN r) :: queue hN b (r + 1#w) e := by
  obtain ⟨n, hn⟩ := Nat.exists_eq_succ_of_ne_zero fun h0 => h (dist_eq_zero.mp h0)
  unfold queue
  rw [hn, dist_succ_left hn, contents_cons]
  rfl

end Xv6.Lib.Fifo
