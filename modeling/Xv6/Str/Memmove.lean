/-
  Xv6.Str.Memmove — `memmove` of the kernel (`kernel/string.c`) and of the user library
  (`user/ulib.c`), in place and byte by byte. Pointers are 64 bits wide and compared without a
  sign; the kernel's count is a `uint` and the library's an `int`. The kernel copies from the top
  only if the destination starts inside the source, the library whenever it does not start below
  it. Both leave the original bytes of the source in the destination and everything else alone
  (`memmove_moved`), for all ranges that do not run over the top of the address space.
-/

import Xv6.Lib.Copy

namespace Xv6.Str

open Lib

abbrev Ptr := BitVec 64

abbrev Mem := Ptr → UInt8

/-- `while (n-- > 0) *d++ = *s++;` -/
def copyUp : Nat → Ptr → Ptr → Mem → Mem
  | 0, _, _, m => m
  | n + 1, d, s, m => copyUp n (d + 1) (s + 1) (upd m d (m s))

/-- `while (n-- > 0) *--d = *--s;` -/
def copyDown : Nat → Ptr → Ptr → Mem → Mem
  | 0, _, _, m => m
  | n + 1, d, s, m => copyDown n (d - 1) (s - 1) (upd m (d - 1) (m (s - 1)))

/-- The pointer returned and the memory left. -/
def Kernel.memmove (dst src : Ptr) (n : BitVec 32) (m : Mem) : Ptr × Mem :=
  if n = 0 then (dst, m)
  else if src < dst ∧ src + n.setWidth 64 > dst then
    (dst, copyDown n.toNat (dst + n.setWidth 64) (src + n.setWidth 64) m)
  else (dst, copyUp n.toNat dst src m)

def User.memmove (dst src : Ptr) (n : BitVec 32) (m : Mem) : Ptr × Mem :=
  if src > dst then (dst, copyUp n.toInt.toNat dst src m)
  else (dst, copyDown n.toInt.toNat (dst + n.signExtend 64) (src + n.signExtend 64) m)

/-! ## The loops -/

/-- Byte `i` from `p` on. -/
def Ptr.off (p : Ptr) (i : Nat) : Ptr := p + BitVec.ofNat 64 i

/-- The `n` bytes from `p` on do not run over the top of the address space. -/
def Fits (p : Ptr) (n : Nat) : Prop := p.toNat + n ≤ 18446744073709551616

theorem off_zero (p : Ptr) : p.off 0 = p := by simp [Ptr.off]

theorem off_off (p : Ptr) (i j : Nat) : (p.off i).off j = p.off (i + j) := by
  unfold Ptr.off
  rw [BitVec.ofNat_add, BitVec.add_assoc]

theorem off_toNat {p : Ptr} {n i : Nat} (h : Fits p n) (hi : i < n) : (p.off i).toNat = p.toNat + i := by
  unfold Fits at h
  rw [Ptr.off, BitVec.toNat_add, BitVec.toNat_ofNat]
  omega

/-- The single copies of the two loops. -/
def pair (d s : Ptr) (i : Nat) : Ptr × Ptr := (d.off i, s.off i)

theorem copyUp_eq (n : Nat) : ∀ (d s : Ptr) (m : Mem), copyUp n d s m = copyAll ((List.range n).map (pair d s)) m := by
  induction n with
  | zero => exact fun _ _ _ => rfl
  | succ n ih =>
    intro d s m
    have hnext : pair (d + 1) (s + 1) = pair d s ∘ Nat.succ := funext fun i => by
      have e (p : Ptr) : (p + 1).off i = p.off i.succ := (off_off p 1 i).trans (congrArg p.off (Nat.add_comm 1 i))
      exact Prod.ext (e d) (e s)
    rw [copyUp, ih, List.range_succ_eq_map, List.map_cons, List.map_map, copyAll, hnext, pair, off_zero, off_zero]

theorem copyDown_eq (n : Nat) : ∀ (d s : Ptr) (m : Mem),
    copyDown n (d.off n) (s.off n) m = copyAll ((List.range n).reverse.map (pair d s)) m := by
  induction n with
  | zero => exact fun _ _ _ => rfl
  | succ n ih =>
    intro d s m
    have e (p : Ptr) : p.off (n + 1) - 1 = p.off n := by
      rw [← off_off]
      exact BitVec.add_sub_cancel _ _
    rw [copyDown, e, e, ih, List.range_succ, List.reverse_append]
    rfl

/-! ## Moves -/

/-- What a move of `n` bytes makes of the memory. -/
structure Moved (dst src : Ptr) (n : Nat) (m m' : Mem) : Prop where
  copied : ∀ i < n, m' (dst.off i) = m (src.off i)
  kept : ∀ a, (∀ i < n, a ≠ dst.off i) → m' a = m a

theorem moved_all {dst src : Ptr} {n : Nat} {is : List Nat} (hmem : ∀ i, i ∈ is ↔ i < n)
    (hp : (is.map (pair dst src)).Pairwise Spares) (m : Mem) :
    Moved dst src n m (copyAll (is.map (pair dst src)) m) := by
  refine ⟨fun i hi => ?_, fun a ha => ?_⟩
  · exact copyAll_spec m hp _ (List.mem_map_of_mem ((hmem i).mpr hi))
  · refine copyAll_ne m fun p hp => ?_
    obtain ⟨i, hi, rfl⟩ := List.mem_map.mp hp
    exact ha i ((hmem i).mp hi)

section

variable {dst src : Ptr} {n : Nat} (hd : Fits dst n) (hs : Fits src n)

include hd hs

theorem spares_pair {i j : Nat} (hi : i < n) (hj : j < n) (hij : i ≠ j) (h : dst.toNat + i ≠ src.toNat + j) :
    Spares (pair dst src i) (pair dst src j) := by
  refine ⟨fun e => hij ?_, fun e => h ?_⟩
  · have := congrArg BitVec.toNat e
    rw [pair, pair, off_toNat hd hi, off_toNat hd hj] at this
    omega
  · have := congrArg BitVec.toNat e
    rwa [pair, pair, off_toNat hd hi, off_toNat hs hj] at this

theorem moved_up (h : dst.toNat ≤ src.toNat ∨ src.toNat + n ≤ dst.toNat) (m : Mem) :
    Moved dst src n m (copyUp n dst src m) := by
  rw [copyUp_eq]
  refine moved_all (fun i => List.mem_range) (List.pairwise_map.mpr ?_) m
  refine List.pairwise_lt_range.imp_of_mem fun {i j} hi hj hij => ?_
  rw [List.mem_range] at hi hj
  exact spares_pair hd hs hi hj (by omega) (by omega)

theorem moved_down (h : src.toNat ≤ dst.toNat) (m : Mem) :
    Moved dst src n m (copyDown n (dst.off n) (src.off n) m) := by
  rw [copyDown_eq]
  refine moved_all (fun i => by rw [List.mem_reverse, List.mem_range]) (List.pairwise_map.mpr ?_) m
  refine List.pairwise_reverse.mpr (List.pairwise_lt_range.imp_of_mem fun {i j} hi hj hij => ?_)
  rw [List.mem_range] at hi hj
  exact spares_pair hd hs hj hi (by omega) (by omega)

end

theorem setWidth_ofNat (n : BitVec 32) : n.setWidth 64 = BitVec.ofNat 64 n.toNat := by
  refine BitVec.eq_of_toNat_eq ?_
  rw [BitVec.toNat_setWidth, BitVec.toNat_ofNat]

theorem kernel_moved {dst src : Ptr} {n : BitVec 32} (hd : Fits dst n.toNat) (hs : Fits src n.toNat) (m : Mem) :
    Moved dst src n.toNat m (Kernel.memmove dst src n m).2 := by
  unfold Kernel.memmove
  rw [setWidth_ofNat]
  split
  · next h =>
    rw [h]
    exact ⟨fun i hi => absurd hi (Nat.not_lt_zero i), fun _ _ => rfl⟩
  split
  · next h => exact moved_down hd hs (Nat.le_of_lt (BitVec.lt_def.mp h.1)) m
  · next hn h =>
    refine moved_up hd hs ?_ m
    -- the source ends at the top of the address space only if it is not below the destination
    unfold Fits at hd hs
    simp only [BitVec.lt_def, gt_iff_lt, BitVec.toNat_add, BitVec.toNat_ofNat] at h
    omega

theorem user_moved {dst src : Ptr} {n : BitVec 32} (hn : 0 ≤ n.toInt) (hd : Fits dst n.toInt.toNat)
    (hs : Fits src n.toInt.toNat) (m : Mem) : Moved dst src n.toInt.toNat m (User.memmove dst src n m).2 := by
  unfold User.memmove
  split
  · next h => exact moved_up hd hs (.inl (Nat.le_of_lt (BitVec.lt_def.mp h))) m
  · next h =>
    have e : BitVec.ofInt 64 n.toInt = BitVec.ofNat 64 n.toInt.toNat := by
      rw [← BitVec.ofInt_natCast, Int.toNat_of_nonneg hn]
    rw [BitVec.signExtend, e]
    exact moved_down hd hs (Nat.le_of_not_lt fun h' => h (BitVec.lt_def.mpr h')) m

/-- Both functions move any `n` bytes between any two ranges, however they overlap. -/
theorem memmove_moved (dst src : Ptr) (m : Mem) :
    (∀ n : BitVec 32, Fits dst n.toNat → Fits src n.toNat →
      (Kernel.memmove dst src n m).1 = dst ∧ Moved dst src n.toNat m (Kernel.memmove dst src n m).2) ∧
    ∀ n : BitVec 32, 0 ≤ n.toInt → Fits dst n.toInt.toNat → Fits src n.toInt.toNat →
      (User.memmove dst src n m).1 = dst ∧ Moved dst src n.toInt.toNat m (User.memmove dst src n m).2 := by
  refine ⟨fun n hd hs => ⟨?_, kernel_moved hd hs m⟩, fun n hn hd hs => ⟨?_, user_moved hn hd hs m⟩⟩
  · unfold Kernel.memmove
    split
    · rfl
    · split <;> rfl
  · unfold User.memmove
    split <;> rfl

theorem memmove_moved_overlapping :
    (Kernel.memmove 1 0 3 fun a => UInt8.ofNat a.toNat).1 = 1 ∧
    Moved 1 0 3 (fun a => UInt8.ofNat a.toNat) (Kernel.memmove 1 0 3 fun a => UInt8.ofNat a.toNat).2 ∧
    Moved 1 0 3 (fun a => UInt8.ofNat a.toNat) (User.memmove 1 0 3 fun a => UInt8.ofNat a.toNat).2 := by
  obtain ⟨hk, hu⟩ := memmove_moved 1 0 fun a => UInt8.ofNat a.toNat
  have h1 : Fits 1 3 := by simp [Fits]
  have h0 : Fits 0 3 := by simp [Fits]
  exact ⟨(hk 3 h1 h0).1, (hk 3 h1 h0).2, (hu 3 (by decide) h1 h0).2⟩

end Xv6.Str
