/-
  Xv6.Fs.Space — whether the disk has room for a write: `need` counts the slots that it looks
  at and finds empty, `free` the blocks that are free. A write of bytes that can be read is
  stored as a whole exactly if there are enough (`filled_all`).
-/

import Mathlib.Data.Finset.Union
import Xv6.Fs.ContentProofs

namespace Xv6.Fs.Space

open Lib Vol

/-- The slots that `bmap` looks at for block `bn` of a file. -/
def bmapSlots (bn : Nat) : Finset Nat := if bn < NDIRECT then {bn} else {NDIRECT, slotOf bn}

/-- The slots of a write of the `n` bytes from `off` on. -/
def touched (off n : Nat) : Finset Nat := (Finset.range n).biUnion fun k => bmapSlots ((off + k) / BSIZE)

/-- How many blocks the file lacks for these bytes. -/
def need (V : Vol) (i off n : Nat) : Nat := ((touched off n).filter fun l => V.slot i l = 0).card

def free (sb : Superblock) (V : Vol) : Nat := ((Finset.range sb.size).filter fun b => V.used b = false).card

section

variable {sb : Superblock} {V V' V'' : Vol} {i off n l : Nat}

theorem mem_bmapSlots {bn : Nat} : l ∈ bmapSlots bn ↔ l = slotOf bn ∨ l = NDIRECT ∧ NDIRECT ≤ bn := by
  unfold bmapSlots slotOf
  split
  · rw [Finset.mem_singleton]
    omega
  · rw [Finset.mem_insert, Finset.mem_singleton]
    omega

theorem mem_touched : l ∈ touched off n ↔ ∃ k < n, l ∈ bmapSlots ((off + k) / BSIZE) := by
  unfold touched
  simp only [Finset.mem_biUnion, Finset.mem_range]

theorem apart_of_not_mem (h : l ∉ touched off n) : Apart off n l := by
  intro x h1 h2
  have hx : l ∉ bmapSlots (x / BSIZE) :=
    fun hl => h (mem_touched.mpr ⟨x - off, by omega, by rw [Nat.add_sub_cancel' h1]; exact hl⟩)
  rw [mem_bmapSlots] at hx
  omega

theorem touched_add {a b : Nat} (h : l ∈ touched off (a + b)) : l ∈ touched off a ∨ l ∈ touched (off + a) b := by
  obtain ⟨k, hk, hl⟩ := mem_touched.mp h
  by_cases hka : k < a
  · exact .inl (mem_touched.mpr ⟨k, hka, hl⟩)
  · refine .inr (mem_touched.mpr ⟨k - a, by omega, ?_⟩)
    rw [Nat.add_assoc, Nat.add_sub_cancel' (Nat.le_of_not_lt hka)]
    exact hl

theorem touched_mono {off' n' : Nat} (h1 : off ≤ off') (h2 : off' + n' ≤ off + n) :
    touched off' n' ⊆ touched off n := by
  intro l hl
  obtain ⟨k, hk, hl⟩ := mem_touched.mp hl
  refine mem_touched.mpr ⟨off' + k - off, by omega, ?_⟩
  rw [Nat.add_sub_cancel' (by omega)]
  exact hl

/-- Writes in the `n` bytes from `off` on took the file from `V` to `V'`. -/
structure Grown (sb : Superblock) (i off n : Nat) (V V' : Vol) : Prop extends Gains i V V' where
  ino : ∀ j, j ≠ i → V'.ino j = V.ino j
  raw : ∀ j, j ≠ i → Live sb V j → ∀ x, V'.raw j x = V.raw j x
  live : ∀ j, Live sb V' j ↔ Live sb V j
  only : ∀ l, l ∉ touched off n → V'.slot i l = V.slot i l

theorem grown_refl : Grown sb i off n V V :=
  ⟨gains_same (fun _ => rfl) rfl, fun _ _ => rfl, fun _ _ _ _ => rfl, fun _ => .rfl, fun _ _ => rfl⟩

theorem grown_trans (h : Grown sb i off n V V') (h' : Grown sb i off n V' V'') : Grown sb i off n V V'' where
  toGains := gains_trans h.toGains h'.toGains
  ino := fun j hj => (h'.ino j hj).trans (h.ino j hj)
  raw := fun j hj hl x => (h'.raw j hj ((h.live j).mpr hl) x).trans (h.raw j hj hl x)
  live := fun j => (h'.live j).trans (h.live j)
  only := fun l hl => (h'.only l hl).trans (h.only l hl)

theorem grown_mono {off' n' : Nat} (h : Grown sb i off' n' V V') (h1 : off ≤ off') (h2 : off' + n' ≤ off + n) :
    Grown sb i off n V V' :=
  { h with only := fun l hl => h.only l fun hm => hl (touched_mono h1 h2 hm) }

variable {ip : Idx} {src : Nat → Option UInt8} {r : Nat}

theorem grown_filled {s t : St} (h : Filled sb s V ip i src off n r t V') {m : Nat} (hm : min n (r + 1) ≤ m) :
    Grown sb i off m V V' :=
  ⟨h.gains, h.ino, h.raw, filled_live h, fun l hl => h.only l fun x h1 h2 => apart_of_not_mem hl x h1 (by omega)⟩

/-- If every block is in use now and the file still lacks one, there were too few. -/
theorem grown_short (h : Grown sb i off n V V') (hfull : ∀ b < sb.size, V'.used b = true) (hl : l ∈ touched off n)
    (h0 : V'.slot i l = 0) : free sb V < need V i off n := by
  have hempty : V.slot i l = 0 := Decidable.by_contra fun hne => hne ((h.keep l hne).symm.trans h0)
  -- each block that was free is in a slot that was empty, and `l` is not such a slot
  have hsub : (Finset.range sb.size).filter (fun b => V.used b = false) ⊆
      (((touched off n).filter fun l => V.slot i l = 0).erase l).image (V'.slot i) := by
    intro b hb
    obtain ⟨hlt, hu⟩ := Finset.mem_filter.mp hb
    obtain ⟨k, hg⟩ := ((h.used b).mp (hfull b (Finset.mem_range.mp hlt))).resolve_left (by rw [hu]; decide)
    have hk : k ∈ touched off n :=
      Decidable.by_contra fun hk => hg.ne (hg.at_.symm.trans ((h.only k hk).trans hg.empty))
    refine Finset.mem_image.mpr ⟨k, Finset.mem_erase.mpr ⟨fun e => ?_, Finset.mem_filter.mpr ⟨hk, hg.empty⟩⟩, hg.at_⟩
    rw [e] at hg
    exact hg.ne (hg.at_.symm.trans h0)
  have hcard := (Finset.card_le_card hsub).trans Finset.card_image_le
  exact hcard.trans_lt (Finset.card_erase_lt_of_mem (Finset.mem_filter.mpr ⟨hl, hempty⟩))

/-- If the file has all the blocks now, there were as many as it lacked. -/
theorem grown_enough (h : Grown sb i off n V V') (hs : Sound sb V') (hi : Live sb V i) {k : Nat}
    (hk : ∀ l ∈ touched off k, V'.slot i l ≠ 0) :
    need V i off k ≤ free sb V := by
  have hi' := (h.live i).mpr hi
  refine Finset.card_le_card_of_injOn (V'.slot i) (fun l hl => ?_) fun l hl l' hl' he => ?_
  · obtain ⟨hl, h0⟩ := Finset.mem_filter.mp hl
    have hg : Gained V V' i l (V'.slot i l) := ⟨h0, rfl, hk l hl⟩
    exact Finset.mem_coe.mpr (Finset.mem_filter.mpr
      ⟨Finset.mem_range.mpr (hs.range i l _ ⟨hi', rfl, hk l hl⟩).2, h.fresh l _ hg⟩)
  · have hm := hk l (Finset.mem_filter.mp hl).1
    exact (hs.once i l i l' _ ⟨hi', rfl, hm⟩ ⟨hi', he.symm, hm⟩).2

/-- An entry of the indirect block is in the indirect block. -/
theorem slot_indirect {bn : Nat} (hbn : NDIRECT ≤ bn) (h : V.addr i bn ≠ 0) : V.slot i NDIRECT ≠ 0 := by
  intro h0
  have hlow : NDIRECT < NDIRECT + 1 := Nat.lt_succ_self _
  have hhigh : ¬ slotOf bn < NDIRECT + 1 := by
    unfold slotOf
    rw [if_neg (Nat.not_lt.mpr hbn)]
    omega
  rw [slot_low _ _ hlow] at h0
  rw [Vol.addr, slot_high _ _ hhigh, if_pos h0] at h
  exact h rfl

/-- After a write that stores all bytes the file has their blocks. -/
theorem filled_there {s t : St} (h : Filled sb s V ip i src off n r t V') : ∀ l ∈ touched off r, V'.slot i l ≠ 0 := by
  intro l hl
  obtain ⟨q, hq, hl⟩ := mem_touched.mp hl
  have hblk := h.there (off + q) (Nat.le_add_right _ _) (Nat.add_lt_add_left hq _)
  rcases mem_bmapSlots.mp hl with rfl | ⟨rfl, hbn⟩
  · exact hblk
  · exact slot_indirect hbn hblk

/-- A source that can be read to its end is stored as a whole exactly if the disk has room. -/
theorem filled_all {s t : St} (h : Filled sb s V ip i src off n r t V') (hi : Live sb V i)
    (hsrc : ∀ q < n, (src q).isSome = true) :
    r = n ↔ need V i off n ≤ free sb V := by
  constructor
  · rintro rfl
    exact grown_enough (grown_filled h (Nat.min_le_left _ _)) h.sound hi (filled_there h)
  · intro hroom
    refine Decidable.by_contra fun hne => ?_
    have hlt : r < n := Nat.lt_of_le_of_ne h.le hne
    obtain ⟨hfull, h0⟩ := filled_full h hsrc hlt
    have hmem : slotOf ((off + r) / BSIZE) ∈ touched off n := mem_touched.mpr ⟨r, hlt, mem_bmapSlots.mpr (.inl rfl)⟩
    exact absurd hroom (Nat.not_le.mpr (grown_short (grown_filled h (Nat.min_le_left _ _)) hfull hmem h0))

end

end Xv6.Fs.Space
