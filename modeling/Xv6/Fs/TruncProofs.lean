/-
  Xv6.Fs.TruncProofs — `itrunc` releases each block of its inode once and no other, in
  either loop, so `bfree` finds every bit set. `Cut` is where it stands on the way,
  `Emptied` where it ends; freeing the inode itself (`iput`) only changes the type on top.
-/

import Xv6.Fs.BmapProofs

namespace Xv6.Fs

open Lib Vol

variable {sb : Superblock} {s t : St} {V V' W : Vol} {dirty : Option Idx} {ip : Idx} {i : Nat} {E : Panic → Prop}
  {R : Log.LogSt → Prop}

/-! ## An inode without blocks -/

/-- `V'` is `V` with the blocks of inode `i` released, and `i` itself empty and of type `ty`. -/
structure Emptied (V V' : Vol) (i : Nat) (ty : Int16) : Prop where
  ino : ∀ j, j ≠ i → V'.ino j = V.ino j
  hdr : V'.ino i = { V.ino i with type := ty, size := 0, addrs := fun _ => 0 }
  blk : V'.blk = V.blk
  used : ∀ b, V'.used b = true ↔ V.used b = true ∧ ∀ k, V.slot i k = b → b = 0

section

variable {ty : Int16} (h : Emptied V V' i ty)

include h

theorem emptied_slot_self (k : Nat) : V'.slot i k = 0 := by
  have h0 : ∀ l, (V'.ino i).addr l = 0 := fun l => by
    rw [h.hdr, Dinode.addr]
    split <;> rfl
  by_cases hk : k < NDIRECT + 1
  · rw [slot_low _ _ hk, h0]
  · rw [slot_high _ _ hk, if_pos (h0 _)]

variable {j : Nat}

theorem emptied_slot (hj : j ≠ i) (k : Nat) : V'.slot j k = V.slot j k :=
  slot_congr k (fun l => by rw [h.ino j hj]) fun _ => by rw [h.blk]

theorem emptied_holds (j k b : Nat) : Holds sb V' j k b ↔ j ≠ i ∧ Holds sb V j k b := by
  constructor
  · rintro ⟨hl, he, hb⟩
    have hj : j ≠ i := by
      rintro rfl
      exact hb (he.symm.trans (emptied_slot_self h k))
    exact ⟨hj, ⟨hl.1, by rw [← h.ino j hj]; exact hl.2⟩, by rw [← emptied_slot h hj]; exact he, hb⟩
  · rintro ⟨hj, hl, he, hb⟩
    exact ⟨⟨hl.1, by rw [h.ino j hj]; exact hl.2⟩, by rw [emptied_slot h hj]; exact he, hb⟩

theorem emptied_sound (hs : Sound sb V) (hi : Live sb V i) : Sound sb V' := by
  refine ⟨fun j k b hb => hs.range j k b ((emptied_holds h j k b).mp hb).2, fun j k j' k' b hb hb' => ?_,
    fun j k b hb => ?_,
    fun b hb => (h.used b).mpr ⟨hs.sys b hb, fun k he => ?_⟩⟩
  · exact hs.once j k j' k' b ((emptied_holds h j k b).mp hb).2 ((emptied_holds h j' k' b).mp hb').2
  · obtain ⟨hj, hb'⟩ := (emptied_holds h j k b).mp hb
    -- a block of another inode is none of the released ones
    refine (h.used b).mpr ⟨hs.marked j k b hb', fun l he => ?_⟩
    exact Decidable.by_contra fun hb0 => hj (hs.once j k i l b hb' ⟨hi, he, hb0⟩).1
  · refine Decidable.by_contra fun hb0 => ?_
    have := (hs.range i k b ⟨hi, he, hb0⟩).1
    omega

theorem emptied_noLeak (hn : NoLeak sb V) : NoLeak sb V' := by
  intro b hb hu
  obtain ⟨hu', hfree⟩ := (h.used b).mp hu
  rcases hn b hb hu' with hm | ⟨j, k, hjk⟩
  · exact .inl hm
  · refine .inr ⟨j, k, (emptied_holds h j k b).mpr ⟨?_, hjk⟩⟩
    rintro rfl
    exact hjk.ne (hfree k hjk.at_)

theorem emptied_raw (hj : j ≠ i) (x : Nat) : V'.raw j x = V.raw j x := by
  have ha : V'.addr j (x / BSIZE) = V.addr j (x / BSIZE) := emptied_slot h hj _
  rw [raw, raw, ha, h.blk]

theorem emptied_holeFree (hf : ∀ j, Live sb V j → HoleFree V j) (hj : Live sb V' j) : HoleFree V' j := by
  intro bn hbn
  by_cases e : j = i
  · subst e
    rw [h.hdr] at hbn
    exact absurd hbn (Nat.not_lt_zero _)
  · have hj' : Live sb V j := ⟨hj.1, by rw [← h.ino j e]; exact hj.2⟩
    rw [h.ino j e] at hbn
    have ha : V'.addr j bn = V.addr j bn := emptied_slot h e _
    rw [ha]
    exact hf j hj' bn hbn

end

/-! ## On the way -/

structure Cut (V W : Vol) (i z : Nat) (S : Nat → Prop) : Prop where
  ino : ∀ j, j ≠ i → W.ino j = V.ino j
  hdr : W.ino i = { V.ino i with addrs := (W.ino i).addrs }
  addr : ∀ k, (W.ino i).addr k = if k < z then 0 else (V.ino i).addr k
  blk : W.blk = V.blk
  used : ∀ b, W.used b = true ↔ V.used b = true ∧ ∀ k, S k → V.slot i k = b → b = 0

variable {z k : Nat} {S S' : Nat → Prop}

theorem cut_start (hS : ∀ k, ¬ S k) : Cut V V i 0 S :=
  ⟨fun _ _ => rfl, rfl, fun _ => rfl, rfl, fun _ => ⟨fun h => ⟨h, fun k hk => absurd hk (hS k)⟩, And.left⟩⟩

section

variable (h : Cut V W i z S)

include h

theorem cut_skip (hS : ∀ l, S' l → S l ∨ V.slot i l = 0) (hS' : ∀ l, S l → S' l) : Cut V W i z S' where
  ino := h.ino
  hdr := h.hdr
  addr := h.addr
  blk := h.blk
  used := by
    intro b
    rw [h.used b]
    refine and_congr_right fun _ => ⟨fun hb l hl he => ?_, fun hb l hl he => hb l (hS' l hl) he⟩
    rcases hS l hl with h1 | h1
    · exact hb l h1 he
    · exact he.symm.trans h1

/-- The next slot holds a block, and it is still marked. -/
theorem cut_used (hs : Sound sb V) (hi : Live sb V i) (h0 : V.slot i k ≠ 0) (hk : ¬ S k) :
    W.used (V.slot i k) = true := by
  have hh : Holds sb V i k (V.slot i k) := ⟨hi, rfl, h0⟩
  refine (h.used _).mpr ⟨hs.marked i k _ hh, fun l hl he => ?_⟩
  have : l = k := (hs.once i l i k _ ⟨hi, he, h0⟩ hh).2
  exact absurd (this ▸ hl) hk

theorem cut_release (h0 : V.slot i k ≠ 0) (hS : ∀ l, S' l ↔ S l ∨ l = k) :
    Cut V (W.release (V.slot i k)) i z S' where
  ino := h.ino
  hdr := h.hdr
  addr := h.addr
  blk := h.blk
  used := by
    intro b
    by_cases hb : b = V.slot i k
    · subst hb
      simp only [release, upd_same, Bool.false_eq_true, false_iff]
      rintro ⟨_, hall⟩
      exact h0 (hall k ((hS k).mpr (.inr rfl)) rfl)
    · simp only [release, upd_ne _ _ hb]
      rw [h.used b]
      refine and_congr_right fun _ => ⟨fun hall l hl he => ?_, fun hall l hl he => hall l ((hS l).mpr (.inl hl)) he⟩
      rcases (hS l).mp hl with h1 | rfl
      · exact hall l h1 he
      · exact absurd he.symm hb

theorem cut_zero (hz : z < NDIRECT + 1) : Cut V (W.setIno i ((W.ino i).setAddr z 0)) i (z + 1) S where
  ino := fun j hj => by rw [← h.ino j hj]; exact upd_ne _ _ hj
  hdr := by
    simp only [setIno, upd_same, Dinode.setAddr]
    rw [h.hdr]
  addr := by
    intro k
    simp only [setIno, upd_same]
    rw [Dinode.addr_setAddr _ _ hz]
    by_cases hk : k = z
    · rw [if_pos hk, if_pos (by omega)]
    · rw [if_neg hk, h.addr k]
      by_cases hkz : k < z
      · rw [if_pos hkz, if_pos (by omega)]
      · rw [if_neg hkz, if_neg (by omega)]
  blk := h.blk
  used := h.used

theorem cut_pass (h0 : (V.ino i).addr z = 0) : Cut V W i (z + 1) S where
  ino := h.ino
  hdr := h.hdr
  addr := by
    intro k
    rw [h.addr k]
    by_cases hk : k = z
    · subst hk
      rw [if_neg (Nat.lt_irrefl _), if_pos (Nat.lt_succ_self _), h0]
    · by_cases hkz : k < z
      · rw [if_pos hkz, if_pos (by omega)]
      · rw [if_neg hkz, if_neg (by omega)]
  blk := h.blk
  used := h.used

end

theorem zero_holds {j l c : Nat} (hz : z < NDIRECT + 1) (h : Holds sb (W.setIno i ((W.ino i).setAddr z 0)) j l c) :
    Holds sb W j l c := by
  have ht : ((W.ino i).setAddr z 0).type = (W.ino i).type := rfl
  refine ⟨(setIno_live ht j).mp h.live, ?_, h.ne⟩
  have hat := h.at_
  by_cases e : j = i
  · subst e
    by_cases hl : l < NDIRECT + 1
    · rw [slot_low _ _ hl] at hat ⊢
      simp only [setIno, upd_same] at hat
      rw [Dinode.addr_setAddr _ _ hz] at hat
      by_cases hlz : l = z
      · rw [if_pos hlz] at hat
        exact absurd hat.symm h.ne
      · rwa [if_neg hlz] at hat
    · rw [slot_high _ _ hl] at hat ⊢
      simp only [setIno, upd_same] at hat
      rw [Dinode.addr_setAddr _ _ hz] at hat
      by_cases hz12 : NDIRECT = z
      · rw [if_pos hz12] at hat
        exact absurd hat.symm h.ne
      · rwa [if_neg hz12] at hat
  · rw [← hat]
    symm
    apply slot_congr
    · intro a
      simp only [setIno, upd_ne _ _ e]
    · intro _
      rfl

theorem cut_done (h : Cut V W i (NDIRECT + 1) fun k => k < NDIRECT + 1 + NINDIRECT) :
    Emptied V (W.setIno i ((W.ino i).setSize 0)) i (V.ino i).type where
  ino := fun j hj => by rw [← h.ino j hj]; exact upd_ne _ _ hj
  hdr := by
    have ha : (W.ino i).addrs = fun _ => 0 := by
      funext k
      have hk := h.addr k.1
      rw [if_pos k.2, Dinode.addr, dif_pos k.2] at hk
      exact hk
    simp only [setIno, upd_same, Dinode.setSize]
    rw [h.hdr, ha]
  blk := h.blk
  used := by
    intro b
    simp only [setIno]
    rw [h.used b]
    refine and_congr_right fun _ => ⟨fun hall k he => ?_, fun hall k _ he => hall k he⟩
    by_cases hk : k < NDIRECT + 1 + NINDIRECT
    · exact hall k hk he
    · rw [← he, slot_past V i (by omega)]

variable {Q : Unit → St → Prop}

/-- The place in either loop where a released block's address is zeroed. -/
theorem zeroAddr_spec (h : Rep sb s W (some ip)) (hp : Loaded s ip i) (hc : Cut V W i z S)
    (hz : z < NDIRECT + 1)
    (hq : ∀ t W', Rep sb t W' (some ip) → Tame sb s W t W' → t.inode = putIno s ip (W'.ino i) →
      Cut V W' i (z + 1) S → t.log = s.log → Q () t) :
    wp (setInode ip fun x => { x with toDinode := x.setAddr z 0 }) Q E s := by
  have hino : (s.inode ip).toDinode = W.ino i := loaded_ino h hp
  have htype : ((W.ino i).setAddr z 0).type = (W.ino i).type := rfl
  refine wp_setIno (d := (W.ino i).setAddr z 0) (by rw [← hino]) ?_
  have hfit := Dinode.fits_setAddr (h.fits i (loaded_lt h hp)) hz (by decide : 0 < 4294967296)
  refine hq _ _ (rep_putIno h hp hfit fun e he => by cases he; rfl) ?_ ?_ (cut_zero hc hz) rfl
  · exact ⟨rfl, rfl, rfl, rfl, rfl, fun _ => id, fun _ _ => .inl rfl,
      fun j l c hjc _ => ⟨zero_holds hz hjc, setIno_type htype j⟩⟩
  · simp only [setIno, upd_same]

/-! ## The loops -/

theorem itruncDirect_spec (hl : sb.Layout) (hs : Sound sb V) (hi : Live sb V i)
    (hB : ∀ k, V.slot i k ≠ 0 → Logs E (sb.BBLOCK (V.slot i k)) R R) (fuel : Nat) :
    ∀ (s : St) (W : Vol) (m : Nat), m + fuel = NDIRECT → Rep sb s W (some ip) → Loaded s ip i →
    Cut V W i m (· < m) → R s.log →
      ∀ {Q : Unit → St → Prop}, (∀ t W', Rep sb t W' (some ip) → Tame sb s W t W' → t.inode = putIno s ip (W'.ino i) →
        Cut V W' i NDIRECT (· < NDIRECT) → R t.log → Q () t) → wp (itruncDirect sb ip fuel m) Q E s := by
  induction fuel with
  | zero =>
    intro s W m hm h hp hc hr Q hq
    have hm' : m = NDIRECT := hm
    subst hm'
    exact hq s W h tame_refl (putIno_self h hp).symm hc hr
  | succ fuel ih =>
    intro s W m hm h hp hc hr Q hq
    have hm12 : m < NDIRECT + 1 := by omega
    have hslot : V.slot i m = (V.ino i).addr m := slot_low _ _ hm12
    have haddr : (s.inode ip).addr m = V.slot i m := by
      rw [hslot, loaded_ino h hp, hc.addr m, if_neg (Nat.lt_irrefl _)]
    rw [itruncDirect, wp_bind, wp_getInode, haddr]
    by_cases h0 : V.slot i m = 0
    · rw [if_pos h0]
      have hc' : Cut V W i (m + 1) (· < m + 1) := by
        refine cut_pass (cut_skip hc (fun l hl' => ?_) fun l hl' => Nat.lt_succ_of_lt hl') (hslot ▸ h0)
        rcases Nat.lt_succ_iff_lt_or_eq.mp hl' with h1 | rfl
        · exact .inl h1
        · exact .inr h0
      exact ih s W (m + 1) (by omega) h hp hc' hr hq
    · rw [if_neg h0, wp_bind]
      have hrange := hs.range i m _ ⟨hi, rfl, h0⟩
      refine bfree_spec hl h hrange.2 (cut_used hc hs hi h0 (Nat.lt_irrefl _)) (hB m h0) hr fun t1 h1 ht1 hi1 hr1 => ?_
      refine wp_then (zeroAddr_spec h1 (loaded_same hi1 hp) (cut_release hc h0 fun l => Nat.lt_succ_iff_lt_or_eq) hm12
        fun t2 W2 h2 ht2 hi2 hc2 hl2 => ?_)
      have hp2 := loaded_put hi2 (loaded_same hi1 hp)
      refine ih t2 W2 (m + 1) (by omega) h2 hp2 hc2 (hl2 ▸ hr1) fun t W' h3 ht3 hi3 hc3 hr3 => ?_
      refine hq t W' h3 (tame_trans ht1 (tame_trans ht2 ht3)) ?_ hc3 hr3
      rw [hi3, putIno_again hi2]
      simp only [putIno, hi1]

theorem itruncIndirect_spec (hl : sb.Layout) (hs : Sound sb V) (hi : Live sb V i) (h12 : (V.ino i).addr NDIRECT ≠ 0)
    (hB : ∀ k, V.slot i k ≠ 0 → Logs E (sb.BBLOCK (V.slot i k)) R R) (fuel : Nat) :
    ∀ (s : St) (W : Vol) (j : Nat), j + fuel = NINDIRECT → Rep sb s W dirty →
      Cut V W i NDIRECT (fun k => k < NDIRECT + 1 + j ∧ k ≠ NDIRECT) → R s.log → ∀ {Q : Unit → St → Prop},
      (∀ t W', Rep sb t W' dirty → Tame sb s W t W' → t.inode = s.inode → W'.ino = W.ino →
        Cut V W' i NDIRECT (fun k => k < NDIRECT + 1 + NINDIRECT ∧ k ≠ NDIRECT) → R t.log → Q () t) →
      wp (itruncIndirect sb (V.blk ((V.ino i).addr NDIRECT)) fuel j) Q E s := by
  induction fuel with
  | zero =>
    intro s W j hj h hc hr Q hq
    have hj' : j = NINDIRECT := hj
    subst hj'
    exact hq s W h tame_refl rfl rfl hc hr
  | succ fuel ih =>
    intro s W j hj h hc hr Q hq
    have hslot : V.slot i (NDIRECT + 1 + j) = entry (V.blk ((V.ino i).addr NDIRECT)) j := by
      rw [slot_high _ _ (by omega), if_neg h12, Nat.add_sub_cancel_left]
    have hnext : ∀ l, (l < NDIRECT + 1 + (j + 1) ∧ l ≠ NDIRECT) ↔
        (l < NDIRECT + 1 + j ∧ l ≠ NDIRECT) ∨ l = NDIRECT + 1 + j := fun l => by omega
    rw [itruncIndirect, ← hslot]
    by_cases h0 : V.slot i (NDIRECT + 1 + j) = 0
    · rw [if_pos h0]
      refine ih s W (j + 1) (by omega) h (cut_skip hc (fun l hl' => ?_) fun l hl' => (hnext l).mpr (.inl hl')) hr hq
      rcases (hnext l).mp hl' with h1 | rfl
      · exact .inl h1
      · exact .inr h0
    · rw [if_neg h0, wp_bind]
      have hrange := hs.range i _ _ ⟨hi, rfl, h0⟩
      refine bfree_spec hl h hrange.2 (cut_used hc hs hi h0 fun h' => Nat.lt_irrefl _ h'.1) (hB _ h0) hr
        fun t1 h1 ht1 hi1 hr1 => ?_
      refine ih t1 _ (j + 1) (by omega) h1 (cut_release hc h0 hnext) hr1 fun t W' h2 ht2 hi2 hino2 hc2 hr2 => ?_
      exact hq t W' h2 (tame_trans ht1 ht2) (hi2.trans hi1) hino2 hc2 hr2

/-- The last step: the size, and the inode goes to its block. -/
theorem truncDone_spec (hl : sb.Layout) (h : Rep sb s W (some ip)) (hp : Loaded s ip i) (hi : Live sb V i)
    (hI : Logs E (sb.IBLOCK i) R R) (hr : R s.log)
    (hc : Cut V W i (NDIRECT + 1) fun k => k < NDIRECT + 1 + NINDIRECT)
    (hq : ∀ t V', Rep sb t V' none → Tame sb s W t V' → t.inode = putIno s ip (V'.ino i) →
      Emptied V V' i (V.ino i).type → R t.log → Q () t) :
    wp (setInode ip (fun x => { x with size := 0 }) >>= fun _ => iupdate sb ip) Q E s := by
  have hino : (s.inode ip).toDinode = W.ino i := loaded_ino h hp
  have ht : (W.ino i).type = (V.ino i).type := by rw [hc.hdr]
  have hwp : wp (setInode ip (fun x => { x with size := 0 }) >>= fun _ => iupdate sb ip >>= fun _ =>
      pure ()) Q E s := by
    refine wp_update hl h hp (fun e he => by cases he; rfl) (d := (W.ino i).setSize 0) (by rw [← hino]; rfl)
      (Dinode.fits_setSize (h.fits i (loaded_lt h hp)) (by decide)) rfl rfl (ht ▸ hi.2) hI hr
      fun u h1 h2 h3 hr1 => ?_
    refine hq u _ h1 h2 ?_ (cut_done hc) hr1
    rw [h3]
    simp only [setIno, upd_same]
  simpa only [bind_pure_unit] using hwp

theorem itrunc_spec (hl : sb.Layout) (h : Rep sb s V none) (hp : Loaded s ip i) (hi : Live sb V i)
    (hs : Sound sb V) (hB : ∀ k, V.slot i k ≠ 0 → Logs E (sb.BBLOCK (V.slot i k)) R R)
    (hI : Logs E (sb.IBLOCK i) R R) (hr : R s.log)
    (hq : ∀ t V', Rep sb t V' none → Tame sb s V t V' → t.inode = putIno s ip (V'.ino i) →
      Emptied V V' i (V.ino i).type → R t.log → Q () t) :
    wp (itrunc sb ip) Q E s := by
  rw [itrunc, wp_bind]
  refine itruncDirect_spec hl hs hi hB NDIRECT s V 0 (Nat.zero_add _) (rep_dirty h fun e he => by cases he) hp
    (cut_start fun k => Nat.not_lt_zero k) hr fun t1 W1 h1 ht1 hi1 hc1 hr1 => ?_
  have hp1 : Loaded t1 ip i := loaded_put hi1 hp
  have hslot : V.slot i NDIRECT = (V.ino i).addr NDIRECT := slot_low _ _ (Nat.lt_succ_self _)
  have haddr : (t1.inode ip).addr NDIRECT = (V.ino i).addr NDIRECT := by
    rw [loaded_ino h1 hp1, hc1.addr, if_neg (Nat.lt_irrefl _)]
  rw [wp_bind, wp_getInode]
  rw [haddr]
  by_cases h12 : (V.ino i).addr NDIRECT = 0
  · rw [if_pos h12]
    -- no indirect block: the slots from here on are empty
    have hc : Cut V W1 i (NDIRECT + 1) fun k => k < NDIRECT + 1 + NINDIRECT := by
      refine cut_pass (cut_skip hc1 (fun l _ => ?_) fun l hl' => by omega) h12
      by_cases hl' : l < NDIRECT
      · exact .inl hl'
      · refine .inr ?_
        by_cases e : l < NDIRECT + 1
        · have : l = NDIRECT := by omega
          rw [this, hslot, h12]
        · rw [slot_high _ _ e, if_pos h12]
    refine truncDone_spec hl h1 hp1 hi hI hr1 hc fun t V' h2 ht2 hi2 he hr2 => ?_
    exact hq t V' h2 (tame_trans ht1 ht2) (by rw [hi2, putIno_again hi1]) he hr2
  · rw [if_neg h12, wp_bind, wp_bread, wp_bind]
    have hind := holds_ind hi h12
    have hblk : t1.data ((V.ino i).addr NDIRECT) = V.blk ((V.ino i).addr NDIRECT) := by
      rw [h1.blk _ (hs.range _ _ _ hind).1, hc1.blk]
    rw [hblk]
    refine itruncIndirect_spec hl hs hi h12 hB NINDIRECT _ W1 0 (Nat.zero_add _) (rep_bufs _ h1)
      (cut_skip hc1 (fun l hl' => .inl (by omega)) fun l hl' => by omega) (by exact hr1)
        fun u W2 hu htu hiu hino2 hc2 hr2 => ?_
    rw [wp_bind, wp_brelse]
    have h2 := rep_bufs (u.bufs.erase ((V.ino i).addr NDIRECT)) hu
    have ht2 := tame_bufs _ (u.bufs.erase ((V.ino i).addr NDIRECT)) htu
    have hi2 : (u.withBufs (u.bufs.erase ((V.ino i).addr NDIRECT))).inode = t1.inode := hiu
    have hl2 : R (u.withBufs (u.bufs.erase ((V.ino i).addr NDIRECT))).log := hr2
    generalize u.withBufs (u.bufs.erase ((V.ino i).addr NDIRECT)) = t2 at h2 ht2 hi2 hl2
    have hp2 : Loaded t2 ip i := loaded_same hi2 hp1
    rw [wp_bind]
    refine bfree_spec hl h2 (hslot ▸ (hs.range _ _ _ hind).2) (cut_used hc2 hs hi (hslot ▸ h12) fun h' => h'.2 rfl)
      (hB _ (hslot ▸ h12)) hl2 fun t3 h3 ht3 hi3 hr3 => ?_
    have hp3 : Loaded t3 ip i := loaded_same hi3 hp2
    have hc3 : Cut V (W2.release (V.slot i NDIRECT)) i NDIRECT fun k => k < NDIRECT + 1 + NINDIRECT :=
      cut_release hc2 (hslot ▸ h12) fun l => by simp only [NDIRECT, NINDIRECT]; omega
    refine wp_then (zeroAddr_spec h3 hp3 hc3 (Nat.lt_succ_self _) fun t4 W4 h4 ht4 hi4 hc4 hl4 => ?_)
    refine truncDone_spec hl h4 (loaded_put hi4 hp3) hi hI (hl4 ▸ hr3) hc4 fun t V' h5 ht5 hi5 he hr5 => ?_
    refine hq t V' h5 (tame_trans ht1 (tame_trans ht2 (tame_trans ht3 (tame_trans ht4 ht5)))) ?_ he hr5
    rw [hi5, putIno_again hi4, ← putIno_again hi1]
    simp only [putIno, hi3, hi2]

end Xv6.Fs
