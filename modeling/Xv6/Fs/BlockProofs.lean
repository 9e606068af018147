/-
  Xv6.Fs.BlockProofs — what the block allocator and `iupdate` do to the volume. `balloc`
  takes a free block or finds every block in use; `bfree` of a block in use does not
  panic; `iupdate` makes the disk agree with the table entry.
-/

import Xv6.Fs.Rep

namespace Xv6.Fs

open Lib Vol

variable {sb : Superblock} {s t : St} {V : Vol} {dirty : Option Idx} {E : Panic → Prop} {n : Nat}

/-! ## balloc -/

variable {b i : Nat} {Q : Nat → St → Prop} {R R' : Log.LogSt → Prop} {ip : Idx} {d : Dinode}

theorem freeBit_some {bp : Block} : ∀ {fuel bi r : Nat}, freeBit sb bp b fuel bi = some r →
    r < BPB ∧ b + r < sb.size ∧ bp.bit r = false
  | 0, _, _, h => by cases h
  | fuel + 1, bi, r, h => by
    simp only [freeBit] at h
    split at h
    · next hb =>
      split at h
      · exact freeBit_some h
      · next hbit =>
        cases h
        exact ⟨hb.1, hb.2, by simpa using hbit⟩
    · cases h

theorem freeBit_none {bp : Block} : ∀ {fuel bi : Nat}, freeBit sb bp b fuel bi = none →
    ∀ j, bi ≤ j → j < bi + fuel → j < BPB → b + j < sb.size → bp.bit j = true
  | 0, _, _, _, _, _, _, _ => by omega
  | fuel + 1, bi, h, j, h1, h2, h3, h4 => by
    simp only [freeBit] at h
    rw [if_pos ⟨by omega, by omega⟩] at h
    split at h
    · next hbit =>
      by_cases e : j = bi
      · rw [e]; exact hbit
      · exact freeBit_none h j (by omega) (by omega) h3 h4
    · cases h

theorem take_slot (hs : Sound sb V) (hu : V.used b = false) (hi : Live sb V i) (k : Nat) :
    (V.take b).slot i k = V.slot i k :=
  slot_congr k (fun _ => rfl) fun h12 => upd_ne _ _ (fresh_ne hs hu (holds_ind hi h12))

/-- Taking a block nobody holds yet changes no slot. -/
theorem take_holds (hs : Sound sb V) (hu : V.used b = false) {k c : Nat} (h : Holds sb (V.take b) i k c) :
    Holds sb V i k c :=
  ⟨h.live, by rw [← take_slot hs hu (show Live sb V i from h.live)]; exact h.at_, h.ne⟩

/-- `balloc` took block `b`. -/
structure Took (sb : Superblock) (s : St) (V : Vol) (dirty : Option Idx) (b : Nat) (t : St) : Prop where
  ne : b ≠ 0
  lt : b < sb.size
  free : V.used b = false
  rep : Rep sb t (V.take b) dirty
  tame : Tame sb s V t (V.take b)
  inode : t.inode = s.inode
  logged : b ∈ t.log.lh
  data : ∀ c, c ∉ t.log.lh → t.data c = s.data c

theorem took_bufs (l : List Nat) (h : Took sb (s.withBufs l) V dirty b t) : Took sb s V dirty b t :=
  ⟨h.ne, h.lt, h.free, h.rep, tame_bufs l t.bufs h.tame, h.inode, h.logged, h.data⟩

theorem mul_block {q r : Nat} (hr : r < BPB) : (BPB * q + r) / BPB = q ∧ (BPB * q + r) % BPB = r := by
  simp only [BPB, BSIZE] at *
  omega

/-- Block `b`, free until now, is marked and zeroed. -/
theorem wp_take (hl : sb.Layout) (h : Rep sb s V dirty) (hs : Sound sb V) (hb : b < sb.size) (hf : V.used b = false)
    (hr : Room E (n + 2) s) (l : List Nat) (hq : ∀ t, Took sb s V dirty b t → Room E n t → Q b t) : wp (do
      bput (sb.BBLOCK b) ((s.data (sb.BBLOCK b)).setBit (b % BPB))
      logWrite (sb.BBLOCK b)
      brelse (sb.BBLOCK b)
      bzero b
      return b) Q E (s.withBufs l) := by
  have hm : sb.nmeta ≤ b := by
    apply Decidable.by_contra
    intro hlt
    rw [hs.sys b (by omega)] at hf
    cases hf
  refine wp_write (logs_room _) hr fun t hw hrt => ?_
  have ht : Rep sb t { V with used := upd V.used b true } dirty := by
    refine rep_bit hl h hb (fun j => ?_) hw
    have hlt : b % BPB < 8 * BSIZE := by simp only [BPB, BSIZE]; omega
    rw [Bytes.bit_setBit _ hlt]
    by_cases hj : j = b % BPB <;> simp [hj]
  simp only [bzero]
  rw [wp_bind, wp_bind]
  refine wp_write (f := pure) (logs_room _) hrt fun u hw' hru => ?_
  have hu : Rep sb u (V.take b) dirty := rep_data hl ht hm hw'.data hw'.inode
  have hlow := bblock_lt hl hb
  refine hq u ⟨by omega, hb, hf, hu, ?_, hw'.inode.trans hw.inode, (hw'.lh b).mpr (.inr rfl), fun c hc => ?_⟩ hru
  -- only the bitmap block and the new block changed
  · have ht1 : Tame sb s V t (V.take b) := tame_wrote hw fun i k c hc _ => ⟨take_holds hs hf hc, rfl⟩
    exact tame_trans ht1 (tame_wrote hw' fun i k c hc _ => ⟨hc, rfl⟩)
  · rw [wrote_data hw' hc, wrote_data hw fun hm => hc ((hw'.lh c).mpr (.inl hm))]

theorem ballocFrom_spec (hl : sb.Layout) (h : Rep sb s V dirty) (hs : Sound sb V) (hr : Room E (n + 2) s)
    (hfull : (∀ c < sb.size, V.used c = true) → Q 0 s) (htook : ∀ b t, Took sb s V dirty b t → Room E n t → Q b t) :
    ∀ (fuel q : Nat), sb.size < BPB * (q + fuel) → (∀ c < sb.size, c < BPB * q → V.used c = true) →
      wp (ballocFrom sb fuel (BPB * q)) Q E s
  | 0, q, hf, hu => hfull fun c hc => hu c hc (by rw [Nat.add_zero] at hf; omega)
  | fuel + 1, q, hf, hu => by
    simp only [ballocFrom]
    rw [wp_ite]
    by_cases hb : BPB * q < sb.size
    · rw [if_pos hb]
      simp only [wp_bind, wp_bread]
      have hblk : ∀ r < BPB, sb.BBLOCK (BPB * q + r) = sb.BBLOCK (BPB * q) := by
        intro r hr'
        have h1 := (mul_block (q := q) hr').1
        have h2 := (mul_block (q := q) (r := 0) (by simp only [BPB, BSIZE]; omega)).1
        rw [Nat.add_zero] at h2
        simp only [Superblock.BBLOCK, h1, h2]
      cases hfb : freeBit sb (s.data (sb.BBLOCK (BPB * q))) (BPB * q) BPB 0 with
      | some r =>
        obtain ⟨h1, h2, h3⟩ := freeBit_some hfb
        have hfree : V.used (BPB * q + r) = false := by
          rw [← h.used _ h2, hblk r h1, (mul_block h1).2]
          exact h3
        have := wp_take hl h hs h2 hfree hr (sb.BBLOCK (BPB * q) :: s.bufs) (htook _)
        rw [hblk r h1, (mul_block h1).2] at this
        exact this
      | none =>
        simp only [wp_bind, wp_brelse, relse_cons, St.withBufs_bufs]
        refine ballocFrom_spec hl h hs hr hfull htook fuel (q + 1) (by rw [Nat.add_right_comm]; exact hf)
          fun c hc hcq => ?_
        by_cases hlow : c < BPB * q
        · exact hu c hc hlow
        · have hcr : c - BPB * q < BPB := by rw [Nat.mul_succ] at hcq; omega
          have hce : BPB * q + (c - BPB * q) = c := by omega
          have := freeBit_none hfb (c - BPB * q) (Nat.zero_le _) (by omega) hcr (by omega)
          rw [← h.used c hc, ← hce, hblk _ hcr, (mul_block hcr).2]
          exact this
    · rw [if_neg hb]
      exact hfull fun c hc => hu c hc (by omega)

theorem balloc_spec (hl : sb.Layout) (h : Rep sb s V dirty) (hs : Sound sb V) (hr : Room E (n + 2) s)
    (hfull : (∀ c < sb.size, V.used c = true) → Q 0 s) (htook : ∀ b t, Took sb s V dirty b t → Room E n t → Q b t) :
    wp (balloc sb) Q E s := by
  refine ballocFrom_spec hl h hs hr hfull htook (sb.size / BPB + 1) 0 ?_ fun c _ hc => by omega
  simp only [BPB, BSIZE]
  omega

/-! ## bfree -/

theorem release_holds {k c : Nat} : Holds sb (V.release b) i k c ↔ Holds sb V i k c :=
  ⟨fun h => ⟨h.live, h.at_, h.ne⟩, fun h => ⟨h.live, h.at_, h.ne⟩⟩

theorem bfree_spec (hl : sb.Layout) (h : Rep sb s V dirty) (hb : b < sb.size) (hu : V.used b = true)
    (hlog : Logs E (sb.BBLOCK b) R R') (hr : R s.log) {Q : Unit → St → Prop}
    (hq : ∀ t, Rep sb t (V.release b) dirty → Tame sb s V t (V.release b) → t.inode = s.inode → R' t.log → Q () t) :
    wp (bfree sb b) Q E s := by
  have hbit : (s.data (sb.BBLOCK b)).bit (b % BPB) = true := by rw [h.used b hb, hu]
  rw [bfree, wp_bind, wp_bread, if_pos hbit]
  refine wp_write (f := pure) hlog hr fun t hw hrt => ?_
  refine hq t ?_ (tame_wrote hw fun i k c hc _ => ⟨release_holds.mp hc, rfl⟩) hw.inode hrt
  refine rep_bit hl h hb (fun j => ?_) hw
  have hlt : b % BPB < 8 * BSIZE := by simp only [BPB, BSIZE]; omega
  rw [Bytes.bit_clearBit _ hlt]
  by_cases hj : j = b % BPB <;> simp [hj]

/-! ## The inode blocks -/

theorem ioff_le (i : Nat) : ioff i + 64 ≤ BSIZE := by
  simp only [ioff, IPB, BSIZE]
  omega

/-- Two inodes of one block are 64 bytes apart. -/
theorem ioff_apart {j : Nat} (h : i ≠ j) (hb : sb.IBLOCK i = sb.IBLOCK j) :
    ioff i + 64 ≤ ioff j ∨ ioff j + 64 ≤ ioff i := by
  have : i / IPB = j / IPB := Nat.add_right_cancel hb
  simp only [IPB, BSIZE, ioff] at *
  omega

/-- Writing inode `i`'s place in its block leaves every other inode as it is. -/
theorem other_dinode {d : Block} (hw : Wrote s t (sb.IBLOCK i) d)
    (hd : ∀ x, x < ioff i ∨ ioff i + 64 ≤ x → d.get x = (s.data (sb.IBLOCK i)).get x) {j : Nat} (hj : j ≠ i) :
    getDinode (t.data (sb.IBLOCK j)) (ioff j) = getDinode (s.data (sb.IBLOCK j)) (ioff j) := by
  rw [hw.data]
  by_cases hb : sb.IBLOCK j = sb.IBLOCK i
  · rw [hb, upd_same]
    apply getDinode_congr
    intro x h1 h2
    apply hd
    have := ioff_apart (Ne.symm hj) hb.symm
    omega
  · rw [upd_ne _ _ hb]

/-- Only inode `i`, whose block was written, is different on disk. -/
theorem rep_inode {d : Block} {dirty' : Option Idx} (hl : sb.Layout) (h : Rep sb s V dirty)
    (hi : i < sb.ninodes) (hw : Wrote s t (sb.IBLOCK i) d)
    (hd : ∀ x, x < ioff i ∨ ioff i + 64 ≤ x → d.get x = (s.data (sb.IBLOCK i)).get x) {x : Dinode}
    (hx : x.Fits) (hget : getDinode d (ioff i) = x) (hdirty : ∀ e, dirty = some e → (s.inode e).inum = i)
    (hmem : ∀ e, 0 < (s.inode e).ref → (s.inode e).valid = true → (s.inode e).inum = i → (s.inode e).toDinode = x)
    (hlive : ∀ e, dirty' ≠ some e → 0 < (s.inode e).ref → (s.inode e).valid = true →
      (s.inode e).inum = i → x.type ≠ 0) :
    Rep sb t (V.setIno i x) dirty' where
  mem := by
    intro e hr hv
    rw [hw.inode] at hr hv ⊢
    simp only [setIno, upd]
    split
    · next he => exact hmem e hr hv he
    · exact h.mem e hr hv
  disk := by
    intro j hj _
    simp only [setIno, upd]
    split
    · next he => rw [he, hw.data, upd_same]; exact hget
    · next he =>
      rw [other_dinode hw hd he]
      exact h.disk j hj fun e hde hje => he (hje.symm.trans (hdirty e hde))
  used := by
    intro c hc
    have h1 := iblock_lt hl hi
    have h2 : sb.bmapstart ≤ sb.BBLOCK c := bblock_ge c
    rw [hw.data, upd_ne _ _ (by omega)]
    exact h.used c hc
  blk := by
    intro c hc
    have := iblock_nmeta hl hi
    rw [hw.data, upd_ne _ _ (by omega)]
    exact h.blk c hc
  uniq := by rw [hw.inode]; exact h.uniq
  range := by rw [hw.inode]; exact h.range
  live := by
    intro e hde hr hv
    rw [hw.inode] at hr hv ⊢
    simp only [setIno, upd]
    split
    · next he => exact hlive e hde hr hv he
    · next he => exact h.live e (fun hd' => he (hdirty e hd')) hr hv
  fits := by
    intro j hj
    simp only [setIno, upd]
    split
    · exact hx
    · exact h.fits j hj

/-! ## Entries of the inode table -/

/-- Entry `ip` holds inode `i`, read in. -/
structure Loaded (s : St) (ip : Idx) (i : Nat) : Prop where
  ref : 0 < (s.inode ip).ref
  valid : (s.inode ip).valid = true
  inum : (s.inode ip).inum = i

def putIno (s : St) (ip : Idx) (d : Dinode) : Idx → Inode := upd s.inode ip { s.inode ip with toDinode := d }

theorem loaded_ino (h : Rep sb s V dirty) (hp : Loaded s ip i) : (s.inode ip).toDinode = V.ino i := by
  rw [h.mem ip hp.ref hp.valid, hp.inum]

theorem loaded_lt (h : Rep sb s V dirty) (hp : Loaded s ip i) : i < sb.ninodes := by
  have := (h.range ip hp.ref).1
  rwa [hp.inum] at this

theorem putIno_ref (s : St) (ip : Idx) (d : Dinode) (e : Idx) : (putIno s ip d e).ref = (s.inode e).ref := by
  simp only [putIno, upd]; split
  · next h => rw [h]
  · rfl

theorem putIno_valid (s : St) (ip : Idx) (d : Dinode) (e : Idx) : (putIno s ip d e).valid = (s.inode e).valid := by
  simp only [putIno, upd]; split
  · next h => rw [h]
  · rfl

theorem putIno_inum (s : St) (ip : Idx) (d : Dinode) (e : Idx) : (putIno s ip d e).inum = (s.inode e).inum := by
  simp only [putIno, upd]; split
  · next h => rw [h]
  · rfl

theorem putIno_dev (s : St) (ip : Idx) (d : Dinode) (e : Idx) : (putIno s ip d e).dev = (s.inode e).dev := by
  simp only [putIno, upd]; split
  · next h => rw [h]
  · rfl

theorem wp_setIno {f : Inode → Inode} {Q : Unit → St → Prop} (hf : f (s.inode ip) = { s.inode ip with toDinode := d })
    (hq : Q () { s with inode := putIno s ip d }) : wp (setInode ip f) Q E s := by
  simp only [setInode, wp_modify, hf]
  exact hq

theorem loaded_put (ht : t.inode = putIno s ip d) (hp : Loaded s ip i) : Loaded t ip i :=
  ⟨by rw [ht, putIno_ref]; exact hp.ref, by rw [ht, putIno_valid]; exact hp.valid,
    by rw [ht, putIno_inum]; exact hp.inum⟩

theorem loaded_same (ht : t.inode = s.inode) (hp : Loaded s ip i) : Loaded t ip i :=
  ⟨by rw [ht]; exact hp.ref, by rw [ht]; exact hp.valid, by rw [ht]; exact hp.inum⟩

/-- Changing a loaded entry in memory makes it dirty. -/
theorem rep_putIno (h : Rep sb s V dirty) (hp : Loaded s ip i) (hd : d.Fits) (hdirty : ∀ e, dirty = some e → e = ip) :
    Rep sb { s with inode := putIno s ip d } (V.setIno i d) (some ip) where
  mem := by
    intro e hr hv
    simp only [putIno_ref, putIno_valid, putIno_inum] at hr hv ⊢
    by_cases e1 : e = ip
    · subst e1
      simp only [hp.inum, setIno, putIno, upd_same]
    · have e2 : (s.inode e).inum ≠ i := fun h' => e1 (h.uniq e ip hr hp.ref (h'.trans hp.inum.symm))
      simp only [setIno, putIno, upd_ne _ _ e1, upd_ne _ _ e2]
      exact h.mem e hr hv
  disk := by
    intro j hj hne
    have hji : j ≠ i := by
      have := hne ip rfl
      simp only [putIno_inum, hp.inum] at this
      exact Ne.symm this
    simp only [setIno, upd_ne _ _ hji]
    refine h.disk j hj fun e hde => ?_
    rw [hdirty e hde, hp.inum]
    exact Ne.symm hji
  used := h.used
  blk := h.blk
  uniq := by
    intro e e' h1 h2 h3
    simp only [putIno_ref, putIno_inum] at h1 h2 h3
    exact h.uniq e e' h1 h2 h3
  range := by
    intro e h1
    simp only [putIno_ref, putIno_inum, putIno_dev] at h1 ⊢
    exact h.range e h1
  live := by
    intro e hne hr hv
    simp only [putIno_ref, putIno_valid, putIno_inum] at hr hv ⊢
    have e1 : e ≠ ip := fun e1 => hne (by rw [e1])
    have e2 : (s.inode e).inum ≠ i := fun h' => e1 (h.uniq e ip hr hp.ref (h'.trans hp.inum.symm))
    simp only [setIno, upd_ne _ _ e2]
    exact h.live e (fun hde => e1 (hdirty e hde)) hr hv
  fits := by
    intro j hj
    simp only [setIno, upd]
    split
    · exact hd
    · exact h.fits j hj

/-- `iupdate` of a loaded entry: nothing changes but that the disk has it too. -/
theorem iupdate_spec (hl : sb.Layout) (h : Rep sb s V dirty) (hp : Loaded s ip i)
    (hdirty : ∀ e, dirty = some e → e = ip) (hlog : Logs E (sb.IBLOCK i) R R') (hr : R s.log)
    {Q : Unit → St → Prop}
    (hq : ∀ t, Rep sb t V (some ip) → (∀ j < sb.ninodes, getDinode (t.data (sb.IBLOCK j)) (ioff j) = V.ino j) →
      Tame sb s V t V → t.inode = s.inode → R' t.log → Q () t) :
    wp (iupdate sb ip) Q E s := by
  have hi := loaded_lt h hp
  have hino := loaded_ino h hp
  rw [iupdate, wp_bind, wp_getInode, wp_bind, hp.inum, hino]
  have hself : V.setIno i (V.ino i) = V := by
    simp only [setIno]
    congr 1
    funext j
    simp only [upd]
    split
    · next e => rw [e]
    · rfl
  refine wp_write (f := pure) hlog hr fun t hw hrt => ?_
  have hget := getDinode_putDinode (s.data (sb.IBLOCK i)) (ioff_le i) (h.fits i hi)
  refine hq t ?_ (fun j hj => ?_) (tame_wrote hw fun i k c hc _ => ⟨hc, rfl⟩) hw.inode hrt
  · rw [← hself]
    refine rep_inode hl h hi hw (fun x hx => get_putDinode_out _ _ hx) (h.fits i hi) hget
      (fun e he => by rw [hdirty e he, hp.inum]) (fun e hr hv he => ?_) fun e hne hr hv he => ?_
    · rw [h.mem e hr hv, he]
    · exact absurd (by rw [h.uniq e ip hr hp.ref (he.trans hp.inum.symm)]) hne
  · by_cases e : j = i
    · rw [e, hw.data, upd_same]
      exact hget
    · rw [other_dinode hw (fun x hx => get_putDinode_out _ _ hx) e]
      refine h.disk j hj fun e' he' => ?_
      rw [hdirty e' he', hp.inum]
      exact Ne.symm e

/-- The disk has it all: no entry is dirty, if the last one that was is of an allocated inode. -/
theorem rep_clean (h : Rep sb s V (some ip)) (hp : Loaded s ip i) (ht : (V.ino i).type ≠ 0)
    (hdisk : ∀ j < sb.ninodes, getDinode (s.data (sb.IBLOCK j)) (ioff j) = V.ino j) : Rep sb s V none where
  mem := h.mem
  disk := fun j hj _ => hdisk j hj
  used := h.used
  blk := h.blk
  uniq := h.uniq
  range := h.range
  live := by
    intro e _ hr hv
    by_cases he : some ip = some e
    · cases he
      rw [hp.inum]
      exact ht
    · exact h.live e he hr hv
  fits := h.fits

/-- A field other than the addresses is changed and written back: every such place in the
    source is these two calls. -/
theorem wp_update {α : Type} (hl : sb.Layout) (h : Rep sb s V dirty) (hp : Loaded s ip i)
    (hdirty : ∀ e, dirty = some e → e = ip)
    {f : Inode → Inode} (hf : f (s.inode ip) = { s.inode ip with toDinode := d }) (hfit : d.Fits)
    (ha : d.addrs = (V.ino i).addrs)
    (ht : d.type = (V.ino i).type) (hlive : d.type ≠ 0) (hlog : Logs E (sb.IBLOCK i) R R')
      (hr : R s.log) {g : Unit → M α}
    {Q : α → St → Prop}
    (hq : ∀ u, Rep sb u (V.setIno i d) none → Tame sb s V u (V.setIno i d) → u.inode = putIno s ip d →
      R' u.log → wp (g ()) Q E u) :
    wp (setInode ip f >>= fun _ => iupdate sb ip >>= g) Q E s := by
  refine wp_then (wp_setIno hf ?_)
  rw [wp_bind]
  have hrep := rep_putIno h hp hfit hdirty
  have htame : Tame sb s V { s with inode := putIno s ip d } (V.setIno i d) :=
    ⟨rfl, rfl, rfl, rfl, rfl, fun _ => id, fun _ _ => .inl rfl, fun j l c hc _ =>
      ⟨(setIno_holds ha ht j l c).mp hc, setIno_type ht j⟩⟩
  have hself : ((V.setIno i d).ino i).type ≠ 0 := by
    simp only [setIno, upd_same]
    exact hlive
  have hpu := loaded_put (s := s) (t := { s with inode := putIno s ip d }) rfl hp
  refine iupdate_spec hl hrep hpu (fun e he => by cases he; rfl) hlog hr fun u h1 hdisk h2 h3 h4 => ?_
  exact hq u (rep_clean h1 (loaded_same h3 hpu) hself hdisk) (tame_trans htame h2) h3 h4

end Xv6.Fs
