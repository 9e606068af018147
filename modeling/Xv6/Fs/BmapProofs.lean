/-
  Xv6.Fs.BmapProofs — `bmap`: it gives the block of an index, attaching fresh blocks to
  empty slots of this inode and nothing else; where the block is there already it
  changes nothing at all.
-/

import Xv6.Fs.BlockProofs

namespace Xv6.Fs

open Lib Vol

variable {sb : Superblock} {s t : St} {V V' : Vol} {dirty : Option Idx} {E : Panic → Prop} {n : Nat}
  {ip : Idx} {i : Nat}

theorem rep_dirty (h : Rep sb s V dirty) (hd : ∀ e, dirty = some e → e = ip) : Rep sb s V (some ip) where
  mem := h.mem
  disk := fun j hj hne => h.disk j hj fun e he => by rw [hd e he]; exact hne ip rfl
  used := h.used
  blk := h.blk
  uniq := h.uniq
  range := h.range
  live := fun e hne => h.live e fun he => hne (by rw [hd e he])
  fits := h.fits

theorem putIno_self (h : Rep sb s V dirty) (hp : Loaded s ip i) : putIno s ip (V.ino i) = s.inode := by
  funext e
  simp only [putIno, upd]
  split
  · next he => rw [he, ← loaded_ino h hp]
  · rfl

structure Mapped (sb : Superblock) (s : St) (V : Vol) (ip : Idx) (i k r : Nat) (t : St) (V' : Vol) : Prop where
  rep : Rep sb t V' (some ip)
  tame : Tame sb s V t V'
  inode : t.inode = putIno s ip (V'.ino i)
  grow : Ext sb i V V'
  slot : V'.slot i k = r
  raw : ∀ x, V'.raw i x = V.raw i x
  full : r = 0 → ∀ c < sb.size, V'.used c = true
  data : ∀ c, c ∉ t.log.lh → t.data c = s.data c
  /-- No other slot changes, but that of the indirect block for one of its entries. -/
  only : ∀ l, l ≠ k → (l = NDIRECT → k ≤ NDIRECT) → V'.slot i l = V.slot i l

variable {k b : Nat} {Q : Nat → St → Prop}

theorem mapped_same (h : Rep sb s V dirty) (hd : ∀ e, dirty = some e → e = ip) (hp : Loaded s ip i)
    (hs : Sound sb V) {r : Nat} (hk : V.slot i k = r) (hf : r = 0 → ∀ c < sb.size, V.used c = true) :
    Mapped sb s V ip i k r s V :=
  ⟨rep_dirty h hd, tame_refl, (putIno_self h hp).symm, ext_refl hs, hk, fun _ => rfl, hf,
    fun _ _ => rfl, fun _ _ _ => rfl⟩

theorem putIno_again {d d' : Dinode} (ht : t.inode = putIno s ip d) : putIno t ip d' = putIno s ip d' := by
  funext e
  simp only [putIno, ht, upd]
  split
  · rfl
  · rfl

/-- The indirect block, then one of its entries. -/
theorem mapped_trans {r r' : Nat} {u : St} {V'' : Vol} (h : Mapped sb s V ip i NDIRECT r' t V')
    (h' : Mapped sb t V' ip i k r u V'') (hk : NDIRECT < k) : Mapped sb s V ip i k r u V'' where
  rep := h'.rep
  tame := tame_trans h.tame h'.tame
  inode := h'.inode.trans (putIno_again h.inode)
  grow := ext_trans h.grow h'.grow
  slot := h'.slot
  raw := fun x => (h'.raw x).trans (h.raw x)
  full := h'.full
  data := fun c hc => (h'.data c hc).trans (h.data c fun hm => hc (h'.tame.lh c hm))
  only := fun l hl hind => by
    have hne : l ≠ NDIRECT := fun e => absurd (hind e) (Nat.not_le.mpr hk)
    rw [h'.only l hl hind, h.only l hne fun e => absurd e hne]

/-- A fresh block went into an empty slot, and is in the log. -/
theorem tame_attach (ht : Tame sb s V t V) (ha : Attached sb V V' i k b) (hi : Live sb V i)
    (h0 : V.slot i k = 0) (hb : b ≠ 0) (hlog : b ∈ t.log.lh) : Tame sb s V t V' where
  file := ht.file
  proc := ht.proc
  home := ht.home
  out := ht.out
  committing := ht.committing
  lh := ht.lh
  data := fun c hc => (ht.data c hc).imp_right fun hloose => by
    refine ⟨hloose.1, fun j l hjl => ?_⟩
    rcases (attached_holds ha hi h0 hb j l c).mp hjl with h1 | h1
    · rw [attached_type ha]; exact hloose.2 j l h1
    · exact absurd hlog (h1.2.2 ▸ hc)
  hold := fun j l c hc hn => by
    rcases (attached_holds ha hi h0 hb j l c).mp hc with h1 | h1
    · exact ⟨h1, attached_type ha j⟩
    · exact absurd hlog (h1.2.2 ▸ hn)

/-- `Took` in terms of the volume before, whose slots it left alone. -/
theorem took_tame (hs : Sound sb V) (h : Took sb s V dirty b t) : Tame sb s V t V where
  file := h.tame.file
  proc := h.tame.proc
  home := h.tame.home
  out := h.tame.out
  committing := h.tame.committing
  lh := h.tame.lh
  data := fun c hc => (h.tame.data c hc).imp_right fun hloose => ⟨hloose.1, fun j l hjl =>
    hloose.2 j l ⟨hjl.live, by rw [take_slot hs h.free hjl.live]; exact hjl.at_, hjl.ne⟩⟩
  hold := fun _ _ _ hc _ => ⟨hc, rfl⟩

theorem took_lt (hl : sb.Layout) (h : Took sb s V dirty b t) : b < 4294967296 := by
  have h1 := h.lt
  have h2 := hl.size
  omega

theorem bmapAddr_spec (hl : sb.Layout) (h : Rep sb s V dirty) (hd : ∀ e, dirty = some e → e = ip) (hp : Loaded s ip i)
    (hi : Live sb V i) (hs : Sound sb V) (hk : k < NDIRECT + 1) (hr : Room E (n + 2) s)
    (hq : ∀ r t V', Mapped sb s V ip i k r t V' → Room E n t → Q r t) : wp (bmapAddr sb ip k) Q E s := by
  have hino := loaded_ino h hp
  rw [bmapAddr, wp_bind, wp_getInode, hino]
  by_cases h0 : (V.ino i).addr k = 0
  · rw [if_pos h0, wp_bind]
    have hslot : V.slot i k = 0 := by rw [slot_low _ _ hk]; exact h0
    refine balloc_spec hl h hs hr (fun hfull => ?_) fun b t ht hrt => ?_
    · exact hq 0 s V (mapped_same h hd hp hs hslot fun _ => hfull) (room_le hr (by omega))
    · rw [if_neg ht.ne]
      have hpt : Loaded t ip i :=
        ⟨by rw [ht.inode]; exact hp.ref, by rw [ht.inode]; exact hp.valid, by rw [ht.inode]; exact hp.inum⟩
      have hfit := Dinode.fits_setAddr (h.fits i (loaded_lt h hp)) hk (took_lt hl ht)
      have ha := attach_addr hs hk ht.free hslot
      have hrep := rep_putIno ht.rep hpt hfit hd
      refine wp_then (wp_setIno (d := (V.ino i).setAddr k b) (by rw [ht.inode, hino]) ?_)
      refine hq b _ _ ⟨hrep, ?_, ?_, ?_, ?_, ?_, fun hb => absurd hb ht.ne, ht.data,
        fun l hl _ => by rw [ha.slot i l hi, if_neg fun e => hl e.2]⟩ hrt
      · exact tame_inode (tame_attach (took_tame hs ht) ha hi hslot ht.ne ht.logged)
      · simp only [setIno, upd_same, putIno, ht.inode]
      · exact ext_attach ha hs hi hslot ht.free ht.lt ht.ne
      · rw [ha.slot i k hi, if_pos ⟨rfl, rfl⟩]
      · exact attached_raw ha hslot hi
  · rw [if_neg h0]
    exact hq _ s V (mapped_same h hd hp hs (slot_low _ _ hk) fun e => absurd e h0) (room_le hr (by omega))

theorem bmapEntry_spec (hl : sb.Layout) (h : Rep sb s V dirty) (hd : ∀ e, dirty = some e → e = ip)
    (hp : Loaded s ip i) (hi : Live sb V i) (hs : Sound sb V) {j : Nat} (hj : j < NINDIRECT)
    (h12 : (V.ino i).addr NDIRECT ≠ 0) (hr : Room E (n + 3) s)
    (hq : ∀ r t V', Mapped sb s V ip i (NDIRECT + 1 + j) r t V' → Room E n t → Q r t) :
    wp (bmapEntry sb ((V.ino i).addr NDIRECT) j) Q E s := by
  have hind := holds_ind hi h12
  have hrange := hs.range _ _ _ hind
  have hk : ¬ NDIRECT + 1 + j < NDIRECT + 1 := by omega
  have hkj : NDIRECT + 1 + j - (NDIRECT + 1) = j := by omega
  have hslot : V.slot i (NDIRECT + 1 + j) = entry (V.blk ((V.ino i).addr NDIRECT)) j := by
    rw [slot_high _ _ hk, if_neg h12, hkj]
  rw [bmapEntry, wp_bind, wp_bread, h.blk _ hrange.1]
  by_cases h0 : entry (V.blk ((V.ino i).addr NDIRECT)) j = 0
  · rw [if_pos h0, wp_bind]
    refine balloc_spec hl (rep_bufs ((V.ino i).addr NDIRECT :: s.bufs) h) hs (n := n + 1) hr (fun hfull => ?_)
      fun b t htb hrt => ?_
    · rw [if_pos rfl, wp_bind, wp_brelse, St.withBufs_bufs, relse_cons]
      exact hq 0 s V (mapped_same h hd hp hs (hslot.trans h0) fun _ => hfull) (room_le hr (by omega))
    · have ht := took_bufs _ htb
      rw [if_neg ht.ne, wp_bind, wp_bdata]
      have hdat : t.data ((V.ino i).addr NDIRECT) = V.blk ((V.ino i).addr NDIRECT) := by
        rw [ht.rep.blk _ hrange.1]
        exact upd_ne _ _ (fresh_ne hs ht.free hind)
      rw [hdat]
      have ha := attach_entry (k := NDIRECT + 1 + j) hs hi hk (by rw [hkj]; exact hj) ht.free (took_lt hl ht) h12
      rw [hkj] at ha
      refine wp_write (s := t) (l := t.bufs) (logs_room _) hrt fun u hw hru => ?_
      have hrep := rep_dirty (rep_data hl ht.rep hrange.1 hw.data hw.inode) hd
      refine hq b u _ ⟨hrep, ?_, ?_, ?_, ?_, ?_, fun hb => absurd hb ht.ne, fun c hc => ?_,
        fun l hl _ => by rw [ha.slot i l hi, if_neg fun e => hl e.2]⟩ hru
      · have htu : Tame sb s V u V := tame_trans (took_tame hs ht) (tame_wrote hw fun _ _ _ hc _ => ⟨hc, rfl⟩)
        exact tame_attach htu ha hi (hslot.trans h0) ht.ne ((hw.lh b).mpr (.inl ht.logged))
      · rw [hw.inode, ht.inode]
        exact (putIno_self h hp).symm
      · exact ext_attach ha hs hi (hslot.trans h0) ht.free ht.lt ht.ne
      · rw [ha.slot i _ hi, if_pos ⟨rfl, rfl⟩]
      · exact attached_raw ha (hslot.trans h0) hi
      · rw [wrote_data hw hc, ht.data c fun hm => hc ((hw.lh c).mpr (.inl hm))]
  · rw [if_neg h0, wp_bind, wp_brelse, St.withBufs_bufs, relse_cons]
    exact hq _ s V (mapped_same h hd hp hs hslot fun e => absurd e h0) (room_le hr (by omega))

theorem bmap_spec (hl : sb.Layout) (h : Rep sb s V dirty) (hd : ∀ e, dirty = some e → e = ip)
    (hp : Loaded s ip i) (hi : Live sb V i) (hs : Sound sb V) {bn : Nat} (hbn : bn < MAXFILE)
    (hr : Room E (n + 5) s) (hq : ∀ r t V', Mapped sb s V ip i (slotOf bn) r t V' → Room E n t → Q r t) :
    wp (bmap sb ip bn) Q E s := by
  simp only [bmap, wp_ite]
  by_cases hlow : bn < NDIRECT
  · rw [if_pos hlow]
    have hslot : slotOf bn = bn := if_pos hlow
    rw [hslot] at hq
    exact bmapAddr_spec hl h hd hp hi hs (Nat.lt_succ_of_lt hlow) (n := n + 3) hr fun r t V' hm hrt =>
      hq r t V' hm (room_le hrt (by omega))
  · have hslot : slotOf bn = NDIRECT + 1 + (bn - NDIRECT) := by rw [slotOf, if_neg hlow]; omega
    have hj : bn - NDIRECT < NINDIRECT := by simp only [MAXFILE] at hbn; omega
    rw [if_neg hlow, if_pos hj, wp_bind]
    refine bmapAddr_spec hl h hd hp hi hs (Nat.lt_succ_self _) (n := n + 3) hr fun r t V' hm hrt => ?_
    have hr' : (V'.ino i).addr NDIRECT = r := by rw [← slot_low _ _ (Nat.lt_succ_self _)]; exact hm.slot
    by_cases h0 : r = 0
    · rw [if_pos h0]
      refine hq 0 t V' ⟨hm.rep, hm.tame, hm.inode, hm.grow, ?_, hm.raw, fun _ => hm.full h0,
        hm.data, fun l _ hind => ?_⟩ (room_le hrt (by omega))
      · rw [slot_high _ _ (by omega), if_pos (hr'.trans h0)]
      · have hne : l ≠ NDIRECT := fun e => by have := hind e; omega
        exact hm.only l hne fun e => absurd e hne
    · rw [if_neg h0]
      subst hr'
      have hi' : Live sb V' i := (ext_live hm.grow i).mpr hi
      refine bmapEntry_spec hl hm.rep (fun e he => by cases he; rfl)
        (loaded_put hm.inode hp) hi' hm.grow.sound hj h0 hrt ?_
      intro r' u V'' hm' hru
      rw [← hslot] at hm'
      exact hq r' u V'' (mapped_trans hm hm' (by omega)) hru

/-- An address that is there already: nothing changes. -/
theorem bmapAddr_hit (h : Rep sb s V dirty) (hp : Loaded s ip i) (hk : (V.ino i).addr k ≠ 0) :
    bmapAddr sb ip k s = .ok ((V.ino i).addr k, s) := by
  apply wp_run
  rw [bmapAddr, wp_bind, wp_getInode, loaded_ino h hp, if_neg hk]
  exact ⟨rfl, rfl⟩

/-- Where the block is there already, `bmap` changes nothing. -/
theorem bmap_hit (h : Rep sb s V dirty) (hp : Loaded s ip i) (hi : Live sb V i) (hs : Sound sb V) {bn : Nat}
    (hbn : bn < MAXFILE) (h0 : V.addr i bn ≠ 0) : bmap sb ip bn s = .ok (V.addr i bn, s) := by
  rw [bmap]
  by_cases hlow : bn < NDIRECT
  · have hslot : V.addr i bn = (V.ino i).addr bn := by rw [Vol.addr, slotOf, if_pos hlow, slot_low _ _ (by omega)]
    rw [if_pos hlow, hslot]
    exact bmapAddr_hit h hp (hslot ▸ h0)
  have hj : bn - NDIRECT < NINDIRECT := by simp only [MAXFILE] at hbn; omega
  have hslot : V.addr i bn =
      if (V.ino i).addr NDIRECT = 0 then 0 else entry (V.blk ((V.ino i).addr NDIRECT)) (bn - NDIRECT) := by
    rw [Vol.addr, slotOf, if_neg hlow, slot_high _ _ (by omega), show bn + 1 - (NDIRECT + 1) = bn - NDIRECT by omega]
  have h12 : (V.ino i).addr NDIRECT ≠ 0 := fun e => h0 (by rw [hslot, if_pos e])
  rw [if_neg h12] at hslot
  rw [if_neg hlow, if_pos hj]
  apply wp_run
  refine wp_then (wp_of_run (bmapAddr_hit h hp h12) ?_)
  rw [wp_ite, if_neg h12, bmapEntry, wp_bind, wp_bread, h.blk _ (hs.range _ _ _ (holds_ind hi h12)).1, wp_ite, ← hslot,
    if_neg h0, wp_bind, wp_brelse, St.withBufs_bufs, relse_cons]
  exact ⟨rfl, rfl⟩

end Xv6.Fs
