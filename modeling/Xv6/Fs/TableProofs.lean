/-
  Xv6.Fs.TableProofs — the functions of the inode table over `Mid`: what each does to the
  references and locks a call holds. Only `iput` and `ialloc` change the volume: `Drop`
  is the one, `Born` the other.
-/

import Xv6.Fs.Mid

namespace Xv6.Fs

open Lib Vol

variable {sb : Superblock} {V V' : Vol} {i : Nat} {safe : Guard} {c : Ctx} {s t : St}
  {T T' : List (Idx × Nat)} {L L' : List Idx} {ip : Idx}

/-! ## iget, idup -/

section

variable (h : Mid sb safe c s V T L)

include h

/-- An entry in use that stays for its inode. -/
theorem entryOk_keep (hpos : 0 < (s.inode ip).ref) {ref : Int} {lock : Bool}
    (href : ref = ((c.kept ip + temps T' ip : Nat) : Int)) (hinum : ∀ p ∈ T', p.1 = ip → (s.inode ip).inum = p.2)
    (hlock : lock = true ↔ ip ∈ L') (hlocked : ip ∈ L' → (s.inode ip).valid = true ∧ 0 < ref)
    (hlast : ∀ j, (V.ino j).nlink = 0 → Loaded s ip j → 0 < ref) :
    EntryOk sb safe c s V T' L' ip { s.inode ip with ref := ref, lock := lock } where
  ref := href
  inum := hinum
  num := h.num ip
  lock := hlock
  locked := hlocked
  lt := fun _ => h.rep.range ip hpos
  uniq := fun _ e he hr hn => he (h.rep.uniq e ip hr hpos hn)
  mem := fun _ hv => ⟨h.rep.mem ip hpos hv, h.rep.live ip (fun e => by cases e) hpos hv⟩
  files := fun _ hv => ⟨hv, rfl⟩
  live := fun hsafe _ => h.live hsafe ip hpos
  orphan := fun j _ _ h0 hp => ⟨hlast j h0 hp, hp.valid, hp.inum⟩

theorem mid_more (hpos : 0 < (s.inode ip).ref) (hinum : (s.inode ip).inum = i) :
    Mid sb safe c { s with inode := upd s.inode ip { s.inode ip with ref := (s.inode ip).ref + 1 } } V
      ((ip, i) :: T) L := by
  have hx : EntryOk sb safe c s V ((ip, i) :: T) L ip { s.inode ip with ref := (s.inode ip).ref + 1 } := by
    refine entryOk_keep h hpos ?_ ?_ (h.locks ip) (fun hL => ⟨(h.locked ip hL).1, by omega⟩) fun _ _ _ => by omega
    · rw [temps_self, h.refs ip]
      omega
    · intro p hp he
      rcases List.mem_cons.mp hp with rfl | hp
      · exact hinum
      · rw [← he]
        exact h.inum p hp
  refine mid_entry h hx (fun e he => temps_other i he) (fun p hp hne => ?_) (fun _ _ => .rfl) h.nodup
  rcases List.mem_cons.mp hp with rfl | hp
  · exact absurd rfl hne
  · exact hp

/-- A free entry taken for inode `i`, to be read in. -/
theorem mid_fresh (h0 : (s.inode ip).ref = 0) (hi : i < sb.ninodes)
    (hnone : ∀ e, 0 < (s.inode e).ref → (s.inode e).inum ≠ i) (hlive : safe.live → Live sb V i) :
    Mid sb safe c { s with
      inode := upd s.inode ip { s.inode ip with dev := ROOTDEV, inum := i, ref := 1, valid := false } } V
      ((ip, i) :: T) L := by
  have hr := h.refs ip
  have hk : c.kept ip = 0 := by omega
  have hT : temps T ip = 0 := by omega
  have hnot : ∀ p ∈ T, p.1 ≠ ip := fun p hp he => by
    have := temps_pos hp
    rw [he] at this
    omega
  refine mid_entry h ⟨?_, ?_, ?_, h.locks ip, ?_, ?_, ?_, ?_, ?_, ?_, ?_⟩ (fun e he => temps_other i he) ?_
    (fun _ _ => .rfl)
    h.nodup
  · simp only [temps_self, hk, hT]
    rfl
  · intro p hp he
    rcases List.mem_cons.mp hp with rfl | hp
    · rfl
    · exact absurd he (hnot p hp)
  · intro h'
    omega
  · intro hL
    have := (h.locked ip hL).2
    omega
  · exact fun _ => ⟨hi, rfl⟩
  · exact fun _ e _ he => hnone e he
  · intro _ hv
    cases hv
  · intro h'
    omega
  · exact fun hsafe _ => hlive hsafe
  · intro j _ _ _ hp
    have := hp.ref
    omega
  · intro p hp hne
    rcases List.mem_cons.mp hp with rfl | hp
    · exact absurd rfl hne
    · exact hp

theorem iget_spec (hi : i < sb.ninodes) (hlive : safe.live → Live sb V i) {Q : Idx → St → Prop}
    (hq : ∀ ip t, Mid sb safe c t V ((ip, i) :: T) L → Q ip t) : wp (iget ROOTDEV i) Q (Fine safe) s := by
  unfold iget
  rw [wp_bind, wp_get]
  split
  · next ip hf =>
    obtain ⟨hr, _, hn⟩ := of_decide_eq_true (first_some hf).1
    exact hq ip _ (mid_more h hr hn)
  next hf =>
  split
  · next ip hf' =>
    refine hq ip _ (mid_fresh h (of_decide_eq_true (first_some hf').1) hi (fun e he hn => ?_) hlive)
    exact of_decide_eq_false (first_none hf e) ⟨he, (h.rep.range e he).2, hn⟩
  · exact trivial

theorem idup_spec (hr : Ref c T ip i) {Q : Idx → St → Prop}
    (hq : ∀ t, Mid sb safe c t V ((ip, i) :: T) L → Q ip t) : wp (idup ip) Q (Fine safe) s := by
  obtain ⟨h1, h2⟩ := mid_ref h hr
  exact hq _ (mid_more h h1 h2)

/-! ## ilock, iunlock -/

theorem mid_lock (hr : Ref c T ip i) (hv : (s.inode ip).valid = true) (hn : ip ∉ L) :
    Mid sb safe c { s with inode := upd s.inode ip { s.inode ip with lock := true } } V T (ip :: L) := by
  obtain ⟨h1, h2⟩ := mid_ref h hr
  have hx : EntryOk sb safe c s V T (ip :: L) ip { s.inode ip with lock := true } :=
    entryOk_keep h h1 (h.refs ip) (fun p hp he => he ▸ h.inum p hp) ⟨fun _ => .head _, fun _ => rfl⟩
      (fun _ => ⟨hv, h1⟩) fun _ _ _ => h1
  refine mid_entry h hx (fun _ _ => rfl) (fun p hp _ => hp) (fun e he => ?_) (List.nodup_cons.mpr ⟨hn, h.nodup⟩)
  rw [List.mem_cons, or_iff_right he]

/-- Locking one that is not, and reading it in. -/
theorem mid_load (hr : Ref c T ip i) (hv : (s.inode ip).valid = false) (hn : ip ∉ L) (ht : (V.ino i).type ≠ 0) :
    Mid sb safe c { s with
      inode := upd s.inode ip { s.inode ip with toDinode := V.ino i, lock := true, valid := true } } V T
      (ip :: L) := by
  obtain ⟨h1, h2⟩ := mid_ref h hr
  refine mid_entry h ⟨h.refs ip, fun p hp he => he ▸ h.inum p hp, h.num ip, ⟨fun _ => .head _, fun _ => rfl⟩,
    fun _ => ⟨rfl, h1⟩, fun _ => h.rep.range ip h1, fun _ e he hr' hn' => he (h.rep.uniq e ip hr' h1 hn'), ?_, ?_,
    fun hsafe _ => h.live hsafe ip h1, fun _ _ _ _ hp => ⟨h1, rfl, hp.inum⟩⟩ (fun _ _ => rfl)
    (fun p hp _ => hp) (fun e he => ?_)
    (List.nodup_cons.mpr ⟨hn, h.nodup⟩)
  · intro _ _
    rw [h2]
    exact ⟨rfl, ht⟩
  · intro _ hv'
    rw [hv] at hv'
    cases hv'
  · rw [List.mem_cons, or_iff_right he]

end

variable {Q : Unit → St → Prop} {type : Int16}

theorem ilock_spec (h : Mid sb safe c s V T L) (hr : Ref c T ip i)
    (hq : ∀ t, Mid sb safe c t V T (ip :: L) → Live sb V i → Q () t) :
    wp (ilock sb ip) Q (Fine safe) s := by
  obtain ⟨h1, h2⟩ := mid_ref h hr
  unfold ilock acquiresleep
  rw [wp_bind, wp_getInode, if_neg (by omega), wp_bind, wp_bind, wp_getInode]
  by_cases hlock : (s.inode ip).lock = true
  · rw [if_pos hlock]
    exact trivial
  have hn : ip ∉ L := fun hL => hlock ((h.locks ip).mpr hL)
  rw [if_neg hlock, wp_setInode]
  by_cases hv : (s.inode ip).valid = true
  · rw [if_pos hv]
    exact hq _ (mid_lock h hr hv hn) (loaded_live h.rep ⟨h1, hv, h2⟩)
  have hlt := (h.rep.range ip h1).1
  have hdisk : getDinode (s.data (sb.IBLOCK (s.inode ip).inum)) (ioff (s.inode ip).inum) = V.ino i := by
    rw [h.rep.disk _ hlt (fun e he => by cases he), h2]
  rw [if_neg hv, wp_bind, wp_bread, wp_bind, wp_brelse, St.withBufs_bufs, relse_cons]
  simp only [hdisk, wp_bind, wp_setInode, upd_same, upd_upd, wp_ite, wp_throw, wp_pure]
  by_cases ht : (V.ino i).type = 0
  -- the inode is free: it can be so only where entries may dangle
  · rw [if_pos ht]
    intro hsafe
    have := h.live hsafe ip h1
    rw [h2] at this
    exact this.2 ht
  · rw [if_neg ht]
    exact hq _ (mid_load h hr (Bool.eq_false_iff.mpr hv) hn ht) ⟨h2 ▸ hlt, ht⟩

theorem iunlock_spec (h : Mid sb safe c s V T (ip :: L))
    (hq : ∀ t, Mid sb safe c t V T L → (t.inode ip).valid = (s.inode ip).valid → Q () t) :
    wp (iunlock ip) Q (Fine safe) s := by
  obtain ⟨hv, h1⟩ := h.locked ip (.head _)
  have hlock : (s.inode ip).lock = true := (h.locks ip).mpr (.head _)
  obtain ⟨hn, hnd⟩ := List.nodup_cons.mp h.nodup
  unfold iunlock releasesleep
  rw [wp_bind, wp_getInode, if_neg (by rw [hlock]; simp only [Bool.true_eq_false, false_or]; omega)]
  have hx : EntryOk sb safe c s V T L ip { s.inode ip with lock := false } :=
    entryOk_keep h h1 (h.refs ip) (fun p hp he => he ▸ h.inum p hp) ⟨(fun h' => by cases h'), fun h' => absurd h' hn⟩
      (fun h' => absurd h' hn) fun _ _ _ => h1
  refine hq _ (mid_entry h hx (fun _ _ => rfl) (fun p hp _ => hp) (fun e he => ?_) hnd) (by simp only [upd_same])
  rw [List.mem_cons, or_iff_right he]

/-! ## iput -/

/-- A reference to inode `i` was dropped: nothing else happens, or it was the last one to
    an inode without links, which is freed. -/
def Drop (sb : Superblock) (c : Ctx) (T : List (Idx × Nat)) (V V' : Vol) (i : Nat) : Prop :=
  V' = V ∨ (Live sb V i ∧ (V.ino i).nlink = 0 ∧ Emptied V V' i 0 ∧ ∀ e j, Ref c T e j → j ≠ i)

/-- An inode that keeps no link is not freed only because it is still referred to. -/
def Spared (c : Ctx) (T : List (Idx × Nat)) (V V' : Vol) (i : Nat) : Prop :=
  V' = V → (V.ino i).nlink = 0 → ∃ e, Ref c T e i

/-- Should the last reference to inode `i` be dropped, then freeing it is on the bill. -/
def Covered (sb : Superblock) (c : Ctx) (T : List (Idx × Nat)) (V : Vol) (i : Nat) : Prop :=
  Live sb V i → (V.ino i).nlink = 0 → (∃ e, Ref c T e i) ∨ c.bill.free (sb.IBLOCK i)

theorem emptied_type {ty ty' : Int16} (h : Emptied V V' i ty) :
    Emptied V (V'.setIno i { V'.ino i with type := ty' }) i ty' where
  ino := fun j hj => by rw [← h.ino j hj]; exact upd_ne _ _ hj
  hdr := by
    simp only [setIno, upd_same]
    rw [h.hdr]
  blk := h.blk
  used := h.used

theorem emptied_node (h : Emptied V V' i 0) : node sb V' = upd (node sb V) i .free := by
  have hfree : node sb V' i = .free := node_free fun hl => hl.2 (by rw [h.hdr])
  rw [← hfree]
  exact node_upd fun j hj => node_congr (h.ino j hj) fun _ => emptied_raw h hj

section

variable (h : Mid sb safe c s V ((ip, i) :: T) L)

include h

/-- Nobody else refers to what the last reference is for. -/
theorem last_ref (h1 : (s.inode ip).ref = 1) (e : Idx) (j : Nat) (hr : Ref c T e j) :
    j ≠ i := by
  intro hj
  have hrip := h.refs ip
  rw [temps_self] at hrip
  have hip : (s.inode ip).inum = i := h.inum _ (.head _)
  obtain ⟨h2, h3⟩ := mid_ref h (show Ref c ((ip, i) :: T) e j from hr.imp_left (List.mem_cons_of_mem _))
  have heq : e = ip := h.rep.uniq e ip h2 (by omega) (h3.trans (hj.trans hip.symm))
  subst heq
  rcases hr with hm | ⟨hm, _⟩
  · have := temps_pos hm
    dsimp only at this
    omega
  · omega

/-- The last reference is gone, and the inode with it. -/
theorem mid_gone (hn : ip ∉ L) (h1 : (s.inode ip).ref = 1) (hi : Live sb V i) (he : Emptied V V' i 0)
    (hrep : Rep sb t V' none) (ht : Tame sb s V t V') (hino : ∀ e, e ≠ ip → t.inode e = s.inode e)
    (hx : (t.inode ip).ref = 0 ∧ (t.inode ip).lock = false) (hlog : c.bill.Fits t.log) :
    Mid sb safe c t V' T L := by
  have hr := h.refs ip
  rw [temps_self] at hr
  have hk : c.kept ip = 0 := by omega
  have hT : temps T ip = 0 := by omega
  have hnot : ∀ p ∈ T, p.1 ≠ ip := fun p hp he' => by
    have := temps_pos hp
    rw [he'] at this
    omega
  have hip : (s.inode ip).inum = i := h.inum _ (.head _)
  have hother : ∀ e, e ≠ ip → 0 < (s.inode e).ref → (s.inode e).inum ≠ i := fun e hne hr' hn' =>
    hne (h.rep.uniq e ip hr' (by omega) (hn'.trans hip.symm))
  refine ⟨hrep, emptied_sound he h.sound hi, fun h' => emptied_noLeak he (h.noLeak h'),
    fun j hj => emptied_holeFree he h.holes hj, ?_,
    stable_tame h.stable ht, ht.file.trans h.file, ht.proc.trans h.proc, fun e => ?_, fun p hp => ?_,
    fun e hke => ?_, fun e => ?_,
    fun e heL => ?_, h.nodup, fun f hf => ?_, fun hsafe e hre => ?_, fun e hke => ?_, fun j hj hlj h0 => ?_,
    h.bitmap, hlog, h.room⟩
  · rw [emptied_node he]
    exact dirRange_upd h.dirs fun ht' => by cases ht'
  · by_cases e1 : e = ip
    · rw [e1, hx.1, hk, hT]
      rfl
    · rw [hino e e1, h.refs e, temps_other i e1]
  · rw [hino p.1 (hnot p hp)]
    exact h.inum p (.tail _ hp)
  · rw [hino e fun e1 => by rw [e1] at hke; omega]
    exact h.num e hke
  · by_cases e1 : e = ip
    · rw [e1, hx.2]
      exact ⟨(fun h' => by cases h'), fun h' => absurd h' hn⟩
    · rw [hino e e1]
      exact h.locks e
  · rw [hino e fun e1 => hn (e1 ▸ heL)]
    exact h.locked e heL
  · obtain ⟨h2, h3⟩ := h.files f hf
    rw [hino _ fun e1 => by rw [e1] at h2; omega]
    exact ⟨h2, h3⟩
  · have e1 : e ≠ ip := fun e1 => by rw [e1] at hre; omega
    rw [hino e e1] at hre ⊢
    have hl := h.live hsafe e hre
    exact ⟨hl.1, by rw [he.ino _ (hother e e1 hre)]; exact hl.2⟩
  · rw [hino e fun e1 => by rw [e1] at hke; omega]
    exact h.unread e hke
  · have hji : j ≠ i := fun e1 => hlj.2 (by rw [e1, he.hdr])
    have hlj' : Live sb V j := ⟨hlj.1, by rw [← he.ino j hji]; exact hlj.2⟩
    rw [he.ino j hji] at h0
    obtain ⟨e, hp⟩ := h.orphan j hj hlj' h0
    have e1 : e ≠ ip := fun e1 => hji (by rw [← hp.inum, e1, hip])
    exact ⟨e, by rw [hino e e1]; exact hp.ref, by rw [hino e e1]; exact hp.valid, by rw [hino e e1]; exact hp.inum⟩

/-- One reference less, and more are left or the inode has links. -/
theorem mid_less (hn : ip ∈ L → 0 < c.kept ip + temps T ip)
    (hlast : (s.inode ip).valid = true → (V.ino i).nlink = 0 → 0 < c.kept ip + temps T ip) :
    Mid sb safe c { s with inode := upd s.inode ip { s.inode ip with ref := (s.inode ip).ref - 1 } } V T L := by
  obtain ⟨hpos, hnum⟩ := mid_ref h (.inl (.head _))
  have hx : EntryOk sb safe c s V T L ip { s.inode ip with ref := (s.inode ip).ref - 1 } := by
    have hr := h.refs ip
    rw [temps_self] at hr
    refine entryOk_keep h hpos (by omega) (fun p hp he => he ▸ h.inum p (.tail _ hp)) (h.locks ip) (fun hL => ?_)
      fun j h0 hp => ?_
    · have := hn hL
      exact ⟨(h.locked ip hL).1, by omega⟩
    · have := hlast hp.valid (by rw [← hnum, hp.inum]; exact h0)
      omega
  exact mid_entry h hx (fun e he => (temps_other i he).symm) (fun p hp _ => .tail _ hp) (fun _ _ => .rfl) h.nodup

end

/-- `iput` of the last reference to an inode without links. -/
theorem iput_frees {E : Panic → Prop} {R : Log.LogSt → Prop} (hl : sb.Layout) (h : Rep sb s V none)
    (hp : Loaded s ip i) (hlock : (s.inode ip).lock = false) (h1 : (s.inode ip).ref = 1)
    (hnl : (V.ino i).nlink = 0) (hs : Sound sb V)
    (hB : ∀ k, V.slot i k ≠ 0 → Logs E (sb.BBLOCK (V.slot i k)) R R) (hI : Logs E (sb.IBLOCK i) R R)
    (hr : R s.log)
    (hq : ∀ t V', Rep sb t V' none → Emptied V V' i 0 → Tame sb s V t V' → (∀ e, e ≠ ip → t.inode e = s.inode e) →
      (t.inode ip).ref = 0 ∧ (t.inode ip).lock = false → R t.log → Q () t) :
    wp (iput sb ip) Q E s := by
  have hi : Live sb V i := loaded_live h hp
  have hino := loaded_ino h hp
  unfold iput
  rw [wp_bind, wp_getInode]
  rw [if_pos ⟨h1, hp.valid, by rw [hino]; exact hnl⟩, wp_bind]
  unfold acquiresleep
  rw [wp_bind, wp_getInode, if_neg (by rw [hlock]; decide)]
  have h' : Rep sb { s with inode := upd s.inode ip { s.inode ip with lock := true } } V none := by
    refine rep_entry h (fun e he => by cases he) (fun j hj => h.disk j hj fun e he => by cases he)
      (fun _ => h.range ip hp.ref)
      (fun _ e he hre hn => he (h.uniq e ip hre hp.ref hn)) fun _ _ => ?_
    exact ⟨h.mem ip hp.ref hp.valid, h.live ip (Option.some_ne_none _).symm hp.ref hp.valid⟩
  have hp' : Loaded { s with inode := upd s.inode ip { s.inode ip with lock := true } } ip i := by
    refine ⟨?_, ?_, ?_⟩ <;> simp only [upd_same]
    · exact hp.ref
    · exact hp.valid
    · exact hp.inum
  refine wp_then (itrunc_spec hl h' hp' hi hs hB hI hr fun t1 V1 h1' ht1 hi1 he1 hr1 => ?_)
  -- the type goes to the disk, while the entry still counts as loaded
  have hp1 := loaded_put hi1 hp'
  have hfit : ({ V1.ino i with type := 0 } : Dinode).Fits := ⟨(h1'.fits i hi.1).size, (h1'.fits i hi.1).addrs⟩
  have he2 : Emptied V (V1.setIno i { V1.ino i with type := 0 }) i 0 := emptied_type he1
  refine wp_then (wp_setIno (d := { V1.ino i with type := 0 }) (by rw [← loaded_ino h1' hp1]) ?_)
  rw [wp_bind]
  have h2 := rep_putIno h1' hp1 hfit fun e he => by cases he
  have hp2 := loaded_put (s := t1) (t := { t1 with inode := putIno t1 ip { V1.ino i with type := 0 } }) rfl hp1
  have ht2 : Tame sb t1 V1 { t1 with inode := putIno t1 ip { V1.ino i with type := 0 } }
      (V1.setIno i { V1.ino i with type := 0 }) := by
    refine ⟨rfl, rfl, rfl, rfl, rfl, fun _ => id, fun _ _ => .inl rfl, fun j k b hb _ => ?_⟩
    obtain ⟨hj, hb'⟩ := (emptied_holds he2 j k b).mp hb
    exact ⟨(emptied_holds he1 j k b).mpr ⟨hj, hb'⟩, by rw [he2.ino j hj, he1.ino j hj]⟩
  refine iupdate_spec hl h2 hp2 (fun e he => by cases he; rfl) hI (by exact hr1) fun t3 h3 hdisk ht3 hi3 hr3 => ?_
  simp only [wp_bind, wp_setInode, releasesleep, upd_same, upd_upd]
  have hother : ∀ e, e ≠ ip → t3.inode e = s.inode e := fun e he => by
    rw [hi3]
    simp only [putIno, upd_ne _ _ he, hi1]
  have href : (t3.inode ip).ref - 1 = 0 := by
    have : (t3.inode ip).ref = (s.inode ip).ref := by
      rw [hi3]
      simp only [putIno, upd_same, hi1]
    omega
  refine hq { t3 with
    inode := upd t3.inode ip { t3.inode ip with ref := (t3.inode ip).ref - 1, lock := false, valid := false } } _
    (rep_entry h3 (fun e he => by cases he; rfl) hdisk (fun hx => absurd hx (by simp only [href]; omega))
      (fun hx => absurd hx (by simp only [href]; omega)) fun hx => absurd hx (by simp only [href]; omega)) he2
    (tame_inode (tame_trans (tame_inode tame_refl) (tame_trans ht1 (tame_trans ht2 ht3))))
    (fun e he => by simp only [upd_ne _ _ he]; exact hother e he)
      ⟨by simp only [upd_same]; exact href, by simp only [upd_same]⟩ hr3

/-- The entry may be locked, if this is not its last reference. -/
theorem iput_spec (hl : sb.Layout) (h : Mid sb safe c s V ((ip, i) :: T) L)
    (hL : ip ∈ L → 0 < c.kept ip + temps T ip) (hb : Covered sb c T V i)
    (hq : ∀ t V', Mid sb safe c t V' T L → Drop sb c T V V' i →
      ((s.inode ip).valid = true → Spared c T V V' i) → Q () t) :
    wp (iput sb ip) Q (Fine safe) s := by
  have hr : Ref c ((ip, i) :: T) ip i := .inl (.head _)
  obtain ⟨hpos, hinum⟩ := mid_ref h hr
  by_cases hc : (s.inode ip).ref = 1 ∧ (s.inode ip).valid = true ∧ (s.inode ip).nlink = 0
  · obtain ⟨h1, hv, hnl⟩ := hc
    have hn : ip ∉ L := fun hm => by
      have h2 := hL hm
      have h3 := h.refs ip
      rw [temps_self] at h3
      omega
    have hp : Loaded s ip i := ⟨hpos, hv, hinum⟩
    have hi : Live sb V i := loaded_live h.rep hp
    have hnl' : (V.ino i).nlink = 0 := by rw [← loaded_ino h.rep hp]; exact hnl
    have hnone := last_ref h h1
    have hI : c.bill.free (sb.IBLOCK i) := (hb hi hnl').resolve_left fun ⟨e, he⟩ => hnone e i he rfl
    refine iput_frees hl h.rep hp (Bool.eq_false_iff.mpr fun hlock => hn ((h.locks ip).mp hlock)) h1 hnl' h.sound
      (fun k hk => mid_logs h (h.bitmap _ (h.sound.range i k _ ⟨hi, rfl, hk⟩).2))
      (mid_logs h hI) h.logged fun t V' hrep he ht hother hx hlog => ?_
    refine hq t V' (mid_gone h hn h1 hi he hrep ht hother hx hlog) (.inr ⟨hi, hnl', he, hnone⟩) fun _ hsame => ?_
    exact absurd (congrArg (fun W : Vol => (W.ino i).type) hsame) (by rw [he.hdr]; exact fun e => hi.2 e.symm)
  · unfold iput
    rw [wp_bind, wp_getInode]
    rw [if_neg hc]
    have hlast : (s.inode ip).valid = true → (V.ino i).nlink = 0 → 0 < c.kept ip + temps T ip := fun hv h0 => by
      have h3 := h.refs ip
      rw [temps_self] at h3
      have h4 : (s.inode ip).nlink = 0 := by rw [h.rep.mem ip (by omega) hv, hinum]; exact h0
      have h5 : (s.inode ip).ref ≠ 1 := fun h5 => hc ⟨h5, hv, h4⟩
      omega
    refine hq _ V (mid_less h hL hlast) (.inl rfl) fun hv _ h0 => ⟨ip, ?_⟩
    have hpos := hlast hv h0
    by_cases hk : 0 < c.kept ip
    · exact .inr ⟨hk, by rw [← h.num ip hk, hinum]⟩
    · obtain ⟨p, hp, hpi⟩ := List.mem_map.mp (List.count_pos_iff.mp (by omega : 0 < temps T ip))
      refine .inl ?_
      have : p = (ip, i) := Prod.ext hpi (by rw [← h.inum p (.tail _ hp), hpi, hinum])
      exact this ▸ hp

theorem iunlockput_spec (hl : sb.Layout) (h : Mid sb safe c s V ((ip, i) :: T) (ip :: L)) (hb : Covered sb c T V i)
    (hq : ∀ t V', Mid sb safe c t V' T L → Drop sb c T V V' i → Spared c T V V' i → Q () t) :
    wp (iunlockput sb ip) Q (Fine safe) s := by
  have hn := (List.nodup_cons.mp h.nodup).1
  have hv := (h.locked ip (.head _)).1
  exact wp_then (iunlock_spec h fun t ht hvt =>
    iput_spec hl ht (fun hm => absurd hm hn) hb fun u V' hu hd hs => hq u V' hu hd (hs (hvt.trans hv)))

/-! ## ialloc -/

theorem new_node (hi : i < sb.ninodes) (ht : type ≠ 0) :
    node sb (V.setIno i (.ofType type)) = upd (node sb V) i ⟨type, 0, 0, fun _ => 0⟩ := by
  have hself : (V.setIno i (.ofType type)).ino i = .ofType type := upd_same _ _ _
  have hnode : node sb (V.setIno i (.ofType type)) i = ⟨type, 0, 0, fun _ => 0⟩ := by
    rw [node_live ⟨hi, by rw [hself]; exact ht⟩, hself, funext new_raw_self]
    rfl
  rw [← hnode]
  exact node_upd fun j hj => node_congr (upd_ne _ _ hj) fun _ => new_raw hj

def Ctx.except (c : Ctx) (i : Nat) :
    Ctx := { c with scope := { c.scope with stray := fun j => c.scope.stray j ∨ j = i } }

section

variable (hl : sb.Layout) (h : Mid sb safe c s V T L)

include hl h

/-- The inode is allocated on disk; nobody refers to it yet. -/
theorem mid_alloc (hi : i < sb.ninodes) (h0 : (V.ino i).type = 0) (ht : type ≠ 0)
    (hw : Wrote s t (sb.IBLOCK i)
      (((s.data (sb.IBLOCK i)).splice (ioff i) 64 fun _ => 0).putLE (ioff i) 2 (ofShort type)))
    (hlog : c.bill.Fits t.log) : Mid sb safe (c.except i) t (V.setIno i (.ofType type)) T L := by
  have hdead : ¬ Live sb V i := fun hl' => hl'.2 h0
  have hh : ∀ j k b, Holds sb (V.setIno i (.ofType type)) j k b ↔ Holds sb V j k b := new_holds hdead
  have hnone : ∀ e, 0 < (s.inode e).ref → (s.inode e).valid = true → (s.inode e).inum ≠ i := fun e hr hv he =>
    h.rep.live e (fun e => by cases e) hr hv (he ▸ h0)
  have hrep : Rep sb t (V.setIno i (.ofType type)) none := by
    refine rep_inode hl h.rep hi hw (fun x hx => ?_) (Dinode.fits_ofType type) (getDinode_ialloc _ type (ioff_le i))
      (fun e he => by cases he) (fun e hr hv he => absurd he (hnone e hr hv)) fun e _ hr hv he =>
        absurd he (hnone e hr hv)
    rw [Bytes.putLE, Bytes.get_splice_out _ _ (by omega), Bytes.get_splice_out _ _ hx]
  have htame : Tame sb s V t (V.setIno i (.ofType type)) := by
    refine tame_wrote hw fun j k b hb _ => ⟨(hh j k b).mp hb, ?_⟩
    have hj : j ≠ i := fun e => hdead (e ▸ ((hh j k b).mp hb).live)
    simp only [setIno, upd_ne _ _ hj]
  refine ⟨hrep, sound_congr hh rfl h.sound, fun h' => noLeak_congr hh rfl (h.noLeak h'),
    fun j hj => new_holeFree h.holes hj, ?_,
    stable_tame h.stable htame, hw.file.trans h.file, hw.proc.trans h.proc, ?_, ?_, ?_, ?_,
    ?_, h.nodup, ?_, fun hsafe e he => ?_,
    ?_, fun j hj hlj h1 => ?_, h.bitmap, hlog, h.room⟩
  · rw [new_node hi ht]
    refine dirRange_upd h.dirs fun _ k => ?_
    rw [ent_size_zero rfl]
    omega
  · rw [hw.inode]; exact h.refs
  · rw [hw.inode]; exact h.inum
  · rw [hw.inode]; exact h.num
  · rw [hw.inode]; exact h.locks
  · rw [hw.inode]; exact h.locked
  · rw [hw.inode]; exact h.files
  · rw [hw.inode] at he ⊢
    have hle := h.live hsafe e he
    have hne : (s.inode e).inum ≠ i := fun e' => hdead (e' ▸ hle)
    exact ⟨hle.1, by simp only [setIno, upd_ne _ _ hne]; exact hle.2⟩
  · rw [hw.inode]; exact h.unread
  · have hji : j ≠ i := fun e => hj (.inr e)
    simp only [Live, setIno, upd_ne _ _ hji] at hlj h1
    obtain ⟨e, he⟩ := h.orphan j (fun hs => hj (.inl hs)) hlj h1
    exact ⟨e, loaded_same hw.inode he⟩

theorem iallocFrom_spec (hn1 : c.Affords safe 1) (ht : type ≠ 0) {Q : Option Idx → St → Prop}
    (hnone : (∀ i, i ≠ 0 → i < sb.ninodes → (V.ino i).type ≠ 0) → Q none s)
    (hsome : ∀ ip i t, i ≠ 0 → i < sb.ninodes → (V.ino i).type = 0 →
      Mid sb safe ((c.pay (sb.IBLOCK i)).except i) t (V.setIno i (.ofType type)) ((ip, i) :: T) L → Q (some ip) t)
    (fuel : Nat) :
    ∀ n, n ≠ 0 → sb.ninodes ≤ n + fuel → (∀ i, i ≠ 0 → i < n → (V.ino i).type ≠ 0) →
      wp (iallocFrom sb ROOTDEV type fuel n) Q (Fine safe) s := by
  induction fuel with
  | zero =>
    intro n _ hfuel hbusy
    exact hnone fun i h0 hlt => hbusy i h0 (by omega)
  | succ fuel ih =>
    intro n hn hfuel hbusy
    unfold iallocFrom
    by_cases hlt : n < sb.ninodes
    · rw [if_pos hlt, wp_bind, wp_bread, h.rep.disk n hlt fun e he => by cases he]
      by_cases h0 : (V.ino n).type = 0
      · rw [if_pos h0]
        have hpay := mid_pay h hn1 (sb.IBLOCK n)
        refine wp_write (mid_logs hpay (.inr rfl)) hpay.logged fun t hw hlog => ?_
        rw [wp_bind]
        have hself : (V.setIno n (.ofType type)).ino n = .ofType type := upd_same _ _ _
        refine iget_spec (mid_alloc hl hpay hlt h0 ht hw hlog) hlt (fun _ => ⟨hlt, by rw [hself]; exact ht⟩)
          fun ip u hu => ?_
        exact hsome ip n u hn hlt h0 hu
      · rw [if_neg h0, wp_bind, wp_brelse, St.withBufs_bufs, relse_cons]
        refine ih (n + 1) (Nat.succ_ne_zero n) (by omega) fun i hi hin => ?_
        rcases Nat.lt_succ_iff_lt_or_eq.mp hin with h1 | rfl
        · exact hbusy i hi h1
        · exact h0
    · rw [if_neg hlt]
      exact hnone fun i h0 hi => hbusy i h0 (by omega)

theorem ialloc_spec (hn : c.Affords safe 1) (ht : type ≠ 0) {Q : Option Idx → St → Prop}
    (hnone : (∀ i, i ≠ 0 → i < sb.ninodes → (V.ino i).type ≠ 0) → Q none s)
    (hsome : ∀ ip i t, i ≠ 0 → i < sb.ninodes → (V.ino i).type = 0 →
      Mid sb safe ((c.pay (sb.IBLOCK i)).except i) t (V.setIno i (.ofType type)) ((ip, i) :: T) L → Q (some ip) t) :
    wp (ialloc sb ROOTDEV type) Q (Fine safe) s :=
  iallocFrom_spec hl h hn ht hnone hsome sb.ninodes 1 Nat.one_ne_zero (Nat.le_add_left _ _) fun i h0 hi =>
    absurd hi (by omega)

end

/-! ## Transactions -/

theorem beginOp_spec (h : Mid sb safe c s V T L) (hq : ∀ t, Mid sb safe c t V T L → Q () t) :
    wp beginOp Q (Fine safe) s := by
  unfold beginOp
  rw [wp_bind, wp_get]
  split
  · next l hb =>
    rw [beginOp_some hb]
    refine hq _ (mid_log h h.stable (List.Sublist.refl _) fun hout => ?_)
    exact h.logged.inside (by dsimp only at hout; omega)
  · exact trivial

theorem endOp_spec (h : Mid sb safe c s V T L) (hq : ∀ t, Mid sb safe c t V T L → Q () t) :
    wp endOp Q (Fine safe) s := by
  unfold endOp
  rw [wp_bind, wp_get]
  split
  · next x hx =>
    refine fine_log x fun e => ?_
    subst e
    unfold Log.endOp at hx
    dsimp only at hx
    split at hx
    · cases hx
    · split at hx <;> cases hx
  · next l doCommit hb =>
    obtain ⟨hlh, hout, hlast⟩ := endOp_ok hb
    split
    -- the blocks of the transaction are installed; the others stand as they stood
    · refine hq _ (mid_log h (fun b _ => ?_) (List.nil_sublist _) fun _ => rfl)
      by_cases hm : b ∈ l.lh
      · exact .inl (if_pos hm).symm
      · rcases h.stable b (by rw [← hlh]; exact hm) with he | hloose
        · exact .inl (he.trans (if_neg hm).symm)
        · exact .inr hloose
    · next hcommit =>
      refine hq _ (mid_log h (fun b hb' => ?_) (hlh ▸ List.Sublist.refl _) fun h1 => ?_)
      · exact h.stable b (by rw [← hlh]; exact hb')
      · have := hlast (Bool.eq_false_iff.mpr hcommit)
        rw [hlh]
        exact h.logged.inside (by omega)

end Xv6.Fs
