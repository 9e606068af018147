/-
  Xv6.Fs.CreateProofs — `create` over `Mid`: it makes one inode and one entry, or gives up
  and leaves the inode free again, on every way out.
-/

import Xv6.Fs.Namespace

namespace Xv6.Fs

open Lib Vol

variable {sb : Superblock} {F G : Nat → Node} {V V' : Vol} {i d : Nat} {safe : Guard} {c : Ctx}
  {s t : St} {T : List (Idx × Nat)} {L : List Idx} {ip dp : Idx} {K : Nat → Prop}

/-! ## Headers -/

/-- Link count and device numbers of a locked inode are changed and written back. -/
theorem header_spec {α : Type} (hl : sb.Layout) (h : Mid sb safe c s V T L) (hr : Ref c T ip i) (hL : ip ∈ L)
    (hI : c.bill.free (sb.IBLOCK i)) {f : Inode → Inode} (major minor nlink : Int16)
    (hf : f (s.inode ip) = { s.inode ip with
      toDinode := { V.ino i with major := major, minor := minor, nlink := nlink } })
    {g : Unit → M α} {Q : α → St → Prop}
    (hq : ∀ t V', Mid sb safe c t V' T L → node sb V' = upd (node sb V) i ((node sb V i).withLinks nlink) →
      (∀ d k, EntryFits sb V' d k ↔ EntryFits sb V d k) → wp (g ()) Q (Fine safe) t) :
    wp (setInode ip f >>= fun _ => iupdate sb ip >>= g) Q (Fine safe) s := by
  have hp := mid_loaded h hr hL
  have hi := loaded_live h.rep hp
  have hfits := h.rep.fits i hi.1
  refine wp_update hl h.rep hp (fun e he => by cases he) hf ⟨hfits.size, hfits.addrs⟩ rfl rfl hi.2
    (mid_logs h hI) h.logged fun u hrep htame hino hlog => ?_
  generalize hd : ({ V.ino i with major := major, minor := minor, nlink := nlink } : Dinode) = x at *
  have ha : x.addrs = (V.ino i).addrs := by rw [← hd]
  have ht : x.type = (V.ino i).type := by rw [← hd]
  have hsz : x.size = (V.ino i).size := by rw [← hd]
  have hself : (V.setIno i x).ino i = x := upd_same _ _ _
  have hother : ∀ j, j ≠ i → (V.setIno i x).ino j = V.ino j := fun j hj => upd_ne _ _ hj
  have hsize : ∀ j, ((V.setIno i x).ino j).size = (V.ino j).size := fun j => by
    by_cases e : j = i
    · rw [e, hself, hsz]
    · rw [hother j e]
  have hi' : Live sb (V.setIno i x) i := (setIno_live ht i).mpr hi
  have hnode : node sb (V.setIno i x) = upd (node sb V) i ((node sb V i).withLinks nlink) := by
    have hnl : x.nlink = nlink := by rw [← hd]
    rw [node_upd fun j hj => node_congr (hother j hj) fun _ y => setIno_raw ha j y, node_live hi',
      node_live hi, hself, ht, hsz, hnl,
      funext (setIno_raw ha i)]
    rfl
  refine hq u _ (mid_put h hp hrep htame (by rw [hself]; exact hino) hother (by rw [hself, ht])
    (setIno_sound ha ht h.sound)
    (setIno_noLeak ha ht) (fun j hj => ?_) ?_ hlog) hnode fun d _ => entryFits_congr (setIno_slot ha d) fun _ _ => rfl
  · intro bn hbn
    rw [hsize j] at hbn
    have haddr : (V.setIno i x).addr j bn = V.addr j bn := setIno_slot ha j _
    rw [haddr]
    exact h.holes j ((setIno_live ht j).mp hj) bn hbn
  · rw [hnode]
    exact dirRange_upd h.dirs fun hty k => h.dirs i k hty

/-! ## A new inode -/

/-- Inode `i`, free before, is now `x`; otherwise inodes were shed only. -/
def Fresh (K : Nat → Prop) (F : Nat → Node) (i : Nat) (x : Node) (W : Nat → Node) :
    Prop := ∃ G, Sheds K F G ∧ G i = .free ∧ W = upd G i x

variable {x y : Node} {name : Name}

theorem fresh_self (h : Fresh K F i x (node sb V)) : node sb V i = x := by
  obtain ⟨G, _, _, hG⟩ := h
  rw [hG, upd_same]

theorem fresh_upd (h : Fresh K F i x (node sb V)) (hn : node sb V' = upd (node sb V) i y) :
    Fresh K F i y (node sb V') := by
  obtain ⟨G, h1, h2, h3⟩ := h
  exact ⟨G, h1, h2, by rw [hn, h3, upd_upd]⟩

/-- An inode that is shed meanwhile is another one. -/
theorem shed_beside {j : Nat} {e : Idx} (hd : Drop sb c T V V' j) (hr : Ref c T e i) (h3 : node sb V = upd G i x) :
    ∃ G', Sheds c.Keeps G G' ∧ G' i = G i ∧ node sb V' = upd G' i x := by
  rcases hd with rfl | ⟨hj, h0, he, hne⟩
  · exact ⟨G, .refl, rfl, h3⟩
  have hji : j ≠ i := (hne e i hr).symm
  have hGj : G j = node sb V j := by rw [h3, upd_ne _ _ hji]
  rw [node_live hj] at hGj
  refine ⟨upd G j .free, .single (.free (by rw [hGj]; exact hj.2) (by rw [hGj]; exact h0) ?_), upd_ne _ _ hji.symm, ?_⟩
  · rintro ⟨e', he'⟩
    exact hne e' j (.inr he') rfl
  · rw [emptied_node he, h3, upd_comm _ _ _ hji.symm]

theorem fresh_drop {j : Nat} {e : Idx} (h : Fresh c.Keeps F i x (node sb V)) (hd : Drop sb c T V V' j)
    (hr : Ref c T e i) :
    Fresh c.Keeps F i x (node sb V') := by
  obtain ⟨G, h1, h2, h3⟩ := h
  obtain ⟨G', h4, h5, h6⟩ := shed_beside hd hr h3
  exact ⟨G', h1.trans h4, h5.trans h2, h6⟩

/-- The entries of another directory are as they were. -/
theorem fresh_closed (hw : Walkable sb safe F) (h : Fresh K F i x (node sb V)) (hx : x.type ≠ 0) (hdi : d ≠ i)
    (hty : (node sb V d).type = T_DIR) : Closed sb safe V d := by
  obtain ⟨G, h1, _, h3⟩ := h
  intro hsafe k hk
  have hd : node sb V d = G d := by rw [h3, upd_ne _ _ hdi]
  rw [hd] at hty hk ⊢
  refine node_type_ne.mp ?_
  rw [h3]
  by_cases e : (G d).ent k = i
  · rw [e, upd_same]
    exact hx
  · rw [upd_ne _ _ e]
    exact hw.closed hsafe G (sheds_calm h1) d k hty hk

/-- Beside the new inode, what has no links is kept as before. -/
theorem fresh_covered (hb : Sheltered sb c F) (h : Fresh c.Keeps F i x (node sb V))
    (hI : c.bill.free (sb.IBLOCK i)) (j : Nat) (T : List (Idx × Nat)) : Covered sb c T V j := by
  obtain ⟨G, h1, _, h3⟩ := h
  by_cases e : j = i
  · subst e
    exact fun _ _ => .inr hI
  · intro hlive
    have hj : node sb V j = G j := by rw [h3, upd_ne _ _ e]
    have hG := sheds_live h1 (by rw [← hj]; exact node_type_ne.mpr hlive)
    exact sheltered_covered hb (hj.trans hG) T hlive

theorem enter_spec (hl : sb.Layout) (hw : Walkable sb safe F) (hb : Sheltered sb c F)
    (h : Mid sb safe c s V T L) (hri : Ref c T ip i) (hrd : Ref c T dp d) (hL : dp ∈ L)
    (hI : c.bill.free (sb.IBLOCK i)) (hD : c.bill.free (sb.IBLOCK d)) (hn : c.Affords safe 2)
    (hF : Fresh c.Keeps F i x (node sb V)) (hx : x.type ≠ 0) (hdi : d ≠ i) (hty : (node sb V d).type = T_DIR)
    {Q : Int → St → Prop}
    (hbad : ∀ t V', Mid sb safe (c.charge 2) t V' T L → Fresh c.Keeps F i x (node sb V') →
      ((node sb V d).lookup name = none → ¬ EntryFits sb V d (node sb V d).gap) → Q (-1) t)
    (hok : ∀ t V' G k, Mid sb safe (c.charge 2) t V' T L → Sheds c.Keeps F G → G i = .free → (G d).Room k name →
      node sb V' = upd (upd G i x) d ((G d).link k i name) → EntryFits sb V d (node sb V d).gap → Q 0 t) :
    wp (dirlink sb dp name i) Q (Fine safe) s := by
  have hi : i < sb.ninodes := by
    refine (node_type_ne.mp (?_ : (node sb V i).type ≠ 0)).1
    rw [fresh_self hF]
    exact hx
  refine dirlink_spec hl h hrd hL hD hn (fun _ _ => fresh_covered hb hF hI _ T) hty (fresh_closed hw hF hx hdi hty) hi
    (fun t V' k _ hname ht hd => ?_) (fun t V' hfit ht hn => ?_) fun t V' hfit ht hno hn => ?_
  · exact hbad t V' ht (fresh_drop hF hd hri) fun hno => absurd hno hname
  · rw [← hn] at hF
    exact hbad t V' ht hF fun _ => hfit
  · obtain ⟨G, h1, h2, h3⟩ := hF
    have hGd : node sb V d = G d := by rw [h3, upd_ne _ _ hdi]
    have hroom : (G d).Room (G d).gap name := hGd ▸ ⟨hty, lookup_eq_none.mp hno, gap_free _, gap_le _⟩
    exact hok t V' G (G d).gap ht h1 h2 hroom (by rw [hn, h3, ← h3, hGd]; rfl) hfit

theorem ent_born (k : Nat) : (Node.born T_DIR).ent k = 0 := ent_size_zero rfl k

theorem linkDots_spec (hl : sb.Layout) (hw : Walkable sb safe F) (hb : Sheltered sb c F)
    (h : Mid sb safe c s V T L) (hri : Ref c T ip i) (hrd : Ref c T dp d) (hL : ip ∈ L)
    (hI : c.bill.free (sb.IBLOCK i)) (hn4 : c.Affords safe 4)
    (hF : Fresh c.Keeps F i (.born T_DIR) (node sb V)) {Q : Bool → St → Prop}
    (hbad : ∀ t V' x, Mid sb safe (c.charge 4) t V' T L → Fresh c.Keeps F i x (node sb V') → x.type ≠ 0 → Q false t)
    (hok : ∀ t V' j, Mid sb safe (c.charge 4) t V' T L → (Node.dotDir i).ent j = 0 →
      DESIZE * j ≤ (Node.dotDir i).size → node sb V' = upd (node sb V) i (.newDir i d j) → Q true t) :
    wp (linkDots sb dp ip) Q (Fine safe) s := by
  have hself := fresh_self hF
  have hT : T_DIR ≠ 0 := by decide
  have hlive : Live sb V i := node_type_ne.mp (by rw [hself]; exact hT)
  unfold linkDots
  rw [wp_bind, wp_getInode, (mid_ref h hri).2, wp_bind]
  refine dirlink_spec hl h hri hL hI (Bill.affords_le hn4 (by decide)) (fun _ _ => fresh_covered hb hF hI _ T)
    (by rw [hself]; rfl) (fun _ k hk => ?_) hlive.1
    (fun t V' k hk _ _ _ => ?_) (fun t V' _ ht hn => ?_) fun t V' _ ht _ hn => ?_
  · rw [hself] at hk
    exact absurd rfl hk
  · rw [hself] at hk
    exact absurd rfl hk
  · rw [← hn] at hF
    exact hbad t V' _ (mid_charge ht 2 (affords_charged hn4 (by decide))) hF hT
  rw [hself, show (Node.born T_DIR).gap = 0 from rfl] at hn
  have hF1 : Fresh c.Keeps F i (.dotDir i) (node sb V') := fresh_upd hF hn
  have hself1 := fresh_self hF1
  rw [if_neg (by decide), wp_bind, wp_getInode, (mid_ref ht hrd).2, wp_bind]
  have hent : ∀ k, (Node.dotDir i).ent k = if k = 0 then i % 65536 else 0 := fun k => by
    rw [Node.dotDir, ent_put (mkDirent_length i dot) (Nat.zero_le _), deInum_mkDirent, ent_born]
  have hd : d < sb.ninodes := by
    obtain ⟨h1, h2⟩ := mid_ref ht hrd
    rw [← h2]
    exact (ht.rep.range dp h1).1
  refine dirlink_spec hl ht hri hL hI (affords_charged hn4 (by decide))
    (fun _ _ => fresh_covered (c := c.charge 2) hb hF1 hI _ T) (by rw [hself1]; rfl)
    (fun hsafe k hk => ?_) hd (fun u W k _ _ hu hdrop => ?_) (fun u W _ hu hnu => ?_) fun u W _ hu _ hnu => ?_
  · have hlt : i % 65536 = i := Nat.mod_eq_of_lt (Nat.lt_of_lt_of_le hlive.1 (hw.small hsafe))
    have hki : (node sb V' i).ent k = i := by
      rw [hself1, hent, hlt] at hk ⊢
      split at hk
      · next e => rw [if_pos e]
      · exact absurd rfl hk
    rw [hki]
    exact node_type_ne.mp (by rw [hself1]; exact hT)
  · exact hbad u W _ hu (fresh_drop (c := c.charge 2) hF1 hdrop hri) hT
  · rw [← hnu] at hF1
    exact hbad u W _ hu hF1 hT
  · rw [hself1] at hnu
    exact hok u W _ hu (gap_free _) (gap_le _) (by rw [hnu, hn, upd_upd]; rfl)

variable {Q : Option Idx → St → Prop} {type : Int16}

/-- The label `fail`: the inode is free again. -/
theorem createFail_spec (hl : sb.Layout) (h : Mid sb safe c s V [(ip, i), (dp, d)] [ip, dp])
    (hI : c.bill.free (sb.IBLOCK i)) (hD : c.bill.free (sb.IBLOCK d)) (hF : Fresh c.Keeps F i x (node sb V))
    (hx : x.type ≠ 0) (hdi : d ≠ i) (hroot : ∀ e, 0 < c.kept e → c.num e = i → i = ROOTINO)
    (hq : ∀ t V', Mid sb safe c t V' [] [] → Fails sb c.Keeps F (node sb V') → Q none t) :
    wp (createFail sb dp ip) Q (Fine safe) s := by
  have hri : Ref c [(ip, i), (dp, d)] ip i := .inl (.head _)
  have hp := mid_loaded h hri (.head _)
  refine header_spec hl h hri (.head _) hI _ _ 0 (by rw [← loaded_ino h.rep hp]) fun t V' ht hn _ => ?_
  rw [fresh_self hF] at hn
  obtain ⟨G, h1, h2, h3⟩ := fresh_upd hF hn
  have hlive : Live sb V' i := node_type_ne.mp (by rw [h3, upd_same]; exact hx)
  have hnl : (V'.ino i).nlink = 0 := by
    have := node_live hlive
    rw [h3, upd_same] at this
    exact (congrArg Node.nlink this).symm
  refine wp_then (iunlockput_spec hl ht (fun _ _ => .inr hI) fun u W hu hd hs => ?_)
  have hfail : Fails sb c.Keeps F (node sb W) := by
    rcases hd with rfl | ⟨_, _, he, _⟩
    · obtain ⟨e, hr⟩ := hs rfl hnl
      rcases hr with hr | ⟨hk, hnum⟩
      · exact absurd (congrArg Prod.snd (List.mem_singleton.mp hr)).symm hdi
      · have hi : i = ROOTINO := hroot e hk hnum
        have hFi : F i = .free := by rw [← sheds_same h1 (.inl ⟨e, hk, hnum⟩), h2]
        rw [h3]
        subst hi
        exact .inr ⟨by rw [hFi]; rfl, chg_op (sheds_calm h1) (.stray (by rw [h2]; rfl) rfl)⟩
    · rw [emptied_node he, h3, upd_upd, ← h2, upd_self]
      exact .inl h1
  exact wp_then (iunlockput_spec hl hu (fun _ _ => .inr hD) fun v W' hv hd' _ =>
    hq v W' hv (fails_then hfail (sheds_drop hd')))

/-- Once it is read in, the new inode is one like any other. -/
theorem mid_settle (h : Mid sb safe (c.except i) s V T L) (hp : Loaded s ip i) : Mid sb safe c s V T L := by
  have hstray : ∀ j, (c.except i).scope.stray j → c.scope.stray j ∨ ∃ e, Loaded s e j := by
    intro j hj
    rcases hj with hj | rfl
    · exact .inl hj
    · exact .inr ⟨ip, hp⟩
  have h' := mid_ctx c h (fun _ => rfl) h.inum h.num h.unread hstray id rfl h.files
  have hs : ({ s with file := c.file, proc := c.proc } : St) = s := by
    rw [← (show s.file = c.file from h.file), ← (show s.proc = c.proc from h.proc)]
  rwa [hs] at h'

def Ready (type : Int16) (i d : Nat) (x : Node) : Prop :=
  if type = T_DIR then ∃ j, (Node.dotDir i).ent j = 0 ∧ DESIZE * j ≤ (Node.dotDir i).size ∧
  x = .newDir i d j else x = .born type

theorem ready_type (h : Ready type i d x) : x.type = type ∧ x.nlink = 1 := by
  unfold Ready at h
  split at h
  · next e =>
    obtain ⟨j, _, _, rfl⟩ := h
    exact ⟨e.symm, rfl⟩
  · rw [h]
    exact ⟨rfl, rfl⟩

structure Made (sb : Superblock) (K : Nat → Prop) (F : Nat → Node) (type : Int16) (i : Nat) (W : Nat → Node) :
    Prop where
  chg : Chg sb F W
  was : ∃ G, Sheds K F G ∧ G i = .free
  type : (W i).type = type
  nlink : (W i).nlink = 1

/-- The end of `create`: the parent of a directory gets one more link. -/
theorem created_spec (hl : sb.Layout) (htype : type ≠ 0) {k : Nat} (h : Mid sb safe c s V [(ip, i), (dp, d)] [ip, dp])
    (hD : c.bill.free (sb.IBLOCK d)) (hF : Sheds c.Keeps F G) (hfree : G i = .free) (h0 : i ≠ 0) (hlt : i < sb.ninodes)
    (hroom : (G d).Room k name) (hx : Ready type i d x) (hn : node sb V = upd (upd G i x) d ((G d).link k i name))
    (hq : ∀ t V', Mid sb safe c t V' [(ip, i)] [ip] → Made sb c.Keeps F type i (node sb V') → Q (some ip) t) : wp (do
      if type = T_DIR then do
        setInode dp fun x => { x with nlink := x.nlink + 1 }
        iupdate sb dp
      else pure ()
      iunlockput sb dp
      return some ip) Q (Fine safe) s := by
  have hri : Ref c [(ip, i)] ip i := .inl (.head _)
  have hrd : Ref c [(ip, i), (dp, d)] dp d := .inl (.tail _ (.head _))
  have hdi : i ≠ d := fun e => by
    have := hroom.dir
    rw [← e, hfree] at this
    cases this
  have hcalm := sheds_calm hF
  have hend : ∀ t V', Mid sb safe c t V' [(ip, i), (dp, d)] [ip, dp] → Chg sb F (node sb V') → node sb V' i = x →
      wp (do iunlockput sb dp; return some ip) Q (Fine safe) t := by
    intro t V' ht hchg hi
    refine wp_then (iunlockput_spec hl (mid_perm ht (List.Perm.swap ..) (List.Perm.swap ..)) (fun _ _ => .inr hD)
      fun u W hu hd _ => ?_)
    have hW : node sb W i = x := (drop_ref hd hri).trans hi
    exact hq u W hu ⟨chg_then hchg (calm_drop hd),
      ⟨G, hF, hfree⟩, by rw [hW]; exact (ready_type hx).1, by rw [hW]; exact (ready_type hx).2⟩
  have hnode : node sb V i = x := by rw [hn, upd_ne _ _ hdi, upd_same]
  by_cases hdir : type = T_DIR
  · have hpd := mid_loaded h hrd (.tail _ (.head _))
    unfold Ready at hx
    rw [if_pos hdir] at hx
    obtain ⟨j, hj0, hj1, rfl⟩ := hx
    have hnd : node sb V d = (G d).link k i name := by rw [hn, upd_same]
    have hnl : (V.ino d).nlink = (G d).nlink := by
      have := node_live (loaded_live h.rep hpd)
      rw [hnd] at this
      exact (congrArg Node.nlink this).symm
    rw [if_pos hdir]
    refine header_spec hl h hrd (.tail _ (.head _)) hD _ _ ((G d).nlink + 1)
      (by rw [← hnl, ← loaded_ino h.rep hpd]) fun t V' ht hn' _ => ?_
    rw [hnd, hn, upd_upd] at hn'
    refine hend t V' ht ?_ (by rw [hn', upd_ne _ _ hdi, upd_same])
    rw [hn']
    exact chg_op hcalm (.mkdir hroom hfree h0 hlt ⟨hj0, hj1⟩)
  · rw [if_neg hdir]
    refine hend s V h ?_ hnode
    unfold Ready at hx
    rw [if_neg hdir] at hx
    rw [hn, hx]
    exact chg_op hcalm (.create hroom hfree h0 hlt ⟨htype, hdir⟩)

/-- A free inode, and a place for its entry in directory `d`. -/
def Vacant (sb : Superblock) (V : Vol) (d : Nat) : Prop :=
  (∃ i, i ≠ 0 ∧ i < sb.ninodes ∧ (V.ino i).type = 0) ∧ EntryFits sb V d (node sb V d).gap

theorem createNew_spec (hl : sb.Layout) (hw : Walkable sb safe F) (hb : Sheltered sb c F)
    (h : Mid sb safe c s V [(dp, d)] [dp]) (hD : c.bill.free (sb.IBLOCK d)) (hn7 : c.Affords safe 7)
    (hF : Sheds c.Keeps F (node sb V)) (hty : (node sb V d).type = T_DIR)
    (hno : (node sb V d).lookup name = none) {major minor : Int16} (htype : type ≠ 0)
    (hnone : ∀ t V', Mid sb safe (c.charge 7) t V' [] [] → Fails sb c.Keeps F (node sb V') →
      (type ≠ T_DIR → ¬ Vacant sb V d) → Q none t)
    (hsome : ∀ ip i t V', Mid sb safe ((c.charge 6).pay (sb.IBLOCK i)) t V' [(ip, i)] [ip] →
      Made sb c.Keeps F type i (node sb V') → (type ≠ T_DIR → Vacant sb V d) → Q (some ip) t) :
    wp (createNew sb dp name type major minor) Q (Fine safe) s := by
  have hrd : Ref c [(dp, d)] dp d := .inl (.head _)
  have hpd := mid_loaded h hrd (.head _)
  unfold createNew
  rw [wp_bind, wp_getInode, loaded_dev h.rep hpd, wp_bind]
  refine ialloc_spec hl h (Bill.affords_le hn7 (by decide)) htype (fun hbusy => ?_) fun ip i t h0 hlt hdead ht => ?_
  · refine wp_then (iunlockput_spec hl h (fun _ _ => .inr hD) fun t V' ht hd _ => ?_)
    refine hnone t V' (mid_charge ht 7 hn7) (.inl (hF.trans (sheds_drop hd))) fun _ hv => ?_
    obtain ⟨⟨i, h0, hlt, hdead⟩, _⟩ := hv
    exact hbusy i h0 hlt hdead
  have hfree : node sb V i = .free := node_free fun hlive => hlive.2 hdead
  have hdi : d ≠ i := fun e => by
    rw [e, hfree] at hty
    cases hty
  -- only an unread current directory could still stand for a free inode
  have hroot : ∀ e, 0 < c.kept e → c.num e = i → i = ROOTINO := fun e hk hnum => by
    rcases h.unread e hk with hv | hr
    · have hr : Ref c [(dp, d)] e i := .inr ⟨hk, hnum⟩
      obtain ⟨h1, h2⟩ := mid_ref h hr
      exact absurd hdead (loaded_live h.rep ⟨h1, hv, h2⟩).2
    · exact hnum.symm.trans hr
  -- from here on the new inode's block is paid for
  have hI : ∀ n, ((c.pay (sb.IBLOCK i)).charge n).bill.free (sb.IBLOCK i) := fun _ => .inr rfl
  have hD' : ∀ n, ((c.pay (sb.IBLOCK i)).charge n).bill.free (sb.IBLOCK d) := fun _ => .inl hD
  have hb' : ∀ n, Sheltered sb ((c.pay (sb.IBLOCK i)).charge n) F := fun _ j h1 h2 => (hb j h1 h2).imp_right .inl
  have hnone' : (type ≠ T_DIR → ¬ EntryFits sb V d (node sb V d).gap) → ∀ t V',
    Mid sb safe ((c.pay (sb.IBLOCK i)).charge 6) t V' [] [] →
      Fails sb c.Keeps F (node sb V') → Q none t := fun hfit t V' ht hf =>
    hnone t V' (mid_paid (c := c.charge 6) ht h.bitmap (affords_charged hn7 (by decide))) hf fun hfile hv =>
      hfit hfile hv.2
  have hafford : ∀ {m k}, m + k ≤ 6 → ((c.pay (sb.IBLOCK i)).charge m).Affords safe k :=
    affords_charged (affords_paid hn7 (by decide))
  have hri : Ref c [(ip, i), (dp, d)] ip i := .inl (.head _)
  have hrd' : Ref c [(ip, i), (dp, d)] dp d := .inl (.tail _ (.head _))
  have hF0 : Fresh c.Keeps F i ⟨type, 0, 0, fun _ => 0⟩ (node sb (V.setIno i (.ofType type))) :=
    ⟨node sb V, hF, hfree, new_node hlt htype⟩
  have hfit0 : ∀ k, EntryFits sb (V.setIno i (.ofType type)) d k ↔ EntryFits sb V d k := fun k =>
    entryFits_congr (fun l => slot_congr l (fun _ => by simp only [setIno, upd_ne _ _ hdi]) fun _ => rfl) fun _ _ => rfl
  refine wp_then (ilock_spec ht hri fun u hu _ => ?_)
  have hpu := mid_loaded hu hri (.head _)
  refine header_spec hl (mid_settle hu hpu) hri (.head _) (hI 0) major minor 1
    (by rw [← loaded_ino hu.rep hpu]) fun v W hv hn hfit1 => ?_
  have hnd : node sb W d = node sb V d := by rw [hn, upd_ne _ _ hdi, new_node hlt htype, upd_ne _ _ hdi]
  rw [fresh_self hF0] at hn
  have hF1 : Fresh c.Keeps F i (.born type) (node sb W) := fresh_upd hF0 hn
  -- from the entry in the parent on, which is as it was unless the new inode is a directory
  have henter : ∀ u W' x, Mid sb safe ((c.pay (sb.IBLOCK i)).charge 4) u W' [(ip, i), (dp, d)] [ip, dp] →
    Fresh c.Keeps F i x (node sb W') →
      node sb W' d = node sb V d → (type ≠ T_DIR → ∀ k, EntryFits sb W' d k ↔ EntryFits sb V d k) →
      Ready type i d x → wp (do
        let r ← dirlink sb dp name (← getInode ip).inum
        if r < 0 then createFail sb dp ip
        else do
          if type = T_DIR then do
            setInode dp fun x => { x with nlink := x.nlink + 1 }
            iupdate sb dp
          else pure ()
          iunlockput sb dp
          return some ip) Q (Fine safe) u := by
    intro u W' x hu hFx hnd hfit hx
    have hx0 : x.type ≠ 0 := by rw [(ready_type hx).1]; exact htype
    rw [wp_bind, wp_getInode, (mid_ref hu hri).2, wp_bind]
    refine enter_spec hl hw (hb' 4) hu hri hrd' (.tail _ (.head _)) (hI 4) (hD' 4)
      (hafford (by decide)) hFx hx0 hdi (hnd ▸ hty)
      (fun v' W'' hv' hFv hfull => ?_) fun v' W'' G k hv' h1 h2 hroom hnv hthere => ?_
    · rw [hnd] at hfull
      exact createFail_spec hl hv' (hI 6) (hD' 6) hFv hx0 hdi hroot
        (hnone' fun hfile hf => hfull hno ((hfit hfile _).mpr hf))
    · rw [hnd] at hthere
      exact created_spec hl htype hv' (hD' 6) h1 h2 h0 hlt hroom hx hnv fun t V' ht hm =>
        hsome ip i t V' ht hm fun hfile => ⟨⟨i, h0, hlt, hdead⟩, (hfit hfile _).mp hthere⟩
  by_cases hdir : type = T_DIR
  · rw [if_pos hdir, wp_bind]
    rw [hdir] at hF1
    refine linkDots_spec hl hw (hb' 0) hv hri hrd' (.head _) (hI 0) (hafford (m := 0) (by decide)) hF1
      (fun v' W' x hv' hFv hx0 => ?_)
      fun v' W' j hv' hj0 hj1 hnv => ?_
    · exact createFail_spec hl hv' (hI 4) (hD' 4) hFv hx0 hdi hroot fun t V' ht =>
        hnone' (absurd hdir) t V' (mid_charge ht 2 (hafford (by decide)))
    · refine henter v' W' _ hv' (fresh_upd hF1 hnv) (by rw [hnv, upd_ne _ _ hdi, hnd]) (absurd hdir) ?_
      unfold Ready
      rw [if_pos hdir]
      exact ⟨j, hj0, hj1, rfl⟩
  · rw [if_neg hdir]
    refine henter v W _ (mid_charge hv 4 (hafford (m := 0) (by decide))) hF1 hnd
      (fun _ k => (hfit1 d k).trans (hfit0 k)) ?_
    unfold Ready
    rw [if_neg hdir]

/-- `create` would make a file at `path`: the path leads from inode `i` to a directory that
    has not the last name but a place for it, and an inode is free. -/
def Creatable (sb : Superblock) (V : Vol) (i : Nat) (path : Name) : Prop :=
  ∃ d name, walkParent (node sb V) i (elems path) = some (d, name) ∧ (node sb V d).lookup name = none ∧ Vacant sb V d

/-- `create` finds a file, or makes an inode and its entry, or fails. While nothing is let go
    of, the path and what is free tell which. -/
theorem create_spec (hl : sb.Layout) (hw : Walkable sb safe F) (hb : Sheltered sb c F) (hn : c.Affords safe 8)
    (h : Mid sb safe c s V [] []) (hF : Sheds c.Keeps F (node sb V)) {cwd : Idx} (hcwd : 0 < c.kept cwd)
    {path : Name} {major minor : Int16} (htype : type ≠ 0)
    (hnone : ∀ t V', Mid sb safe (c.charge 8) t V' [] [] → Fails sb c.Keeps F (node sb V') →
      (KeepsAll sb c V → type ≠ T_DIR → ¬ Creatable sb V (c.origin cwd path) path) → Q none t)
    (hfound : ∀ ip i t V', Mid sb safe ((c.charge 7).pay (sb.IBLOCK i)) t V' [(ip, i)] [ip] →
      Sheds c.Keeps F (node sb V') → (node sb V' i).type ≠ T_DIR →
      (KeepsAll sb c V → type ≠ T_DIR → ¬ Creatable sb V (c.origin cwd path) path) → Q (some ip) t)
    (hmade : ∀ ip i t V', Mid sb safe ((c.charge 7).pay (sb.IBLOCK i)) t V' [(ip, i)] [ip] →
      Made sb c.Keeps F type i (node sb V') →
      (KeepsAll sb c V → type ≠ T_DIR → Creatable sb V (c.origin cwd path) path) → Q (some ip) t) :
    wp (create sb cwd path type major minor) Q (Fine safe) s := by
  have hwalk := walk_keepsAll (V := V) (walk_sheds (T := []) hw hb)
  -- while nothing is let go of, the inodes are what they are now
  have hat : KeepsAll sb c V → ∀ W, Sheds c.Keeps F (node sb W) ∧ (KeepsAll sb c V → W = V) → node sb W = node sb V :=
    fun hk W hP => by rw [hP.2 hk]
  refine wp_then (nameiparent_spec hl hwalk h ⟨hF, fun _ => rfl⟩ hcwd path (fun t V' ht hP hlead => ?_)
    fun dp d name t V' ht hP hty hlead => ?_)
  · refine hnone t V' (mid_charge ht 8 hn) (.inl hP.1) fun hk _ hcr => ?_
    obtain ⟨d, name, hd, _⟩ := hcr
    cases hd.symm.trans (hlead _ (hat hk))
  obtain ⟨hF', hsame⟩ := hP
  have hrd : Ref c [(dp, d)] dp d := .inl (.head _)
  have hgot : KeepsAll sb c V →
      (Creatable sb V (c.origin cwd path) path ↔ (node sb V' d).lookup name = none ∧ Vacant sb V' d) := by
    intro hk
    have hd : walkParent (node sb V) (c.origin cwd path) (elems path) = some (d, name) := hlead _ (hat hk)
    rw [hsame hk]
    refine ⟨fun hcr => ?_, fun hv => ⟨d, name, hd, hv⟩⟩
    obtain ⟨d', name', hd', hv⟩ := hcr
    cases hd.symm.trans hd'
    exact hv
  refine wp_then (ilock_spec ht hrd fun u hu _ => ?_)
  refine wp_then (dirlookup_spec hu hrd (.head _) hty (hwalk.closed V' d ⟨hF', hsame⟩ hty) (fun hno => ?_)
    fun ip k v _ _ hfind hv => ?_)
  · have hb' : Sheltered sb (c.pay (sb.IBLOCK d)) F := fun j h1 h2 => (hb j h1 h2).imp_right .inl
    refine createNew_spec hl hw hb' (mid_pay hu (Bill.affords_le hn (by decide)) _) (.inr rfl)
      (affords_paid hn (by decide)) hF' hty
      hno htype (fun t V' ht hf hv => ?_) fun ip i t V' ht hm hv => ?_
    · exact hnone t V' (mid_paid (c := c.charge 7) ht h.bitmap (affords_charged hn (by decide))) hf
        fun hk hfile hcr => hv hfile ((hgot hk).mp hcr).2
    · have hbm : (c.bill.pay (sb.IBLOCK i)).Bitmap sb := fun x hx => .inl (h.bitmap x hx)
      refine hmade ip i t V' (mid_bill (c := ((c.pay (sb.IBLOCK d)).charge 6).pay (sb.IBLOCK i)) ht hbm ?_ ?_) hm
        fun hk hfile => (hgot hk).mpr ⟨hno, hv hfile⟩
      · exact Bill.fits_paid (g := (c.bill.charge 6).pay (sb.IBLOCK i)) (Bill.fits_swap ht.logged)
      · exact affords_paid (affords_charged (m := 7) (k := 1) hn (by decide)) (by decide)
  have hthere : KeepsAll sb c V → type ≠ T_DIR → ¬ Creatable sb V (c.origin cwd path) path := fun hk _ hcr => by
    cases hfind.symm.trans ((hgot hk).mp hcr).1
  generalize (node sb V' d).ent k = i at hv
  refine wp_then (iunlockput_spec hl (mid_perm hv (List.Perm.swap ..) (List.Perm.refl _))
    (sheds_covered hb hF' d _) fun w W hw' hd _ => ?_)
  have hri : Ref c [(ip, i)] ip i := .inl (.head _)
  have hF1 := hF'.trans (sheds_drop hd)
  refine wp_then (ilock_spec hw' hri fun x hx _ => ?_)
  have hp := mid_loaded hx hri (.head _)
  refine wp_if ?_ ?_
  · intro hcond
    refine hfound ip i x W (mid_pay (mid_charge hx 7 (Bill.affords_le hn (by decide)))
      (affords_charged hn (by decide)) _) hF1
      (fun hdir => ?_) hthere
    rw [← loaded_type hx.rep hp] at hdir
    rw [hdir] at hcond
    exact absurd hcond.2 (by decide)
  · intro _
    refine wp_then (iunlockput_spec hl hx (sheds_covered hb hF1 i _) fun y W' hy hd' _ => ?_)
    exact hnone y W' (mid_charge hy 8 hn) (.inl (hF1.trans (sheds_drop hd'))) hthere

end Xv6.Fs
