/-
  Xv6.Fs.LinkProofs — `sys_link` and `sys_unlink` over `Mid`. Both change two inodes with
  drops of references in between; since what is dropped is neither of the two, each comes
  down to one operation on names.
-/

import Xv6.Fs.CreateProofs

namespace Xv6.Fs

open Lib Vol

variable {sb : Superblock} {F G : Nat → Node} {V V' : Vol} {i d : Nat} {safe : Guard} {c : Ctx}
  {s t : St} {T : List (Idx × Nat)} {L : List Idx} {ip dp : Idx} {p : Fin NPROC}

/-- How a call ends that keeps its process's files and directory. Besides what is free it
    logs at most eight blocks, the worst case being `mkdir`: two inodes, and two blocks for
    each of three entries. -/
def Stays (sb : Superblock) (safe : Guard) (c : Ctx) (F : Nat → Node) (failed : Prop) (t : St) : Prop :=
  ∃ V', Mid sb safe (c.charge 8) t V' [] [] ∧ Chg sb F (node sb V') ∧ (failed → Fails sb c.Keeps F (node sb V'))

variable {failed : Int → Prop}

theorem mid_getCwd (h : Mid sb safe c s V T L) {E : Panic → Prop} {Q : Idx → St → Prop} (hq : Q (c.proc p).cwd s) :
    wp (getCwd p) Q E s := by
  show Q (s.proc p).cwd s
  rwa [h.proc]

theorem end_spec {r : Int} (h : Mid sb safe (c.charge 8) s V [] []) (hF : Chg sb F (node sb V))
    (hr : failed r → Fails sb c.Keeps F (node sb V)) :
    wp (do endOp; return r) (fun r t => Stays sb safe c F (failed r) t) (Fine safe) s := by
  exact wp_then (endOp_spec h fun t ht => ⟨V, ht, hF, hr⟩)

theorem putEnd_spec {r : Int} (hl : sb.Layout)
    (h : Mid sb safe ((c.charge 7).pay (sb.IBLOCK i)) s V [(ip, i)] [ip]) (hbm : c.bill.Bitmap sb)
    (hn : c.Affords safe 8) (hF : Chg sb F (node sb V)) (hr : failed r → Fails sb c.Keeps F (node sb V)) :
    wp (do iunlockput sb ip; endOp; return r) (fun r t => Stays sb safe c F (failed r) t) (Fine safe) s := by
  refine wp_then (iunlockput_spec hl h (fun _ _ => .inr (.inr rfl)) fun t V' ht hd _ => ?_)
  exact end_spec (mid_paid (c := c.charge 7) ht hbm (affords_charged hn (by decide))) (chg_then hF (calm_drop hd))
    fun h' => fails_then (hr h') (sheds_drop hd)

/-- The two ends of a call that has changed nothing. -/
theorem endSame_spec {r : Int} (h : Mid sb safe c s V [] []) (hn : c.Affords safe 8)
    (hF : Sheds c.Keeps F (node sb V)) :
    wp (do endOp; return r) (fun r t => Stays sb safe c F (failed r) t) (Fine safe) s :=
  end_spec (mid_charge h 8 hn) (chg_calm (sheds_calm hF)) fun _ => .inl hF

theorem putSame_spec {r : Int} (hl : sb.Layout) (h : Mid sb safe c s V [(ip, i)] [ip]) (hn : c.Affords safe 8)
    (hF : Sheds c.Keeps F (node sb V)) :
    wp (do iunlockput sb ip; endOp; return r) (fun r t => Stays sb safe c F (failed r) t) (Fine safe) s :=
  putEnd_spec hl (mid_pay (mid_charge h 7 (Bill.affords_le hn (by decide))) (affords_charged hn (by decide)) _)
  h.bitmap hn (chg_calm (sheds_calm hF)) fun _ => .inl hF

/-! ## link -/

def Raised (K : Nat → Prop) (F : Nat → Node) (i : Nat) (W : Nat → Node) : Prop :=
  ∃ G, Sheds K F G ∧ (G i).type ≠ 0 ∧ (G i).type ≠ T_DIR ∧ W = upd G i ((G i).withLinks ((G i).nlink + 1))

theorem raised_drop {j : Nat} {e : Idx} (h : Raised c.Keeps F i (node sb V)) (hd : Drop sb c T V V' j)
    (hr : Ref c T e i) :
    Raised c.Keeps F i (node sb V') := by
  obtain ⟨G, h1, h2, h3, h4⟩ := h
  obtain ⟨G', h5, h6, h7⟩ := shed_beside hd hr h4
  exact ⟨G', h1.trans h5, by rw [h6]; exact h2, by rw [h6]; exact h3, by rw [h6]; exact h7⟩

theorem raised_covered (hb : Sheltered sb c F) (h : Raised c.Keeps F i (node sb V))
    (hI : c.bill.free (sb.IBLOCK i)) (j : Nat) (T : List (Idx × Nat)) : Covered sb c T V j := by
  obtain ⟨G, h1, _, _, h4⟩ := h
  by_cases e : j = i
  · subst e
    exact fun _ _ => .inr hI
  · intro hlive
    have hj : node sb V j = G j := by rw [h4, upd_ne _ _ e]
    have hG := sheds_live h1 (by rw [← hj]; exact node_type_ne.mpr hlive)
    exact sheltered_covered hb (hj.trans hG) T hlive

theorem raised_walk (hw : Walkable sb safe F) (hb : Sheltered sb c F) (hI : c.bill.free (sb.IBLOCK i))
    {e : Idx} (hr : (e, i) ∈ T) :
    Walk sb safe c T fun V => Raised c.Keeps F i (node sb V) where
  drop := fun _ _ _ _ hsub hP hd => raised_drop hP hd (.inl (hsub _ hr))
  closed := fun V d hP hty hsafe k hk => by
    obtain ⟨G, h1, h2, h3, h4⟩ := hP
    have htype : ∀ j, (node sb V j).type = (G j).type := fun j => by
      rw [h4]
      by_cases e : j = i
      · rw [e, upd_same]
        rfl
      · rw [upd_ne _ _ e]
    have hdi : d ≠ i := fun e => h3 (by rw [← htype, ← e]; exact hty)
    have hd : node sb V d = G d := by rw [h4, upd_ne _ _ hdi]
    refine node_type_ne.mp ?_
    rw [hd] at hty hk ⊢
    rw [htype]
    exact hw.closed hsafe G (sheds_calm h1) d k hty hk
  root := ⟨hw.root, fun V hsafe hP => by
    obtain ⟨G, h1, h2, h3, h4⟩ := hP
    refine node_type_ne.mp ?_
    have := hw.live hsafe G (sheds_calm h1)
    rw [h4]
    by_cases e : ROOTINO = i
    · rw [← e]
      exact this
    · rw [upd_ne _ _ e]
      exact this⟩
  covered := fun T' _ j _ hP => raised_covered hb hP hI j T'

section

variable (hl : sb.Layout)

include hl

/-- The label `bad`: the link count goes back to what it was. -/
theorem linkBad_spec (h : Mid sb safe ((c.charge 7).pay (sb.IBLOCK i)) s V [(ip, i)] []) (hbm : c.bill.Bitmap sb)
    (hn8 : c.Affords safe 8) (hF : Raised c.Keeps F i (node sb V)) :
    wp (linkBad sb ip) (fun r t => Stays sb safe c F (failed r) t) (Fine safe) s := by
  have hri : Ref c [(ip, i)] ip i := .inl (.head _)
  obtain ⟨G, h1, h2, h3, h4⟩ := hF
  refine wp_then (ilock_spec h hri fun t ht hlive => ?_)
  have hp := mid_loaded ht hri (.head _)
  have hnl : (V.ino i).nlink = (G i).nlink + 1 := by
    have := node_live hlive
    rw [h4, upd_same] at this
    exact (congrArg Node.nlink this).symm
  refine header_spec hl ht hri (.head _) (.inr rfl) _ _ ((V.ino i).nlink - 1) (by rw [← loaded_ino ht.rep hp])
    fun u W hu hn _ => ?_
  have hW : Sheds c.Keeps F (node sb W) := by
    have hback : (G i).nlink + 1 - 1 = (G i).nlink := by
      rw [Int16.add_sub_cancel]
    have hself : ((G i).withLinks ((G i).nlink + 1)).withLinks (G i).nlink = G i := rfl
    rw [hn, h4, upd_same, upd_upd, hnl, hback, hself, upd_self]
    exact h1
  exact putEnd_spec hl hu hbm hn8 (chg_calm (sheds_calm hW)) fun _ => .inl hW

theorem sysLink_spec (hw : Walkable sb safe (node sb V)) (hb : Sheltered sb c (node sb V)) (h : Mid sb safe c s V [] [])
    (hn8 : c.Affords safe 8) (hcwd : 0 < c.kept (c.proc p).cwd) (old new : User) :
    wp (sysLink sb p old new) (fun r t => Stays sb safe c (node sb V) (r = -1) t) (Fine safe) s := by
  unfold sysLink
  split
  · next old new _ _ =>
    refine wp_then (beginOp_spec h fun t ht => ?_)
    refine wp_then (mid_getCwd ht ?_)
    refine wp_then (namei_spec hl (walk_sheds hw hb) ht .refl hcwd old (fun u W hu hF => endSame_spec hu hn8 hF)
      fun ip i u W hu hF => ?_)
    have hri : Ref c [(ip, i)] ip i := .inl (.head _)
    refine wp_then (ilock_spec hu hri fun v hv hlive => ?_)
    have hp := mid_loaded hv hri (.head _)
    rw [wp_bind, wp_getInode, loaded_type hv.rep hp]
    refine wp_if (fun _ => putSame_spec hl hv hn8 hF) fun hfile => ?_
    have hnl : (node sb W i).nlink = (W.ino i).nlink := by rw [node_live hlive]
    refine header_spec hl (mid_pay hv (Bill.affords_le hn8 (by decide)) (sb.IBLOCK i)) hri
      (.head _) (.inr rfl) _ _ ((W.ino i).nlink + 1)
      (by rw [← loaded_ino hv.rep hp]) fun w W1 hw1 hn _ => ?_
    have hR : Raised c.Keeps (node sb V) i (node sb W1) :=
      ⟨node sb W, hF, node_type_ne.mpr hlive, hfile, by rw [hn, hnl]⟩
    refine wp_then (iunlock_spec hw1 fun x hx _ => ?_)
    refine wp_then (mid_getCwd hx ?_)
    rw [wp_bind]
    have hb1 : Sheltered sb (c.pay (sb.IBLOCK i)) (node sb V) := fun j h1 h2 => (hb j h1 h2).imp_right .inl
    have hwalk : Walk sb safe (c.pay (sb.IBLOCK i)) [(ip, i)] fun W => Raised c.Keeps (node sb V) i (node sb W) :=
      raised_walk hw hb1 (.inr rfl) (.head _)
    refine nameiparent_spec hl hwalk hx hR hcwd new
      (fun y W2 hy hR2 _ => linkBad_spec hl (mid_charge hy 7 (affords_paid hn8 (by decide))) h.bitmap hn8 hR2)
      fun dp d name y W2 hy hR2 hty _ => ?_
    have hri2 : Ref c [(dp, d), (ip, i)] ip i := .inl (.tail _ (.head _))
    have hrd2 : Ref c [(dp, d), (ip, i)] dp d := .inl (.head _)
    refine wp_then (ilock_spec hy hrd2 fun z hz _ => ?_)
    have hpd := mid_loaded hz hrd2 (.head _)
    obtain ⟨hr1, hr2⟩ := mid_ref hz hri2
    rw [wp_bind, wp_getInode, wp_bind, wp_getInode, wp_ite,
      if_neg (by rw [loaded_dev hz.rep hpd, (hz.rep.range ip hr1).2]; exact fun hne => hne rfl),
      wp_bind, wp_getInode, hr2, wp_bind]
    -- two blocks for the entry, on top of the two inodes' own
    have hbm : (c.pay (sb.IBLOCK i)).bill.Bitmap sb := fun x hx => .inl (h.bitmap x hx)
    have hn7 : (c.pay (sb.IBLOCK i)).Affords safe 7 := affords_paid hn8 (by decide)
    have hback : ∀ u W, Mid sb safe (((c.pay (sb.IBLOCK i)).pay (sb.IBLOCK d)).charge 2) u W [(dp, d), (ip, i)] [dp] →
        Raised c.Keeps (node sb V) i (node sb W) →
        wp (do iunlockput sb dp; linkBad sb ip) (fun r t => Stays sb safe c (node sb V) (r = -1) t) (Fine safe) u := by
      intro u W hu hR
      refine wp_then (iunlockput_spec hl hu (fun _ _ => .inr (.inr rfl)) fun v W' hv hd _ => ?_)
      have hv' := mid_paid (c := (c.pay (sb.IBLOCK i)).charge 2) hv hbm (affords_charged hn7 (by decide))
      exact linkBad_spec hl (mid_charge hv' 4 (affords_charged (m := 3) hn7 (by decide))) h.bitmap hn8
        (raised_drop (c := c) hR hd hri)
    refine dirlink_spec hl (mid_pay hz (Bill.affords_le hn7 (by decide)) (sb.IBLOCK d)) hrd2 (.head _) (.inr rfl)
      (affords_paid hn7 (by decide))
      (fun _ _ => raised_covered (c := (c.pay (sb.IBLOCK i)).pay (sb.IBLOCK d))
        (fun j h1 h2 => (hb1 j h1 h2).imp_right .inl) hR2
        (.inl (.inr rfl)) _ _) hty
      (hwalk.closed W2 d hR2 hty) hlive.1 (fun u W' k _ _ hu hd => ?_) (fun u W' _ hu hn' => ?_)
        fun u W' _ hu hno hn' => ?_
    · exact hback u W' hu (raised_drop (c := c) hR2 hd hri2)
    · exact hback u W' hu (hn' ▸ hR2)
    · rw [wp_ite, if_neg (by decide), wp_bind]
      obtain ⟨G, h1, h2, h3, h4⟩ := hR2
      have hdi : d ≠ i := fun e => h3 (by rw [h4, e, upd_same] at hty; exact hty)
      have hGd : node sb W2 d = G d := by rw [h4, upd_ne _ _ hdi]
      rw [hGd] at hty hno hn'
      have hop : Op sb G (node sb W') := by
        rw [hn', h4]
        exact .link ⟨hty, lookup_eq_none.mp hno, gap_free _, gap_le _⟩ h2 h3 hlive.1
      refine iunlockput_spec hl hu (fun _ _ => .inr (.inr rfl)) fun v W3 hv hd _ => ?_
      have hv' := mid_paid (c := (c.pay (sb.IBLOCK i)).charge 2) hv hbm (affords_charged hn7 (by decide))
      refine wp_then (iput_spec hl hv' (fun hm => absurd hm List.not_mem_nil) (fun _ _ => .inr (.inr rfl))
        fun w W4 hw4 hd' _ => ?_)
      have hw4' := mid_paid (c := c.charge 3) hw4 h.bitmap (affords_charged hn8 (by decide))
      exact end_spec (mid_charge hw4' 4 (affords_charged (m := 4) hn8 (by decide)))
        (chg_then (chg_op (sheds_calm h1) hop) ((calm_drop hd).trans (calm_drop hd')))
        fun h' => absurd h' (by decide)
  · exact ⟨V, mid_charge h 8 hn8, chg_calm .refl, fun _ => .inl .refl⟩

/-! ## unlink -/

theorem unlinkFind_spec (hw : Walkable sb safe F) (hb : Sheltered sb c F) (h : Mid sb safe c s V [] [])
    (hF : Sheds c.Keeps F (node sb V)) {cwd : Idx} (hcwd : 0 < c.kept cwd) (path : Name)
    {Q : Option (Idx × Idx × Nat) → St → Prop}
    (hnone : ∀ t V', Mid sb safe c t V' [] [] → Sheds c.Keeps F (node sb V') → Q none t)
    (hsome : ∀ dp ip d i k t V', Mid sb safe c t V' [(ip, i), (dp, d)] [ip, dp] → Sheds c.Keeps F (node sb V') →
      Removable (node sb V') d k i → Q (some (dp, ip, DESIZE * k)) t) :
    wp (unlinkFind sb cwd path) Q (Fine safe) s := by
  refine wp_then (nameiparent_spec hl (walk_sheds hw hb) h hF hcwd path (fun t V' ht hF' _ => hnone t V' ht hF')
    fun dp d name t V' ht hF' hty _ => ?_)
  have hrd : Ref c [(dp, d)] dp d := .inl (.head _)
  refine wp_then (ilock_spec ht hrd fun u hu _ => ?_)
  have hput : wp (iunlockput sb dp >>= fun _ => pure none) Q (Fine safe) u := by
    exact wp_then (iunlockput_spec hl hu (sheds_covered hb hF' d _) fun v W hv hd _ =>
      hnone v W hv (hF'.trans (sheds_drop hd)))
  refine wp_if (fun _ => hput) fun hdots => ?_
  refine wp_then (dirlookup_spec hu hrd (.head _) hty ((walk_sheds (T := []) hw hb).closed V' d hF' hty) (fun _ => hput)
    fun ip k v hk hname _ hv => ?_)
  generalize hi : (node sb V' d).ent k = i at hv hk
  have hri : Ref c [(ip, i), (dp, d)] ip i := .inl (.head _)
  refine wp_then (ilock_spec hv hri fun w hw' hlive => ?_)
  have hp := mid_loaded hw' hri (.head _)
  rw [wp_bind, wp_getInode, loaded_nlink hw'.rep hp, loaded_type hw'.rep hp]
  refine wp_if (fun _ => trivial) fun hnl => ?_
  -- the two locks are of two entries, so of two inodes
  have hne : i ≠ d := fun e => by
    have hrd' : Ref c [(ip, i), (dp, d)] dp d := .inl (.tail _ (.head _))
    obtain ⟨h1, h2⟩ := mid_ref hw' hri
    obtain ⟨h3, h4⟩ := mid_ref hw' hrd'
    have : ip = dp := hw'.rep.uniq ip dp h1 h3 (by rw [h2, h4, e])
    exact (List.nodup_cons.mp hw'.nodup).1 (this ▸ .head _)
  have hfound : ((node sb V' i).type = T_DIR → ∀ l, 2 ≤ l → (node sb V' i).ent l = 0) →
      Q (some (dp, ip, DESIZE * k)) w := fun hempty =>
    hsome dp ip d i k w V' hw' hF' ⟨hty, hi, hk, node_type_ne.mpr hlive,
      ⟨name, hname, fun e => hdots (.inl e), fun e => hdots (.inr e)⟩, by
        rw [Int16.not_lt] at hnl
        exact hnl, hempty, hne⟩
  refine wp_if (fun hdir => ?_) fun hfile => hfound fun e => absurd e hfile
  refine wp_then (isdirempty_spec hw' hp ?_ fun hempty => hfound fun _ => hempty)
  rw [wp_ite, wp_bind]
  refine iunlockput_spec hl hw' (sheds_covered hb hF' i _) fun x W hx hd _ => ?_
  have hFx := hF'.trans (sheds_drop hd)
  exact wp_then (iunlockput_spec hl hx (sheds_covered hb hFx d _) fun y W' hy hd' _ =>
    hnone y W' hy (hFx.trans (sheds_drop hd')))

theorem unlinkRemove_spec {k : Nat} (h : Mid sb safe c s V [(ip, i), (dp, d)] [ip, dp])
    (hI : c.bill.free (sb.IBLOCK i)) (hD : c.bill.free (sb.IBLOCK d)) (hn2 : c.Affords safe 2)
    (hF : Calm F (node sb V)) (hrm : Removable (node sb V) d k i) {Q : Unit → St → Prop}
    (hq : ∀ t V', Mid sb safe (c.charge 2) t V' [] [] → Chg sb F (node sb V') → Q () t) :
    wp (unlinkRemove sb dp ip (DESIZE * k)) Q (Fine safe) s := by
  have hri : Ref c [(ip, i), (dp, d)] ip i := .inl (.head _)
  have hrd : Ref c [(ip, i), (dp, d)] dp d := .inl (.tail _ (.head _))
  have hLd : dp ∈ [ip, dp] := .tail _ (.head _)
  have hdi : d ≠ i := hrm.ne.symm
  -- the end, once the parent is as it should be
  have hend : ∀ t V', Mid sb safe (c.charge 2) t V' [(ip, i), (dp, d)] [ip, dp] →
      node sb V' = upd (node sb V) d ((node sb V d).unlinked k (node sb V i).type) → wp (do
        iunlockput sb dp
        setInode ip fun x => { x with nlink := x.nlink - 1 }
        iupdate sb ip
        iunlockput sb ip) Q (Fine safe) t := by
    intro t V' ht hn
    have hr1 : Ref c [(ip, i)] ip i := .inl (.head _)
    refine wp_then (iunlockput_spec hl (mid_perm ht (List.Perm.swap ..) (List.Perm.swap ..)) (fun _ _ => .inr hD)
      fun u W hu hd _ => ?_)
    have hpu := mid_loaded hu hr1 (.head _)
    have hni : node sb W i = node sb V i := by rw [drop_ref hd hr1, hn, upd_ne _ _ hrm.ne]
    have hnl : (W.ino i).nlink = (node sb V i).nlink := by
      rw [← hni, node_live (loaded_live hu.rep hpu)]
    refine header_spec hl hu hr1 (.head _) hI _ _ ((node sb V i).nlink - 1) (by rw [← hnl, ← loaded_ino hu.rep hpu])
      fun v W' hv hn' _ => ?_
    -- freeing the parent, if it had no links, comes after the operation as well as before
    have hchg : Chg sb F (node sb W') := by
      have hop : Chg sb F (upd (node sb V') i ((node sb V i).withLinks ((node sb V i).nlink - 1))) := by
        rw [hn]
        exact chg_op hF (.unlink hrm)
      rw [hn', hni]
      rcases hd with rfl | ⟨hlive, h0, he, _⟩
      · exact hop
      · have hfree := calm_free (G := upd (node sb V') i ((node sb V i).withLinks ((node sb V i).nlink - 1))) hlive h0
          (upd_ne _ _ hdi)
        rw [upd_comm _ _ _ hrm.ne, ← emptied_node he] at hfree
        exact chg_then hop (.single hfree)
    refine iunlockput_spec hl hv (fun _ _ => .inr hI) fun w W2 hw2 hd2 _ => hq w W2 hw2 (chg_then hchg (calm_drop hd2))
  have hin : DESIZE * k ≤ (node sb V d).size :=
    Nat.le_trans (Nat.le_add_right _ _) (ent_ne (by rw [hrm.ent]; exact hrm.pos))
  refine wp_then (writeDirent_spec hl h hrd hLd hD hn2 (by rw [List.length_replicate]) (by
      exact Nat.lt_of_le_of_lt (Nat.zero_le _) (node_type_ne.mp hrm.live).1) hin
    (fun r t V' hne _ _ _ => ?_) fun t V' _ ht hn => ?_)
  · rw [if_pos hne]
    exact trivial
  · have hpi := mid_loaded ht hri (.head _)
    have hpd := mid_loaded ht hrd hLd
    have hni : node sb V' i = node sb V i := by rw [hn, upd_ne _ _ hrm.ne]
    have hnd : node sb V' d = (node sb V d).unlink k := by rw [hn, upd_same]; rfl
    rw [if_neg (fun hne => hne rfl), wp_bind, wp_getInode, loaded_type ht.rep hpi, hni]
    refine wp_if (fun hdir => ?_) fun hfile => ?_
    · have hnl : (V'.ino d).nlink = (node sb V d).nlink := by
        have := node_live (loaded_live ht.rep hpd)
        rw [hnd] at this
        exact (congrArg Node.nlink this).symm
      refine header_spec hl ht hrd hLd hD _ _ ((node sb V d).nlink - 1) (by rw [← hnl, ← loaded_ino ht.rep hpd])
        fun u W hu hn' _ => ?_
      refine hend u W hu ?_
      rw [hn', hnd, hn, upd_upd, Node.unlinked, if_pos hdir]
    · refine hend t V' ht ?_
      rw [hn, Node.unlinked, if_neg hfile]
      rfl

theorem sysUnlink_spec (hw : Walkable sb safe (node sb V)) (hb : Sheltered sb c (node sb V))
    (h : Mid sb safe c s V [] []) (hn8 : c.Affords safe 8) (hcwd : 0 < c.kept (c.proc p).cwd) (path : User) :
    wp (sysUnlink sb p path) (fun r t => Stays sb safe c (node sb V) (r = -1) t) (Fine safe) s := by
  unfold sysUnlink
  split
  · exact ⟨V, mid_charge h 8 hn8, chg_calm .refl, fun _ => .inl .refl⟩
  next path _ =>
  refine wp_then (beginOp_spec h fun t ht => ?_)
  refine wp_then (mid_getCwd ht ?_)
  refine wp_then (unlinkFind_spec hl hw hb ht .refl hcwd path (fun u W hu hF => endSame_spec hu hn8 hF)
    fun dp ip d i k u W hu hF hrm => ?_)
  rw [wp_bind]
  have hn7 : (c.pay (sb.IBLOCK d)).Affords safe 7 := affords_paid hn8 (by decide)
  have hu2 := mid_pay (mid_pay hu (Bill.affords_le hn8 (by decide)) (sb.IBLOCK d))
    (Bill.affords_le hn7 (by decide)) (sb.IBLOCK i)
  refine unlinkRemove_spec hl hu2 (.inr rfl) (.inl (.inr rfl)) (affords_paid hn7 (by decide)) (sheds_calm hF) hrm
    fun v W' hv hchg => ?_
  have hv1 := mid_paid (c := (c.pay (sb.IBLOCK d)).charge 2) hv (fun x hx => .inl (h.bitmap x hx))
    (affords_charged hn7 (by decide))
  have hv2 := mid_paid (c := c.charge 3) hv1 h.bitmap (affords_charged hn8 (by decide))
  exact end_spec (mid_charge hv2 4 (affords_charged (m := 4) hn8 (by decide))) hchg fun h' => absurd h' (by decide)

end

end Xv6.Fs
