/-
  Xv6.Fs.Quiet — between calls. `Quiet` is `Mid` with no call in progress: every event of
  the machine keeps it, and so does `fsinit` on any image that is in order.
-/

import Xv6.Fs.CallProofs
import Xv6.Fs.Lone

namespace Xv6.Fs

open Lib Vol

def Quiet (sb : Superblock) (safe : Guard) (scope : Scope) (s : St) (V : Vol) : Prop :=
  ∃ c, Mid sb safe c s V [] [] ∧ c.Tallied ∧ c.scope = scope

variable {sb : Superblock} {F : Nat → Node} {V : Vol} {b : Nat} {d : Block} {safe : Guard}
  {scope : Scope} {c : Ctx} {s t : St} {T : List (Idx × Nat)} {L : List Idx}

/-! ## Eviction -/

section loose

variable (hb : Loose sb V b)

include hb

/-- A block that is neither a directory's nor an indirect one says nothing about slots. -/
theorem loose_slot {j : Nat} (hj : Live sb V j) (l : Nat) : (V.write b d).slot j l = V.slot j l := by
  refine slot_congr l (fun _ => rfl) fun h12 => upd_ne _ _ fun e => ?_
  have hh : Holds sb V j NDIRECT b := ⟨hj, by rw [slot_low _ _ (Nat.lt_succ_self _)]; exact e, e ▸ h12⟩
  exact (hb.2 j NDIRECT hh).2 rfl

theorem loose_holds (j l k : Nat) : Holds sb (V.write b d) j l k ↔ Holds sb V j l k :=
  ⟨fun h => ⟨h.live, by rw [← loose_slot hb (d := d) h.live]; exact h.at_, h.ne⟩,
    fun h => ⟨h.live, by rw [loose_slot hb (d := d) h.live]; exact h.at_, h.ne⟩⟩

/-- Only the file that has the block sees the change. -/
theorem loose_node {j : Nat} (hno : ∀ k, ¬ Holds sb V j k b) : node sb (V.write b d) j = node sb V j := by
  refine node_congr rfl fun hj x => ?_
  have ha : (V.write b d).addr j (x / BSIZE) = V.addr j (x / BSIZE) := loose_slot hb hj _
  rw [raw, raw, ha]
  by_cases h0 : V.addr j (x / BSIZE) = 0
  · rw [if_pos h0, if_pos h0]
  · rw [if_neg h0, if_neg h0]
    have hne : V.addr j (x / BSIZE) ≠ b := fun e => hno (slotOf (x / BSIZE)) ⟨hj, e, e ▸ h0⟩
    show (upd V.blk b d (V.addr j (x / BSIZE))).get _ = _
    rw [upd_ne _ _ hne]

theorem loose_calm (hs : Sound sb V) : Calm (node sb V) (node sb (V.write b d)) ∧
    ∀ j, (node sb V j).type = T_DIR → node sb (V.write b d) j = node sb V j := by
  by_cases h : ∃ i k, Holds sb V i k b
  · obtain ⟨i, k, hik⟩ := h
    have hfile : (node sb V i).type ≠ T_DIR := by
      rw [node_live hik.live]
      exact (hb.2 i k hik).1
    have hother : ∀ j, j ≠ i → node sb (V.write b d) j = node sb V j := fun j hj =>
      loose_node hb fun l hjl => hj (hs.once j l i k b hjl hik).1
    exact ⟨calm_content hfile hik.live hother rfl rfl, fun j hj => hother j fun e => hfile (e ▸ hj)⟩
  · have hsame : ∀ j, node sb (V.write b d) j = node sb V j := fun j => loose_node hb fun k hk => h ⟨j, k, hk⟩
    refine ⟨?_, fun j _ => hsame j⟩
    rw [funext hsame]

end loose

theorem evict_spec (hl : sb.Layout) (h : Mid sb safe c s V [] []) (hc : c.Tallied) (b : Nat) :
    wp (evict b) (fun _ t => After sb safe c.scope (node sb V) t) (Fine safe) s := by
  unfold evict
  rw [wp_modify]
  split
  · exact ⟨c, V, h, hc, rfl, chg_calm .refl⟩
  next hlh =>
  rcases h.stable b hlh with hsame | hloose
  · have hs : ({ s with data := upd s.data b (s.home b) } : St) = s := by rw [← hsame, upd_self]
    rw [hs]
    exact ⟨c, V, h, hc, rfl, chg_calm .refl⟩
  have hh := loose_holds (d := s.home b) hloose
  obtain ⟨hcalm, hdirs⟩ := loose_calm (d := s.home b) hloose h.sound
  refine ⟨c, V.write b (s.home b), ⟨rep_data hl h.rep hloose.1 rfl rfl, sound_congr hh rfl h.sound,
    fun h' => noLeak_congr hh rfl (h.noLeak h'), fun j hj bn hbn => ?_, fun j k hj => ?_,
    fun b' hb' => ?_, h.file, h.proc, h.refs, h.inum,
    h.num, h.locks, h.locked, h.nodup, h.files, h.live, h.unread,
    fun j hj hlj h0 => (h.orphan j hj hlj h0).imp fun _ => loaded_same (s := s) rfl, h.bitmap,
    h.logged, h.room⟩, hc, rfl, chg_calm hcalm⟩
  · have ha : (V.write b (s.home b)).addr j bn = V.addr j bn := loose_slot hloose hj _
    rw [ha]
    exact h.holes j hj bn hbn
  · have hty : (node sb V j).type = T_DIR := by
      have hlive : Live sb (V.write b (s.home b)) j := node_type_ne.mp (by rw [hj]; decide)
      rw [node_live hlive] at hj
      rw [node_live (V := V) hlive]
      exact hj
    rw [hdirs j hty]
    exact h.dirs j k hty
  · by_cases e : b' = b
    · subst e
      exact .inl (upd_same _ _ _)
    · rcases h.stable b' hb' with h1 | h1
      · exact .inl ((upd_ne _ _ e).trans h1)
      · exact .inr ⟨h1.1, fun i k hik => h1.2 i k ((hh i k b').mp hik)⟩

/-! ## Events -/

variable {Q : Unit → St → Prop}

theorem by_spec {p : Fin NPROC} {m : M Unit} {E : Panic → Prop} (h : Mid sb safe c s V [] []) (hs : Q () s)
    (hm : (c.proc p).live = true → wp m Q E s) : wp (by_ p m) Q E s := by
  unfold by_
  rw [wp_bind, wp_get, h.proc]
  exact wp_if hm fun _ => hs

theorem act_spec (hl : sb.Layout) (hw : Walkable sb safe (node sb V)) (h : Mid sb safe c s V [] [])
    (hc : c.Tallied) (hbill : c.bill = .blank) (hroom : ¬ safe.room) (e : Ev) :
    wp (act sb e) (fun _ t => After sb safe c.scope (node sb V) t) (Fine safe) s := by
  have hb : Sheltered sb c (node sb V) := fun _ _ _ => .inr (by rw [hbill]; trivial)
  have hn8 : c.Affords safe 8 := affords_open hroom _ _
  have hsame : After sb safe c.scope (node sb V) s := ⟨c, V, h, hc, rfl, chg_calm .refl⟩
  have hstays : ∀ {failed : Prop} {t : St}, Stays sb safe c (node sb V) failed t →
      After sb safe c.scope (node sb V) t := fun ht =>
    after_closes (closes_stays (R := fun _ => True) hc (fun _ _ => trivial) ht)
  cases e with
  | «open» p path omode =>
    refine by_spec h hsame fun hp => ?_
    rw [wp_discard]
    exact wp_mono (sysOpen_spec hl hw hb h hn8 hc hp path omode) fun _ _ ht => after_closes ht
  | mkdir p path =>
    refine by_spec h hsame fun hp => ?_
    rw [wp_discard]
    exact wp_mono (sysMake_spec hl hw hb h hn8 hc hp path (by decide) 0 0) fun _ _ ht => after_closes ht
  | mknod p path major minor =>
    refine by_spec h hsame fun hp => ?_
    rw [wp_discard]
    exact wp_mono (sysMake_spec hl hw hb h hn8 hc hp path (by decide) _ _) fun _ _ ht => after_closes ht
  | chdir p path =>
    refine by_spec h hsame fun hp => ?_
    rw [wp_discard]
    exact wp_mono (sysChdir_spec hl hw hb h hn8 hc hp path) fun _ _ ht => after_closes ht
  | link p old new =>
    refine by_spec h hsame fun hp => ?_
    rw [wp_discard]
    exact wp_mono (sysLink_spec hl hw hb h hn8 (tallied_kept hc hp) old new) fun _ _ ht => hstays ht
  | unlink p path =>
    refine by_spec h hsame fun hp => ?_
    rw [wp_discard]
    exact wp_mono (sysUnlink_spec hl hw hb h hn8 (tallied_kept hc hp) path) fun _ _ ht => hstays ht
  | close p fd =>
    refine by_spec h hsame fun _ => ?_
    rw [wp_discard]
    exact sysClose_spec hl hroom h hc fd
  | dup p fd =>
    refine by_spec h hsame fun _ => ?_
    rw [wp_discard]
    exact sysDup_spec h hc fd
  | read p fd dst n ext =>
    refine by_spec h hsame fun _ => ?_
    rw [wp_discard]
    exact sysRead_spec h hc fd dst n ext
  | write p fd src n ext =>
    refine by_spec h hsame fun _ => ?_
    rw [wp_discard]
    exact sysWrite_spec hl hroom h hc hbill fd src n ext
  | fstat p fd ok =>
    refine by_spec h hsame fun _ => ?_
    rw [wp_discard]
    exact sysFstat_spec h hc fd ok
  | pipe p page ok =>
    refine by_spec h hsame fun _ => ?_
    rw [wp_discard]
    exact sysPipe_spec hl hroom h hc page ok
  | exec p path args table mem stack =>
    refine by_spec h hsame fun hp => ?_
    rw [wp_discard]
    exact wp_mono (sysExec_spec hl hw hb h hn8 (tallied_kept hc hp) path args table mem stack) fun _ _ ht => hstays ht
  | fork p q ok => exact by_spec h hsame fun hp => kfork_spec h hc hp
  | exit p => exact by_spec h hsame fun hp => kexit_spec hl hroom h hc hp
  | evict b => exact evict_spec hl h hc b

/-! ## Boot -/

theorem bread_spec (h : Mid sb safe c s V T L) {Q : Block → St → Prop}
    (hq : ∀ t, Mid sb safe c t V T L → Q (s.data b) t) :
    wp (bread b) Q (Fine safe) s := by
  exact hq _ (mid_same h rfl rfl rfl rfl rfl rfl)

theorem brelse_spec (h : Mid sb safe c s V T L) (hq : ∀ t, Mid sb safe c t V T L → Q () t) :
    wp (brelse b) Q (Fine safe) s := by
  exact hq _ (mid_same h rfl rfl rfl rfl rfl rfl)

/-- One turn of `ireclaim`'s loop that finds an inode to free: one transaction. -/
theorem reclaim_spec (hl : sb.Layout) (h : Mid sb safe c s V [] []) (hn1 : c.Affords safe 1) {i : Nat}
    (hi : Live sb V i) {m : M Unit}
    (hq : ∀ t V', Mid sb safe (c.charge 1) t V' [] [] → Calm (node sb V) (node sb V') → wp m Q (Fine safe) t) :
    wp (do
      let ip ← iget ROOTDEV i
      brelse b
      beginOp
      ilock sb ip
      iunlock ip
      iput sb ip
      endOp
      m) Q (Fine safe) s := by
  refine wp_then (iget_spec h hi.1 (fun _ => hi) fun ip t ht => ?_)
  refine wp_then (brelse_spec ht fun t ht => ?_)
  refine wp_then (beginOp_spec ht fun t ht => ?_)
  refine wp_then (ilock_spec ht (.inl (.head _)) fun t ht _ => ?_)
  refine wp_then (iunlock_spec ht fun t ht _ => ?_)
  rw [wp_bind]
  refine iput_spec hl (mid_pay ht hn1 (sb.IBLOCK i)) (fun hL => absurd hL List.not_mem_nil)
    (fun _ _ => .inr (.inr rfl)) fun t W ht hd _ => ?_
  exact wp_then (endOp_spec (mid_paid ht h.bitmap hn1) fun t ht => hq t W ht (calm_drop hd))

/-- `ireclaim`'s loop frees inodes without links, and does nothing else. -/
theorem ireclaimFrom_spec (hl : sb.Layout) (hroom : ¬ safe.room)
    (hq : ∀ t W g, Mid sb safe { c with bill := g } t W [] [] → Calm F (node sb W) → Q () t) (fuel : Nat) :
    ∀ inum {s W g}, Mid sb safe { c with bill := g } s W [] [] → Calm F (node sb W) → wp
      (ireclaimFrom sb fuel inum) Q (Fine safe) s := by
  induction fuel with
  | zero => exact fun _ s W g hs hW => hq s W g hs hW
  | succ fuel ih =>
    intro inum s W g hs hW
    refine wp_if (fun hlt => ?_) fun _ => hq s W g hs hW
    have hdisk := hs.rep.disk inum hlt fun e he => by cases he
    refine wp_then (bread_spec hs fun t ht => ?_)
    rw [hdisk]
    refine wp_if (fun hino => ?_) fun _ => ?_
    · exact reclaim_spec hl ht (affords_open hroom _ _) ⟨hlt, hino.1⟩ fun t W' ht hcalm => ih _ ht (hW.trans hcalm)
    · exact wp_then (brelse_spec ht fun t ht => ih _ ht hW)

/-- A disk that the kernel keeps in order: every block in use is a data block, in one
    place only and marked so, no file has a hole, and directories name inodes that exist. -/
structure InOrder (sb : Superblock) (disk : Nat → Block) : Prop where
  layout : sb.Layout
  root : ROOTINO < sb.ninodes
  sound : Sound sb (view sb (mount disk))
  holes : ∀ i, Live sb (view sb (mount disk)) i → HoleFree (view sb (mount disk)) i
  dirs : DirRange sb (node sb (view sb (mount disk)))

section boot

variable {disk : Nat → Block} (hd : InOrder sb disk)

include hd

theorem quiet_mount (hroom : ¬ safe.room) (hlive : safe.live → (node sb (view sb (mount disk)) ROOTINO).type ≠ 0)
    (hleak : scope.tight → NoLeak sb (view sb (mount disk)))
    (hlinks : ∀ j, ¬ scope.stray j → Live sb (view sb (mount disk)) j → ((view sb (mount disk)).ino j).nlink ≠ 0) :
    Quiet sb safe scope (mount disk) (view sb (mount disk)) := by
  have hb := balanced_mount disk
  have hroot : ∀ e, 0 < held (mount disk).file (mount disk).proc e →
      ((mount disk).inode e).inum = ROOTINO := fun e he => by
    have hpos : 0 < ((mount disk).inode e).ref := by
      rw [hb.refs e]
      omega
    rw [mount_used hpos, mount_zero]
  refine ⟨⟨(mount disk).file, (mount disk).proc, held (mount disk).file (mount disk).proc,
    fun _ => ROOTINO, scope, .blank⟩, ?_, ⟨fun _ => rfl, hb.free⟩, rfl⟩
  refine ⟨rep_mount hd.root disk, hd.sound, hleak, hd.holes,
    hd.dirs, fun _ _ => .inl rfl, rfl, rfl, fun e => ?_, fun p hp => absurd hp List.not_mem_nil, hroot, fun e => ?_,
    fun e he => absurd he List.not_mem_nil, List.nodup_nil, fun f hf => ?_, fun hsafe e he => ?_,
    fun _ _ => .inr rfl, fun j hj hlj h0 => ?_,
    fun _ _ => trivial, ⟨List.nodup_nil, fun _ => rfl, [], Nat.le_refl _, fun b hb => absurd hb List.not_mem_nil⟩,
    .inl hroom⟩
  · exact (hb.refs e).trans (congrArg Nat.cast (Nat.add_zero _).symm)
  · rw [(mount_unread disk e).2]
    exact ⟨(fun h => by cases h), fun h => absurd h List.not_mem_nil⟩
  · unfold File.Inoded at hf
    simp [mount] at hf
  · rw [mount_used he]
    exact node_type_ne.mp (hlive hsafe)
  · exact absurd h0 (hlinks j hj hlj)

end boot

/-! ## Runs -/

def Stands (sb : Superblock) (safe : Guard) (scope : Scope) (F : Nat → Node) : Except Panic St → Prop
  | .ok s => ∃ V, Quiet sb safe scope s V ∧ Chg sb F (node sb V)
  | .error x => Fine safe x

theorem stands_boot {disk : Nat → Block} (hl : sb.Layout) (hroom : ¬ safe.room)
    (h : Quiet sb safe scope (mount disk) V) :
    Stands sb safe scope (node sb V) (boot sb disk) := by
  obtain ⟨c, hm, hc, hs⟩ := h
  refine wp_outcome (P := Stands sb safe scope (node sb V))
    (ireclaimFrom_spec hl hroom (fun t W g hW hF => ?_) _ _ hm .refl)
  exact ⟨W, ⟨_, hW, ⟨hc.kept, hc.free⟩, hs⟩, chg_calm hF⟩

theorem stands_step (hl : sb.Layout) (hroom : ¬ safe.room) (hw : Walkable sb safe (node sb V))
    (h : Quiet sb safe scope s V) (e : Ev) :
    Stands sb safe scope (node sb V) (step sb (.ok s) e) := by
  obtain ⟨c, hm, hc, hs⟩ := h
  have hm' : Mid sb safe { c with bill := .blank } s V [] [] :=
    mid_bill hm (fun _ _ => trivial) (Bill.fits_blank hm.logged) (.inl hroom)
  refine wp_outcome (P := Stands sb safe scope (node sb V))
    (wp_imp (act_spec hl hw hm' ⟨hc.kept, hc.free⟩ rfl hroom e) (fun _ t ht => ?_) fun _ => id)
  obtain ⟨c', W, hW, hc', hs', hF⟩ := ht
  exact ⟨W, ⟨c', hW, hc', hs'.trans hs⟩, hF⟩

end Xv6.Fs
