/-
  Xv6.Fs.Reclaim — reclaiming orphans at boot (`kernel/fs.c`: `ireclaim`).

  The loop looks at an inode on the disk and frees it through the inode table, one
  transaction each. `Reclaimed` is where it stands: the orphans below `m` are gone, with
  their blocks, and all else is as it was.
  - `orphans_reclaimed`: run alone, `ireclaim` frees every orphan, and nothing else.
  - `orphans_stay`: one that a process has as its current directory is not freed, and one with
    blocks all over a large disk does not fit the log.
-/

import Xv6.Fs.Consistency
import Xv6.Fs.Entries

namespace Xv6.Fs

open Lib Vol

/-- An allocated inode without links. Inode 0 is not used. -/
def Orphan (sb : Superblock) (V : Vol) (i : Nat) : Prop := 0 < i ∧ Live sb V i ∧ (V.ino i).nlink = 0

/-- The bitmap blocks that have the blocks of inode `i`. -/
def bitmaps (sb : Superblock) (V : Vol) (i : Nat) : Finset Nat :=
  ((Finset.range (NDIRECT + 1 + NINDIRECT)).filter fun k => V.slot i k ≠ 0).image fun k => sb.BBLOCK (V.slot i k)

/-- Nobody is in the file system: no operation runs, no inode is locked, and what the inode
    table has read in is what the disk has. -/
structure Alone (sb : Superblock) (s : St) : Prop where
  rep : Rep sb s (view sb s) none
  log : s.log = idle
  unlocked : ∀ e, (s.inode e).lock = false

section

variable {sb : Superblock} {s t u : St} {V W W' : Vol} {i m : Nat} {E : Panic → Prop}

theorem mem_bitmaps {k : Nat} (h : V.slot i k ≠ 0) : sb.BBLOCK (V.slot i k) ∈ bitmaps sb V i := by
  refine Finset.mem_image.mpr ⟨k, Finset.mem_filter.mpr ⟨Finset.mem_range.mpr (Nat.lt_of_not_le fun hk => ?_), h⟩, rfl⟩
  exact h (slot_past V i hk)

/-! ## One orphan -/

/-- From `t` to `u` inode `i` was freed, and nothing else happened that anyone could see. -/
structure Freed (sb : Superblock) (t : St) (W : Vol) (i : Nat) (u : St) (W' : Vol) : Prop where
  rep : Rep sb u W' none
  emptied : Emptied W W' i 0
  log : u.log = idle
  refs : ∀ e, (u.inode e).ref = (t.inode e).ref
  unlocked : ∀ e, (u.inode e).lock = false
  held : ∀ e, 0 < (t.inode e).ref → u.inode e = t.inode e
  home : ∀ b, u.home b = u.data b ∨ u.data b = t.data b ∧ u.home b = t.home b

/-- What changes without being logged is a data block, and those stay as they are. -/
theorem data_kept (hrep : Rep sb t W none) (hrep' : Rep sb u W' none) (he : Emptied W W' i 0)
    (ht : Tame sb t W u W') {b : Nat} (hb : b ∉ u.log.lh) : u.data b = t.data b := by
  rcases ht.data b hb with h | ⟨hm, _⟩
  · exact h
  · rw [hrep'.blk b hm, he.blk, hrep.blk b hm]

/-- The transaction, on an entry nobody else refers to. -/
theorem orphan_op (hl : sb.Layout) (h : Rep sb t W none) (hs : Sound sb W) (hlive : Live sb W i)
    (hnl : (W.ino i).nlink = 0) (hlog : t.log = idle) (ip : Idx) (hunl : (t.inode ip).lock = false)
    (href : (t.inode ip).ref = 1) (hi : (t.inode ip).inum = i) (hfit : (bitmaps sb W i).card + 1 < LOGBLOCKS)
    {f : Unit → M Unit} {Q : Unit → St → Prop}
    (hq : ∀ u W', Rep sb u W' none → Emptied W W' i 0 → u.log = idle → (∀ e, e ≠ ip → u.inode e = t.inode e) →
      (u.inode ip).ref = 0 ∧ (u.inode ip).lock = false →
      (∀ b, u.home b = u.data b ∨ u.data b = t.data b ∧ u.home b = t.home b) → wp (f ()) Q E u) :
    wp (beginOp >>= fun _ => ilock sb ip >>= fun _ => iunlock ip >>= fun _ => iput sb ip >>= fun _ =>
      endOp >>= f) Q E t := by
  have hlog1 : Beside t { t with log := ⟨1, false, []⟩ } ip := ⟨rfl, rfl, fun _ _ => rfl⟩
  have h1 : Rep sb { t with log := ⟨1, false, []⟩ } W none := rep_same h rfl rfl
  refine wp_then (beginOp_idle hlog ?_)
  refine wp_then (ilock_live h1 (by rw [href]; decide) hunl hi hlive fun x hxr hxl _ h2 hp2 => ?_)
  have hside2 := hlog1.trans (beside_setEntry _ ip x)
  have hent2 := setEntry_same { t with log := ⟨1, false, []⟩ } ip x
  have hlog2 := setEntry_log { t with log := ⟨1, false, []⟩ } ip x
  generalize setEntry { t with log := ⟨1, false, []⟩ } ip x = v at h2 hp2 hside2 hent2 hlog2 ⊢
  refine wp_then (iunlock_held hp2.ref (by rw [hent2]; exact hxl) ?_)
  have h3 : Rep sb (setEntry v ip { v.inode ip with lock := false }) W none := rep_keep h2 hp2.ref _ _
  have hside3 := hside2.trans (beside_setEntry v ip { v.inode ip with lock := false })
  have hent3 := setEntry_same v ip { v.inode ip with lock := false }
  have hlog3 := (setEntry_log v ip { v.inode ip with lock := false }).trans hlog2
  generalize setEntry v ip { v.inode ip with lock := false } = w at h3 hside3 hent3 hlog3 ⊢
  have hp3 : Loaded w ip i := by
    refine ⟨?_, ?_, ?_⟩ <;> rw [hent3]
    · exact hp2.ref
    · exact hp2.valid
    · exact hp2.inum
  -- the blocks it logs: the inode's own, and those of its bits
  have hcard : (insert (sb.IBLOCK i) (bitmaps sb W i)).card < LOGBLOCKS :=
    Nat.lt_of_le_of_lt (Finset.card_insert_le _ _) hfit
  have hwithin : Within (insert (sb.IBLOCK i) (bitmaps sb W i)) w.log := by
    rw [hlog3]
    exact ⟨Int.le_refl 1, List.nodup_nil, fun x hx => by cases hx⟩
  refine wp_then (iput_frees hl h3 hp3 (by rw [hent3]) (by rw [hent3, hent2]; exact hxr.trans href) hnl hs
    (fun k hk => logs_within hcard (Finset.mem_insert_of_mem (mem_bitmaps hk)))
    (logs_within hcard (Finset.mem_insert_self ..)) hwithin
    fun u W' hrep he ht hothers hx _ => ?_)
  refine wp_then (endOp_last (by rw [ht.out, hlog3]) (by rw [ht.committing, hlog3]) ?_)
  refine hq _ W' (rep_same hrep rfl rfl) he rfl (fun e hne => (hothers e hne).trans (hside3.others e hne)) hx
    fun b => ?_
  by_cases hb : b ∈ u.log.lh
  · exact .inl (if_pos hb)
  · exact .inr ⟨(data_kept h3 hrep he ht hb).trans (congrFun hside3.data b),
      (if_neg hb).trans ((congrFun ht.home b).trans (congrFun hside3.home b))⟩

theorem orphan_freed (hl : sb.Layout) (h : Rep sb t W none) (hs : Sound sb W) (ho : Orphan sb W i)
    (hlog : t.log = idle) (hunl : ∀ e, (t.inode e).lock = false)
    (hno : ∀ e, 0 < (t.inode e).ref → (t.inode e).inum ≠ i) (hfree : ∃ e, (t.inode e).ref = 0)
    (hfit : (bitmaps sb W i).card + 1 < LOGBLOCKS) {b : Nat} {f : Unit → M Unit} {Q : Unit → St → Prop}
    (hq : ∀ u W', Freed sb t W i u W' → wp (f ()) Q E u) :
    wp (iget ROOTDEV i >>= fun ip => brelse b >>= fun _ => beginOp >>= fun _ => ilock sb ip >>= fun _ =>
      iunlock ip >>= fun _ =>
      iput sb ip >>= fun _ => endOp >>= f) Q E (t.withBufs (b :: t.bufs)) := by
  obtain ⟨_, hlive, hnl⟩ := ho
  refine wp_then (iget_fresh (by exact hno) (by exact hfree) fun ip (h0 : (t.inode ip).ref = 0) => ?_)
  have hrep : Rep sb (setEntry (t.withBufs (b :: t.bufs)) ip
    { t.inode ip with dev := ROOTDEV, inum := i, ref := 1, valid := false }) W none :=
    rep_setEntry (rep_bufs _ h) ⟨hlive.1, rfl⟩ (fun e _ hre => hno e hre) fun hv => by cases hv
  have hside := beside_setEntry (t.withBufs (b :: t.bufs)) ip
    { t.inode ip with dev := ROOTDEV, inum := i, ref := 1, valid := false }
  have hent := setEntry_same (t.withBufs (b :: t.bufs)) ip
    { t.inode ip with dev := ROOTDEV, inum := i, ref := 1, valid := false }
  have hlog' := (setEntry_log (t.withBufs (b :: t.bufs)) ip
    { t.inode ip with dev := ROOTDEV, inum := i, ref := 1, valid := false }).trans hlog
  show wp _ Q E ((setEntry (t.withBufs (b :: t.bufs)) ip
    { t.inode ip with dev := ROOTDEV, inum := i, ref := 1, valid := false }).withBufs _)
  generalize setEntry (t.withBufs (b :: t.bufs)) ip
    { t.inode ip with dev := ROOTDEV, inum := i, ref := 1, valid := false } = v
    at hrep hside hent hlog' ⊢
  refine orphan_op hl (rep_bufs _ hrep) hs hlive hnl (by exact hlog') ip ?_ ?_ ?_ hfit
    fun u W' hu he hul hothers hx hhome => ?_
  · rw [St.withBufs_inode, hent]
    exact hunl ip
  · rw [St.withBufs_inode, hent]
  · rw [St.withBufs_inode, hent]
  have hsame (e : Idx) (hne : e ≠ ip) : u.inode e = t.inode e := (hothers e hne).trans (hside.others e hne)
  refine hq u W' ⟨hu, he, hul, fun e => ?_, fun e => ?_,
    fun e hpos => hsame e fun heq => by rw [heq] at hpos; omega, fun c => ?_⟩
  · by_cases hne : e = ip
    · rw [hne, hx.1, h0]
    · rw [hsame e hne]
  · by_cases hne : e = ip
    · rw [hne, hx.2]
    · rw [hsame e hne, hunl]
  · rcases hhome c with hc | ⟨h1, h2⟩
    · exact .inl hc
    · exact .inr ⟨h1.trans (congrFun hside.data c), h2.trans (congrFun hside.home c)⟩

/-! ## The loop -/

structure Reclaimed (sb : Superblock) (s : St) (V : Vol) (m : Nat) (t : St) (W : Vol) : Prop where
  rep : Rep sb t W none
  sound : Sound sb W
  ino : ∀ j, ¬ (j < m ∧ Orphan sb V j) → W.ino j = V.ino j
  gone : ∀ j, j < m → Orphan sb V j → (W.ino j).type = 0
  blk : W.blk = V.blk
  used : ∀ b, W.used b = true ↔ V.used b = true ∧ ∀ j k, j < m → Orphan sb V j → ¬ Holds sb V j k b
  log : t.log = idle
  refs : ∀ e, (t.inode e).ref = (s.inode e).ref
  unlocked : ∀ e, (t.inode e).lock = false
  held : ∀ e, 0 < (s.inode e).ref → t.inode e = s.inode e
  home : ∀ b, t.home b = t.data b ∨ t.data b = s.data b

theorem reclaimed_skip (h : Reclaimed sb s V m t W) (ho : ¬ Orphan sb V m) : Reclaimed sb s V (m + 1) t W := by
  have hlt {j : Nat} (hj : Orphan sb V j) : j < m + 1 ↔ j < m :=
    ⟨fun hjm => Nat.lt_of_le_of_ne (Nat.le_of_lt_succ hjm) fun e => ho (e ▸ hj), Nat.lt_succ_of_lt⟩
  refine { h with
    ino := fun j hj => h.ino j fun hj' => hj ⟨(hlt hj'.2).mpr hj'.1, hj'.2⟩
    gone := fun j hj hjo => ?_
    used := fun b => ?_ }
  · exact h.gone j ((hlt hjo).mp hj) hjo
  · rw [h.used b]
    exact and_congr_right fun _ => forall₂_congr fun j k => ⟨fun hall hj hjo => hall ((hlt hjo).mp hj) hjo,
      fun hall hj hjo => hall ((hlt hjo).mpr hj) hjo⟩

/-- Its blocks are those it had at the start. -/
theorem reclaimed_slot (h : Reclaimed sb s V m t W) {j : Nat} (hj : ¬ (j < m ∧ Orphan sb V j)) (k : Nat) :
    W.slot j k = V.slot j k :=
  slot_congr k (fun l => by rw [h.ino j hj]) fun _ => by rw [h.blk]

theorem reclaimed_free (h : Reclaimed sb s V m t W) (ho : Orphan sb V m) (hf : Freed sb t W m u W') :
    Reclaimed sb s V (m + 1) u W' := by
  have hnot : ¬ (m < m ∧ Orphan sb V m) := fun hm => Nat.lt_irrefl m hm.1
  have hlive : Live sb W m := ⟨ho.2.1.1, by rw [h.ino m hnot]; exact ho.2.1.2⟩
  refine ⟨hf.rep, emptied_sound hf.emptied h.sound hlive, fun j hj => ?_, fun j hj hjo => ?_,
    hf.emptied.blk.trans h.blk, fun b => ?_, hf.log,
    fun e => (hf.refs e).trans (h.refs e), hf.unlocked, fun e he => ?_, fun b => ?_⟩
  · have hne : j ≠ m := fun e => hj ⟨by omega, e ▸ ho⟩
    rw [hf.emptied.ino j hne]
    exact h.ino j fun hj' => hj ⟨by omega, hj'.2⟩
  · by_cases hne : j = m
    · rw [hne, hf.emptied.hdr]
    · rw [hf.emptied.ino j hne]
      exact h.gone j (by omega) hjo
  · rw [hf.emptied.used b, h.used b, and_assoc]
    refine and_congr_right fun _ =>
      ⟨fun ⟨hold, hnew⟩ j k hj hjo hb => ?_, fun hall => ⟨fun j k hj => hall j k (by omega), fun k hk => ?_⟩⟩
    · rcases Nat.lt_succ_iff_lt_or_eq.mp hj with hj | rfl
      · exact hold j k hj hjo hb
      · exact hb.ne (hnew k ((reclaimed_slot h hnot k).trans hb.at_))
    · refine Decidable.by_contra fun hb => hall m k (Nat.lt_succ_self m) ho ⟨ho.2.1, ?_, hb⟩
      rw [← reclaimed_slot h hnot k]
      exact hk
  · rw [hf.held e (by rw [h.refs e]; exact he)]
    exact h.held e he
  · rcases hf.home b with hb | ⟨h1, h2⟩
    · exact .inl hb
    · rcases h.home b with hb | hb
      · exact .inl (h2.trans (hb.trans h1.symm))
      · exact .inr (h1.trans hb)

theorem reclaimed_loop (hl : sb.Layout) (hfree : ∃ e, (s.inode e).ref = 0)
    (hno : ∀ e, 0 < (s.inode e).ref → ¬ Orphan sb V (s.inode e).inum)
    (hfit : ∀ i, Orphan sb V i → (bitmaps sb V i).card + 1 < LOGBLOCKS) :
    ∀ fuel m t W, 0 < m → sb.ninodes ≤ m + fuel → Reclaimed sb s V m t W →
      wp (ireclaimFrom sb fuel m) (fun _ u => ∃ n W', sb.ninodes ≤ n ∧ Reclaimed sb s V n u W') E t := by
  intro fuel
  induction fuel with
  | zero => exact fun m t W _ hm h => ⟨m, W, hm, h⟩
  | succ fuel ih =>
    intro m t W h0 hm h
    unfold ireclaimFrom
    by_cases hlt : m < sb.ninodes
    · have hnot : ¬ (m < m ∧ Orphan sb V m) := fun hm => Nat.lt_irrefl m hm.1
      have hdisk : getDinode (t.data (sb.IBLOCK m)) (ioff m) = V.ino m := by
        rw [h.rep.disk m hlt fun e he => by cases he]
        exact h.ino m hnot
      rw [if_pos hlt, wp_bind, wp_bread]
      rw [hdisk]
      by_cases hc : (V.ino m).type ≠ 0 ∧ (V.ino m).nlink = 0
      · have ho : Orphan sb V m := ⟨h0, ⟨hlt, hc.1⟩, hc.2⟩
        have hslots : bitmaps sb W m = bitmaps sb V m := by simp only [bitmaps, reclaimed_slot h hnot]
        rw [if_pos hc]
        refine orphan_freed hl h.rep h.sound
          ⟨h0, ⟨hlt, by rw [h.ino m hnot]; exact hc.1⟩, by rw [h.ino m hnot]; exact hc.2⟩ h.log h.unlocked
          (fun e he heq => ?_) ?_ (by rw [hslots]; exact hfit m ho) fun u W' hf =>
            ih (m + 1) u W' (by omega) (by omega) (reclaimed_free h ho hf)
        · rw [h.refs e] at he
          rw [h.held e he] at heq
          exact hno e he (heq ▸ ho)
        · obtain ⟨e, he⟩ := hfree
          exact ⟨e, (h.refs e).trans he⟩
      · rw [if_neg hc, wp_bind, wp_brelse, St.withBufs_bufs, relse_cons]
        exact ih (m + 1) t W (by omega) (by omega) (reclaimed_skip h fun ho => hc ⟨ho.2.1.2, ho.2.2⟩)
    · rw [if_neg hlt]
      exact ⟨m, W, by omega, h⟩

end

/-- `ireclaim`, run alone with an entry of the inode table to spare, frees the orphans that
    nobody refers to and that the log has room for. -/
theorem orphans_reclaimed (sb : Superblock) (s : St) (hl : sb.Layout) (hx : Exact sb (view sb s)) (halone : Alone sb s)
    (hfree : ∃ e, (s.inode e).ref = 0) (hno : ∀ e, 0 < (s.inode e).ref → ¬ Orphan sb (view sb s) (s.inode e).inum)
    (hfit : ∀ i, Orphan sb (view sb s) i → (bitmaps sb (view sb s) i).card + 1 < LOGBLOCKS) :
    ∃ t, ireclaim sb s = .ok ((), t) ∧ (∀ i, ¬ Orphan sb (view sb t) i) ∧
      (∀ i < sb.ninodes, ¬ Orphan sb (view sb s) i → (view sb t).ino i = (view sb s).ino i ∧
        ∀ k b, Holds sb (view sb s) i k b → t.data b = s.data b) ∧
      (∀ b < sb.size, (view sb t).used b = true ↔
        (view sb s).used b = true ∧ ∀ i k, Orphan sb (view sb s) i → ¬ Holds sb (view sb s) i k b) ∧
      (∀ e, (t.inode e).ref = (s.inode e).ref) ∧ t.log = s.log ∧ ∀ b, t.data b = s.data b ∨ t.home b = t.data b := by
  have hstart : Reclaimed sb s (view sb s) 1 s (view sb s) :=
    ⟨halone.rep, (exact_iff.mp hx).1, fun _ _ => rfl, fun j hj ho => absurd hj (by have := ho.1; omega), rfl,
      fun b => ⟨fun h => ⟨h, fun j k hj ho => absurd hj (by have := ho.1; omega)⟩, And.left⟩,
      halone.log, fun _ => rfl, halone.unlocked,
      fun _ _ => rfl, fun _ => .inr rfl⟩
  obtain ⟨_, t, ht, n, W, hn, h⟩ :=
    wp_total (reclaimed_loop hl hfree hno hfit sb.ninodes 1 s _ Nat.one_pos (by omega) hstart)
  have hino {i : Nat} (hi : i < sb.ninodes) : (view sb t).ino i = W.ino i := h.rep.disk i hi fun e he => by cases he
  refine ⟨t, ht, fun i ho => ?_, fun i hi ho => ⟨?_, fun k b hb => ?_⟩, fun b hb => ?_, h.refs,
    h.log.trans halone.log.symm, fun b => (h.home b).symm⟩
  · obtain ⟨h0, ⟨hi, hty⟩, hnl⟩ := ho
    rw [hino hi] at hty hnl
    by_cases ho : Orphan sb (view sb s) i
    · exact hty (h.gone i (by omega) ho)
    · rw [h.ino i fun hi' => ho hi'.2] at hty hnl
      exact ho ⟨h0, ⟨hi, hty⟩, hnl⟩
  · rw [hino hi]
    exact h.ino i fun hi' => ho hi'.2
  · have hm := (hx.range i k b hb).1
    rw [h.rep.blk b hm, h.blk]
    rfl
  · have hused : (view sb t).used b = W.used b := h.rep.used b hb
    rw [hused, h.used b]
    refine and_congr_right fun _ => ⟨fun hall i k ho => hall i k ?_ ho, fun hall i k _ ho => hall i k ho⟩
    exact Nat.lt_of_lt_of_le ho.2.1.1 hn

/-! ## A large disk with an orphan all over it -/

namespace Spread

def sb : Superblock := ⟨253952, 253916, 16, 2, 4⟩

/-- Slot `k` of a file of `n` blocks: the first block of its own bitmap block. -/
def place (n k : Nat) : Nat := if k < n then 8192 * (k + 1) else 0

def root (links : Int16) : Dinode := { Dinode.ofType T_DIR with nlink := links }

def file (n : Nat) : Dinode := ⟨T_FILE, 0, 0, 0, BSIZE * (n - 1), fun k => place n k.1⟩

def bitmap : Block := Bytes.ofFn fun x => if x < 4 then 255 else if x = 4 then 15 else 0

def one : Block := Bytes.ofFn fun x => if x = 0 then 1 else 0

/-- Inode 1 is an empty directory with `links` links, inode 2 a file without any. -/
def disk (links : Int16) (n : Nat) : Nat → Block := fun b =>
  if b = 2 then putDinode (putDinode Bytes.zero 64 (root links)) 128 (file n)
  else if b = 4 then bitmap
  else if 4 < b ∧ b < 5 + n then one
  else if b = 8192 * 13 then Bytes.ofFn fun x => Bytes.leByte (place n (13 + x / 4)) (x % 4)
  else Bytes.zero

abbrev vol (links : Int16) (n : Nat) : Vol := view sb (mount (disk links n))

theorem layout : sb.Layout := ⟨by decide, by decide, by decide, by decide⟩

variable {links : Int16} {n : Nat}

theorem place_lt (hn : n ≤ 30) (k : Nat) : place n k < 4294967296 := by
  unfold place
  split <;> omega

theorem fits_file (hn : n ≤ 30) : (file n).Fits := by
  refine ⟨?_, fun k => ?_⟩
  · simp only [file, BSIZE]
    omega
  · simp only [Dinode.addr, file]
    split
    · exact place_lt hn k
    · decide

theorem ino_file (hn : n ≤ 30) : (vol links n).ino 2 = file n :=
  getDinode_putDinode _ (o := 128) (by decide) (fits_file hn)

theorem ino_root : (vol links n).ino 1 = root links := by
  have h1 : (vol links n).ino 1 = getDinode (putDinode Bytes.zero 64 (root links)) 64 :=
    getDinode_congr (b := putDinode _ 128 _) fun i _ hi => get_putDinode_out _ _ (.inl hi)
  rw [h1]
  exact getDinode_putDinode _ (by decide) (Dinode.fits_setNlink links (Dinode.fits_ofType T_DIR))

theorem live_cases {i : Nat} (h : Live sb (vol links n) i) : i = 1 ∨ i = 2 := by
  by_contra hne
  refine h.2 ?_
  have hi : i < 16 := h.1
  have hb : sb.IBLOCK i = 2 := by simp only [Superblock.IBLOCK, sb, IPB, BSIZE]; omega
  show (getDinode (disk links n (sb.IBLOCK i)) (ioff i)).type = 0
  rw [hb]
  exact Tiny.type_beside _ _ hi hne

theorem slot_root (k : Nat) : (vol links n).slot 1 k = 0 := by
  have h0 (j : Nat) : ((vol links n).ino 1).addr j = 0 := by
    rw [ino_root]
    exact Dinode.addr_ofType T_DIR j
  by_cases hk : k < NDIRECT + 1
  · rw [slot_low _ _ hk, h0]
  · rw [slot_high _ _ hk, if_pos (h0 _)]

theorem slot_file (hn : n ≤ 30) (h13 : 13 ≤ n) (k : Nat) : (vol links n).slot 2 k = place n k := by
  have haddr {j : Nat} (hj : j < NDIRECT + 1) : ((vol links n).ino 2).addr j = place n j := by
    rw [ino_file hn]
    simp only [Dinode.addr, file, dif_pos hj]
  have hind : place n NDIRECT = 8192 * 13 := if_pos (show 12 < n by omega)
  by_cases hk : k < NDIRECT + 1
  · rw [slot_low _ _ hk, haddr hk]
  by_cases hk' : k < NDIRECT + 1 + NINDIRECT
  · simp only [NDIRECT, NINDIRECT, BSIZE] at hk hk'
    rw [slot_high _ _ hk, haddr (Nat.lt_succ_self _), hind]
    have hblk : (vol links n).blk (8192 * 13) = Bytes.ofFn fun x => Bytes.leByte (place n (13 + x / 4)) (x % 4) := by
      show disk links n (8192 * 13) = _
      unfold disk
      rw [if_neg (by decide), if_neg (by decide), if_neg (by omega), if_pos rfl]
    rw [hblk, entry]
    have hle := Bytes.getLE_of_leByte (Bytes.ofFn fun x => Bytes.leByte (place n (13 + x / 4)) (x % 4) : Block) 4
      (4 * (k - (NDIRECT + 1)))
      (place n k) fun j hj => ?_
    · rw [hle]
      exact Nat.mod_eq_of_lt (place_lt hn k)
    · simp only [NDIRECT]
      rw [Bytes.get_ofFn _ (by simp only [BSIZE]; omega)]
      have h1 : 13 + (4 * (k - 13) + j) / 4 = k := by omega
      have h2 : (4 * (k - 13) + j) % 4 = j := by omega
      rw [h1, h2]
  · have hfar : 269 ≤ k := Nat.le_of_not_lt hk'
    rw [slot_past _ _ hfar, place, if_neg (by omega)]

theorem holds_iff (hn : n ≤ 30) (h13 : 13 ≤ n) (i k b : Nat) :
    Holds sb (vol links n) i k b ↔ i = 2 ∧ k < n ∧ b = 8192 * (k + 1) := by
  constructor
  · intro h
    have hb := h.at_
    have hne := h.ne
    rcases live_cases h.live with rfl | rfl
    · rw [slot_root] at hb
      exact absurd hb.symm hne
    · rw [slot_file hn h13, place] at hb
      split at hb
      · next hk => exact ⟨rfl, hk, hb.symm⟩
      · exact absurd hb.symm hne
  · rintro ⟨rfl, hk, rfl⟩
    refine ⟨⟨by decide, by rw [ino_file hn]; exact (by decide : T_FILE ≠ 0)⟩, ?_, by omega⟩
    rw [slot_file hn h13, place, if_pos hk]

/-- A block that is zero from byte `m` on has no bit there. -/
theorem bit_past {b : Block} {m x : Nat} (h : ∀ y, m ≤ y → y < BSIZE → b.get y = 0) (hm : 8 * m ≤ x)
    (hx : x < 8192) : b.bit x = false := by
  rw [Bytes.bit, h (x / 8) (by omega) (by simp only [BSIZE]; omega)]
  simp

theorem bit_bitmap {x : Nat} (hx : x < 8192) : bitmap.bit x = decide (x < 36) := by
  by_cases h40 : x < 40
  · have h : ∀ x < 40, bitmap.bit x = decide (x < 36) := by decide
    exact h x h40
  · rw [bit_past (m := 5) (fun y h5 hy => ?_) (by omega) hx, eq_comm, decide_eq_false_iff_not]
    · omega
    · rw [bitmap, Bytes.get_ofFn _ hy, if_neg (by omega), if_neg (by omega)]

theorem bit_one {x : Nat} (hx : x < 8192) : one.bit x = decide (x = 0) := by
  by_cases h8 : x < 8
  · have h : ∀ x < 8, one.bit x = decide (x = 0) := by decide
    exact h x h8
  · rw [bit_past (m := 1) (fun y h1 hy => ?_) (by omega) hx, eq_comm, decide_eq_false_iff_not]
    · omega
    · rw [one, Bytes.get_ofFn _ hy, if_neg (by omega)]

theorem used_iff (hn : n ≤ 30) : ∀ b < 253952, (vol links n).used b = true ↔ b < 36 ∨ ∃ k < n, b = 8192 * (k + 1) := by
  intro b hb
  have hlt : b % 8192 < 8192 := Nat.mod_lt b (by decide)
  show (disk links n (b / 8192 + 4)).bit (b % 8192) = true ↔ _
  unfold disk
  rw [if_neg (by omega)]
  by_cases h0 : b / 8192 = 0
  · rw [if_pos (by omega), bit_bitmap hlt, decide_eq_true_iff]
    refine ⟨fun h => .inl (by omega), fun h => ?_⟩
    rcases h with h | ⟨k, _, h⟩ <;> omega
  rw [if_neg (by omega)]
  by_cases hin : b / 8192 ≤ n
  · rw [if_pos (by omega), bit_one hlt, decide_eq_true_iff]
    refine ⟨fun h => .inr ⟨b / 8192 - 1, by omega, by omega⟩, fun h => ?_⟩
    rcases h with h | ⟨k, _, h⟩ <;> omega
  · rw [if_neg (by omega), if_neg (by omega), bit_past (m := 0) (fun y _ _ => Bytes.get_zero y) (by omega) hlt]
    refine ⟨(fun h => by cases h), fun h => ?_⟩
    rcases h with h | ⟨k, _, h⟩ <;> omega

theorem exact (hn : n ≤ 30) (h13 : 13 ≤ n) : Exact sb (vol links n) := by
  have hm : sb.nmeta = 36 := rfl
  have hsz : sb.size = 253952 := rfl
  refine ⟨fun b hb => ?_, fun i k b h => ?_, fun i k j l b h h' => ?_⟩
  · rw [used_iff hn b hb, hm]
    simp only [holds_iff hn h13]
    exact or_congr_right ⟨fun ⟨k, hk, he⟩ => ⟨2, k, rfl, hk, he⟩, fun ⟨_, k, _, hk, he⟩ => ⟨k, hk, he⟩⟩
  · have := (holds_iff hn h13 i k b).mp h
    omega
  · have h1 := (holds_iff hn h13 i k b).mp h
    have h2 := (holds_iff hn h13 j l b).mp h'
    omega

theorem bitmaps_card (hn : n ≤ 30) (h13 : 13 ≤ n) : (bitmaps sb (vol links n) 2).card ≤ n := by
  refine Nat.le_trans Finset.card_image_le ?_
  refine Nat.le_trans (Finset.card_le_card (t := Finset.range n) fun k hk => ?_) (Finset.card_range n).le
  have hne := (Finset.mem_filter.mp hk).2
  rw [slot_file hn h13] at hne
  exact Finset.mem_range.mpr (Decidable.by_contra fun h => hne (if_neg h))

theorem orphan_cases {i : Nat} (h : Orphan sb (vol links n) i) : i = 1 ∧ links = 0 ∨ i = 2 := by
  rcases live_cases h.2.1 with rfl | rfl
  · refine .inl ⟨rfl, ?_⟩
    have hnl := h.2.2
    rw [ino_root] at hnl
    exact hnl
  · exact .inr rfl

theorem orphan_file (hn : n ≤ 30) : Orphan sb (vol links n) 2 :=
  ⟨by decide, ⟨by decide, by rw [ino_file hn]; exact (by decide : T_FILE ≠ 0)⟩, by rw [ino_file hn]; rfl⟩

end Spread

theorem alone_mount {sb : Superblock} (hroot : ROOTINO < sb.ninodes) (disk : Nat → Block) : Alone sb (mount disk) :=
  ⟨rep_mount hroot disk, rfl, fun e => (mount_unread disk e).2⟩

/-- An orphan with a block in each of 28 bitmap blocks. -/
theorem orphans_reclaimed_spread : Orphan Spread.sb (Spread.vol 1 28) 2 ∧
    ∃ t, ireclaim Spread.sb (mount (Spread.disk 1 28)) = .ok ((), t) ∧ ∀ i, ¬ Orphan Spread.sb
      (view Spread.sb t) i := by
  refine ⟨Spread.orphan_file (by decide), ?_⟩
  obtain ⟨t, ht, hgone, _⟩ :=
    orphans_reclaimed Spread.sb (mount (Spread.disk 1 28)) Spread.layout (Spread.exact (by decide) (by decide))
    (alone_mount (by decide) _) ⟨⟨1, by decide⟩, rfl⟩
    (fun e he ho => by
      rw [mount_used he] at ho
      rcases Spread.orphan_cases ho with ⟨_, h⟩ | h <;> cases h)
    (fun i ho => by
      rcases Spread.orphan_cases ho with ⟨_, h⟩ | rfl
      · cases h
      · exact Nat.lt_of_le_of_lt (Nat.succ_le_succ (Spread.bitmaps_card (by decide) (by decide)))
          (by decide : 28 + 1 < LOGBLOCKS))
  exact ⟨t, ht, hgone⟩

/-- With a block in each of 29 it fills the log before the second `iupdate`, and a root
    without links stays: it is the current directory of the first process. -/
theorem orphans_stay :
    Exact Spread.sb (Spread.vol 1 29) ∧ panicOf (boot Spread.sb (Spread.disk 1 29)) = some (.log .tooBig) ∧
    Exact Spread.sb (Spread.vol 0 13) ∧
      ∃ t, boot Spread.sb (Spread.disk 0 13) = .ok t ∧ ((view Spread.sb t).ino ROOTINO).type ≠ 0 ∧
      ((view Spread.sb t).ino ROOTINO).nlink = 0 := by
  refine ⟨Spread.exact (by decide) (by decide), by decide +kernel, Spread.exact (by decide) (by decide), ?_⟩
  exact Tiny.ends_ok (by decide +kernel)

end Xv6.Fs
