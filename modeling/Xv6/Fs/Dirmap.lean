/-
  Xv6.Fs.Dirmap — a directory is a finite map (`kernel/fs.c`: `dirlookup`, `dirlink`, and the
  removal in `sys_unlink`) from names to inode numbers: `directory_map` says what the three
  operations do to it.
-/

import Xv6.Fs.Consistency

namespace Xv6.Fs

open Lib Vol

/-! ## The operations -/

/-- Entry `dp` has a directory read in whose entries are whole and have distinct names. -/
structure IsDir (sb : Superblock) (s : St) (V : Vol) (dp : Idx) (d : Nat) : Prop extends Readable sb s V dp d where
  type : (node sb V d).type = T_DIR
  whole : DESIZE ∣ (node sb V d).size
  distinct : (node sb V d).Distinct

/-- There is a free entry, or a place for one more. -/
def HasPlace (sb : Superblock) (V : Vol) (d : Nat) : Prop :=
  (node sb V d).gap < (node sb V d).size / DESIZE ∨
    (node sb V d).size + DESIZE ≤ MAXFILE * BSIZE ∧ Space.need V d (node sb V d).size DESIZE ≤ Space.free sb V

/-- A transaction with room for all that an entry can make `writei` log. -/
def Roomy (s : St) : Prop := 1 ≤ s.log.outstanding ∧ s.log.lh.length + 7 ≤ LOGBLOCKS

section

variable {sb : Superblock} {s t : St} {V V' : Vol} {dp : Idx} {d k : Nat} {E : Panic → Prop} {name : Name}

variable {Q : Option (Idx × Nat) → St → Prop}

theorem dirlookup_dir (h : IsDir sb s V dp d) (hnone : (node sb V d).lookup name = none → Q none s)
    (hsome : ∀ k, (node sb V d).lookup name = some ((node sb V d).ent k, DESIZE * k) →
      wp (iget ROOTDEV ((node sb V d).ent k)) (fun ip => Q (some (ip, DESIZE * k))) E s) :
    wp (dirlookup sb dp name) Q E s :=
  dirlookup_read h.toReadable h.type (fun hno => absurd h.whole hno) hnone fun k _ _ => hsome k

/-- A reference taken and given back changes nothing. -/
theorem isDir_ungot (h : IsDir sb s V dp d) {j : Nat} {e : Idx} {x : Inode} (hg : Got s j e x) :
    IsDir sb (setEntry s e { x with ref := (s.inode e).ref }) V dp d := by
  refine { h with rep := rep_ungot h.rep hg, loaded := ?_ }
  have hp := h.loaded
  by_cases he : dp = e
  · subst he
    cases hg with
    | found h1 h2 h3 =>
      refine ⟨?_, ?_, ?_⟩ <;> rw [setEntry_same]
      · exact hp.ref
      · exact hp.valid
      · exact hp.inum
    | fresh h1 h2 => exact absurd hp.ref (by omega)
  · refine ⟨?_, ?_, ?_⟩ <;> rw [setEntry_ne _ _ he]
    · exact hp.ref
    · exact hp.valid
    · exact hp.inum

/-- Below the size of a file no block is missing. -/
theorem need_zero (hf : HoleFree V d) {off n : Nat} (h : off + n ≤ (V.ino d).size) : Space.need V d off n = 0 := by
  refine Finset.card_eq_zero.mpr (Finset.filter_eq_empty_iff.mpr fun l hl => ?_)
  obtain ⟨q, hq, hl⟩ := Space.mem_touched.mp hl
  have hblk := (hf ((off + q) / BSIZE) (by simp only [BSIZE]; omega)).2
  rcases Space.mem_bmapSlots.mp hl with rfl | ⟨rfl, hbn⟩
  · exact hblk
  · exact Space.slot_indirect hbn hblk

theorem room_roomy (hE : ∀ e, ¬ Roomy s → E (.log e)) : Room E (6 * blocks (DESIZE * k) DESIZE + 1 + 0) s := by
  have hone : blocks (DESIZE * k) DESIZE = 1 := by
    unfold blocks
    rw [if_neg (by decide)]
    simp only [DESIZE, DIRSIZ, BSIZE]
    omega
  rw [hone]
  refine ⟨fun _ (h : s.log.outstanding < 1) => hE _ fun hr => ?_, fun (h : LOGBLOCKS < s.log.lh.length + 7) =>
    hE _ fun hr => ?_⟩
  · exact absurd hr.1 (by omega)
  · exact absurd hr.2 (by omega)

variable {Q : Int → St → Prop}

/-- One entry written: all of it if there is room for it, else nothing. -/
theorem writeDirent_dir (hl : sb.Layout) (h : IsDir sb s V dp d) {l : List UInt8} (hlen : l.length = DESIZE)
    (hk : DESIZE * k ≤ (node sb V d).size) (hE : ∀ e, ¬ Roomy s → E (.log e))
    (hno : ¬ EntryFits sb V d k → ∀ r t V', r ≠ (DESIZE : Int) → Readable sb t V' dp d → node sb V' = node sb V → Q r t)
    (hyes : EntryFits sb V d k → ∀ t V', Readable sb t V' dp d →
      node sb V' = upd (node sb V) d ((node sb V d).put (DESIZE * k) l) → Q DESIZE t) :
    wp (writei sb dp (kernelSrc l) (DESIZE * k) DESIZE) Q E s := by
  have hi := loaded_live h.rep h.loaded
  rw [node_live hi] at hk
  refine writei_spec hl h.rep h.loaded hi h.sound (.inl fun _ _ => rfl) costs_any (room_roomy hE) (fun hbad => ?_)
    fun r t V' _ hf _ => ?_
  · exact hno (entry_refused hk hbad) _ s V (by decide) h.toReadable rfl
  · have hread : Readable sb t V' dp d := ⟨hf.rep, hf.sound, loaded_put hf.inode h.loaded, hf.holeFree h.holes⟩
    rcases filled_dirent hf hi hk hlen with ⟨rfl, hfits, hsame⟩ | ⟨rfl, hfits, hput⟩
    · exact hno hfits _ t V' (by decide) hread hsame
    · exact hyes hfits t V' hread hput

/-- The directory is still one after a write of an entry. -/
theorem isDir_put (h : IsDir sb s V dp d) {l : List UInt8} (hlen : l.length = DESIZE)
    (hr : Readable sb t V' dp d) (hput : node sb V' = upd (node sb V) d ((node sb V d).put (DESIZE * k) l))
    (hd : ((node sb V d).put (DESIZE * k) l).Distinct) :
    IsDir sb t V' dp d := by
  have hself : node sb V' d = (node sb V d).put (DESIZE * k) l := by rw [hput, upd_same]
  refine { hr with type := ?_, whole := ?_, distinct := ?_ } <;> rw [hself]
  · exact h.type
  · show DESIZE ∣ max (node sb V d).size (DESIZE * k + l.length)
    rw [hlen]
    obtain ⟨q, hq⟩ := h.whole
    rw [hq, ← Nat.mul_succ]
    rcases Nat.le_total q k.succ with hle | hle
    · rw [Nat.max_eq_right (Nat.mul_le_mul_left _ hle)]
      exact Nat.dvd_mul_right _ _
    · rw [Nat.max_eq_left (Nat.mul_le_mul_left _ hle)]
      exact Nat.dvd_mul_right _ _
  · exact hd

/-- `dirlink` of a name that is there. -/
theorem dirlink_there (h : IsDir sb s V dp d) (inum : Nat) (hname : (node sb V d).lookup name ≠ none)
    (hfull : (∀ e, (s.inode e).ref ≠ 0) → E .igetNoInodes)
    (hq : ∀ t, IsDir sb t V dp d → (∀ e, (t.inode e).ref = (s.inode e).ref) → Q (-1) t) :
    wp (dirlink sb dp name inum) Q E s := by
  refine wp_then (dirlookup_dir h (fun hno => absurd hno hname) fun k _ => iget_got hfull fun e x hg => ?_)
  refine wp_then (iput_got hg (hq _ (isDir_ungot h hg) fun e' => ?_))
  by_cases he : e' = e
  · rw [he, setEntry_same]
  · rw [setEntry_ne _ _ he]

/-- A free entry is below the size, where no block is missing; else the entry is the next one. -/
theorem hasPlace_iff (h : IsDir sb s V dp d) : HasPlace sb V d ↔ EntryFits sb V d (node sb V d).gap := by
  have hsize : (node sb V d).size = (V.ino d).size := by rw [node_live (loaded_live h.rep h.loaded)]
  have hle := gap_le (node sb V d)
  unfold HasPlace EntryFits
  by_cases hlt : (node sb V d).gap < (node sb V d).size / DESIZE
  · have hin : DESIZE * (node sb V d).gap + DESIZE ≤ (node sb V d).size := by
      simp only [DESIZE, DIRSIZ] at *
      omega
    refine iff_of_true (.inl hlt) ⟨Nat.le_trans hin (hsize ▸ holeFree_size h.holes), ?_⟩
    rw [need_zero h.holes (by rw [← hsize]; exact hin)]
    exact Nat.zero_le _
  · have hend : DESIZE * (node sb V d).gap = (node sb V d).size := by
      have := h.whole
      simp only [DESIZE, DIRSIZ] at *
      omega
    rw [hend]
    exact ⟨fun h => h.resolve_left hlt, .inr⟩

/-- `dirlink` of a name that is not. -/
theorem dirlink_absent (hl : sb.Layout) (h : IsDir sb s V dp d) {inum : Nat}
    (hname : (node sb V d).lookup name = none) (hin : 0 < inum ∧ inum < 65536)
    (hE : ∀ e, ¬ Roomy s → E (.log e))
    (hno : ¬ HasPlace sb V d → ∀ t V', IsDir sb t V' dp d → node sb V' = node sb V → Q (-1) t)
    (hyes : HasPlace sb V d → ∀ t V', IsDir sb t V' dp d → (∀ j, j ≠ d → node sb V' j = node sb V j) →
      (∀ m, (node sb V' d).lookup m = if key m = key name then some
        (inum, DESIZE * (node sb V d).gap) else (node sb V d).lookup m) → Q 0 t) :
    wp (dirlink sb dp name inum) Q E s := by
  have hlen := mkDirent_length inum name
  refine wp_then (dirlookup_dir h (fun _ => ?_) fun k hk => by rw [hname] at hk; cases hk)
  rw [wp_bind, wp_getInode, wp_bind, loaded_size h.rep h.loaded]
  refine freeEntry_spec h.toReadable (fun hno => absurd h.whole hno) ?_ _ 0 ?_ fun j hj => absurd hj (Nat.not_lt_zero j)
  · have hle := gap_le (node sb V d)
    refine wp_then (writeDirent_dir hl h hlen hle hE (fun hn r t V' hr hread hsame => ?_) fun hy t V' hread hput => ?_)
    · rw [if_pos hr]
      refine hno (fun hp => hn ((hasPlace_iff h).mp hp)) t V' { hread with type := ?_, whole := ?_, distinct := ?_ }
        hsame <;> rw [hsame]
      · exact h.type
      · exact h.whole
      · exact h.distinct
    · refine hyes ((hasPlace_iff h).mpr hy) t V'
        (isDir_put h hlen hread hput (distinct_link inum h.distinct hle hname)) (fun j hj => ?_)
        fun m => ?_
      · rw [hput, upd_ne _ _ hj]
      · rw [hput, upd_same]
        exact lookup_link hin h.distinct hle (gap_free _) hname m
  · simp only [DESIZE, DIRSIZ]
    omega

theorem unlink_dir (hl : sb.Layout) (h : IsDir sb s V dp d) (hk : (node sb V d).Names name k)
    (hE : ∀ e, ¬ Roomy s → E (.log e))
    (hq : ∀ t V', IsDir sb t V' dp d → (∀ j, j ≠ d → node sb V' j = node sb V j) →
      (∀ m, (node sb V' d).lookup m = if key m = key name then none else (node sb V d).lookup m) → Q DESIZE t) :
    wp (writei sb dp (kernelSrc noDirent) (DESIZE * k) DESIZE) Q E s := by
  have hlen : noDirent.length = DESIZE := List.length_replicate
  have hin := ent_ne hk.1
  have hle : DESIZE * k ≤ (node sb V d).size := Nat.le_trans (Nat.le_add_right _ _) hin
  have hsize : (node sb V d).size = (V.ino d).size := by rw [node_live (loaded_live h.rep h.loaded)]
  have hfits : EntryFits sb V d k := by
    rw [hsize] at hin
    refine ⟨Nat.le_trans hin (holeFree_size h.holes), ?_⟩
    rw [need_zero h.holes hin]
    exact Nat.zero_le _
  refine writeDirent_dir hl h hlen hle hE (fun hn => absurd hfits hn) fun _ t V' hread hput => ?_
  refine hq t V' (isDir_put h hlen hread hput (distinct_unlink h.distinct hle)) (fun j hj => ?_) fun m => ?_
  · rw [hput, upd_ne _ _ hj]
  · rw [hput, upd_same]
    exact lookup_unlink h.distinct hk m

end

/-- A program stops for want of room in the log. -/
def LogFull {α : Type} (m : M α) (s : St) : Prop := ¬ Roomy s ∧ ∃ e, m s = .error (.log e)

/-- `iget` finds no entry for an inode. -/
def TableFull {α : Type} (m : M α) (s : St) : Prop := (∀ e, (s.inode e).ref ≠ 0) ∧ m s = .error .igetNoInodes

theorem wp_logFull {α : Type} {m : M α} {s : St} {Q : α → St → Prop}
    (h : wp m Q (fun x => ¬ Roomy s ∧ ∃ e, x = .log e) s) :
    (∃ a t, m s = .ok (a, t) ∧ Q a t) ∨ LogFull m s := by
  refine (wp_cases h).imp_right ?_
  rintro ⟨_, hm, hr, e, rfl⟩
  exact ⟨hr, e, hm⟩

theorem wp_tableFull {α : Type} {m : M α} {s : St} {Q : α → St → Prop}
    (h : wp m Q (fun x => (∀ e, (s.inode e).ref ≠ 0) ∧ x = .igetNoInodes) s) :
    (∃ a t, m s = .ok (a, t) ∧ Q a t) ∨ TableFull m s := by
  refine (wp_cases h).imp_right ?_
  rintro ⟨_, hm, hf, rfl⟩
  exact ⟨hf, hm⟩

/-- The three operations on a directory, as a finite map. -/
theorem directory_map (sb : Superblock) (hl : sb.Layout) (s : St) (V : Vol) (dp : Idx) (d : Nat)
    (h : IsDir sb s V dp d) :
    (∀ name, ((node sb V d).lookup name = none → dirlookup sb dp name s = .ok (none, s)) ∧
      ∀ inum off, (node sb V d).lookup name = some (inum, off) →
        (∃ ip x, dirlookup sb dp name s = .ok (some (ip, off), setEntry s ip x) ∧ x.inum = inum ∧ x.dev = ROOTDEV ∧
          x.ref = (s.inode ip).ref + 1) ∨ TableFull (dirlookup sb dp name) s) ∧
    (∀ name inum, 0 < inum → inum < 65536 →
      ((node sb V d).lookup name ≠ none →
        (∃ t, dirlink sb dp name inum s = .ok (-1, t) ∧ IsDir sb t V dp d ∧ ∀ e, (t.inode e).ref = (s.inode e).ref) ∨
          TableFull (dirlink sb dp name inum) s) ∧
      ((node sb V d).lookup name = none → ¬ HasPlace sb V d →
        (∃ t V', dirlink sb dp name inum s = .ok (-1, t) ∧ IsDir sb t V' dp d ∧ node sb V' = node sb V) ∨
          LogFull (dirlink sb dp name inum) s) ∧
      ((node sb V d).lookup name = none → HasPlace sb V d →
        (∃ t V', dirlink sb dp name inum s = .ok (0, t) ∧ IsDir sb t V' dp d ∧
          (∀ j, j ≠ d → node sb V' j = node sb V j) ∧
          ∀ m, (node sb V' d).lookup m =
            if key m = key name then some (inum, DESIZE * (node sb V d).gap) else (node sb V d).lookup m) ∨
          LogFull (dirlink sb dp name inum) s)) ∧
    ∀ name inum off, (node sb V d).lookup name = some (inum, off) →
      (∃ t V', writei sb dp (kernelSrc (List.replicate DESIZE 0)) off DESIZE s = .ok (DESIZE, t) ∧ IsDir sb t V' dp d ∧
        (∀ j, j ≠ d → node sb V' j = node sb V j) ∧
        ∀ m, (node sb V' d).lookup m = if key m = key name then none else (node sb V d).lookup m) ∨
      LogFull (writei sb dp (kernelSrc (List.replicate DESIZE 0)) off DESIZE) s := by
  refine ⟨fun name => ⟨fun hno => ?_, fun inum off hs => ?_⟩, fun name inum h1 h2 =>
    ⟨fun hs => ?_, fun hno hp => ?_, fun hno hp => ?_⟩,
    fun name inum off hs => ?_⟩
  · refine wp_run (dirlookup_dir h (fun _ => ⟨rfl, rfl⟩) fun k hk => ?_)
    rw [hno] at hk
    cases hk
  · have hwp : wp (dirlookup sb dp name) (fun r t => ∃ ip x, r = some (ip, off) ∧ t = setEntry s ip x ∧ x.inum = inum ∧
        x.dev = ROOTDEV ∧ x.ref = (s.inode ip).ref + 1) (fun x => (∀ e, (s.inode e).ref ≠ 0) ∧
          x = .igetNoInodes) s := by
      refine dirlookup_dir h (fun hno => ?_) fun k hk => iget_got (fun hf => ⟨hf, rfl⟩) fun ip x hg => ?_
      · rw [hno] at hs
        cases hs
      · obtain ⟨rfl, rfl⟩ := Prod.mk.inj (Option.some.inj (hs.symm.trans hk))
        obtain ⟨g1, g2, g3, _⟩ := got_ref hg
        exact ⟨ip, x, rfl, rfl, g2, g3, g1⟩
    refine (wp_tableFull hwp).imp_left ?_
    rintro ⟨_, _, hm, ip, x, rfl, rfl, hx⟩
    exact ⟨ip, x, hm, hx⟩
  · have hwp : wp (dirlink sb dp name inum) (fun r t => r = -1 ∧ IsDir sb t V dp d ∧ ∀ e,
      (t.inode e).ref = (s.inode e).ref)
        (fun x => (∀ e, (s.inode e).ref ≠ 0) ∧ x = .igetNoInodes) s :=
      dirlink_there h inum hs (fun hf => ⟨hf, rfl⟩) fun t h1 h2 => ⟨rfl, h1, h2⟩
    refine (wp_tableFull hwp).imp_left ?_
    rintro ⟨_, t, hm, rfl, ht⟩
    exact ⟨t, hm, ht⟩
  · have hwp : wp (dirlink sb dp name inum) (fun r t => r = -1 ∧ ∃ V', IsDir sb t V' dp d ∧ node sb V' = node sb V)
        (fun x => ¬ Roomy s ∧ ∃ e, x = .log e) s :=
      dirlink_absent hl h hno ⟨h1, h2⟩ (fun e hr => ⟨hr, e, rfl⟩) (fun _ t V' h1 h2 => ⟨rfl, V', h1, h2⟩)
      fun hy => absurd hy hp
    refine (wp_logFull hwp).imp_left ?_
    rintro ⟨_, t, hm, rfl, V', ht⟩
    exact ⟨t, V', hm, ht⟩
  · have hwp : wp (dirlink sb dp name inum) (fun r t => r = 0 ∧ ∃ V', IsDir sb t V' dp d ∧
      (∀ j, j ≠ d → node sb V' j = node sb V j) ∧
          ∀ m, (node sb V' d).lookup m =
            if key m = key name then some (inum, DESIZE * (node sb V d).gap) else (node sb V d).lookup m)
        (fun x => ¬ Roomy s ∧ ∃ e, x = .log e) s :=
      dirlink_absent hl h hno ⟨h1, h2⟩ (fun e hr => ⟨hr, e, rfl⟩) (fun hn => absurd hp hn) fun _ t V' h1 h2 h3 =>
        ⟨rfl, V', h1, h2, h3⟩
    refine (wp_logFull hwp).imp_left ?_
    rintro ⟨_, t, hm, rfl, V', ht⟩
    exact ⟨t, V', hm, ht⟩
  · obtain ⟨k, hk, hp⟩ := (lookup_eq_some h.distinct).mp hs
    obtain ⟨rfl, rfl⟩ := Prod.mk.inj hp
    have hwp : wp (writei sb dp (kernelSrc noDirent) (DESIZE * k) DESIZE)
        (fun r t => r = DESIZE ∧ ∃ V', IsDir sb t V' dp d ∧ (∀ j, j ≠ d → node sb V' j = node sb V j) ∧
          ∀ m, (node sb V' d).lookup m = if key m = key name then none else (node sb V d).lookup m)
        (fun x => ¬ Roomy s ∧ ∃ e, x = .log e) s :=
      unlink_dir hl h hk (fun e hr => ⟨hr, e, rfl⟩) fun t V' h1 h2 h3 => ⟨rfl, V', h1, h2, h3⟩
    refine (wp_logFull hwp).imp_left ?_
    rintro ⟨_, t, hm, rfl, V', ht⟩
    exact ⟨t, V', hm, ht⟩

/-! ## A root with one file -/

namespace Tiny

/-- The root locked and read in, in a new transaction. -/
def rootOpen : St :=
  setEntry { mount (disk entries 6 Bytes.zero) with log := ⟨1, false, []⟩ } .zero
    { small T_DIR 48 5 with dev := ROOTDEV, inum := ROOTINO, ref := 1, lock := true, valid := true }

theorem live_root : Live sb (vol entries 6 Bytes.zero) 1 := ⟨by decide, by rw [ino_root (by decide)]; decide⟩

theorem rootOpen_rep : Rep sb rootOpen (vol entries 6 Bytes.zero) none := by
  have hm : Rep sb { mount (disk entries 6 Bytes.zero) with log := ⟨1, false, []⟩ } (vol entries 6 Bytes.zero) none :=
    rep_same (rep_mount (by decide) (disk entries 6 Bytes.zero)) rfl rfl
  have hused : ∀ e, 0 < ((mount (disk entries 6 Bytes.zero)).inode e).ref → e = .zero := fun e => mount_used
  have hino : (vol entries 6 Bytes.zero).ino 1 = small T_DIR 48 5 := ino_root (by decide)
  exact rep_setEntry hm ⟨by decide, rfl⟩ (fun e he hr _ => he (hused e hr)) fun _ => ⟨hino.symm, live_root.2⟩

theorem root_distinct : (node sb (vol entries 6 Bytes.zero) 1).Distinct := by
  have hsize : (node sb (vol entries 6 Bytes.zero) 1).size / DESIZE = 3 := by
    rfl
  have hnames : ∀ k < 3, ∀ l < 3, key ((node sb (vol entries 6 Bytes.zero) 1).name k) =
      key ((node sb (vol entries 6 Bytes.zero) 1).name l) → k = l := by decide +kernel
  intro k l hk hl
  exact hnames k (hsize ▸ ent_lt hk) l (hsize ▸ ent_lt hl)

theorem rootOpen_dir : IsDir sb rootOpen (vol entries 6 Bytes.zero) .zero 1 where
  rep := rootOpen_rep
  sound := (exact_iff.mp (exact (by decide))).1
  loaded := ⟨by decide, by decide, by decide⟩
  holes := holeFree (by decide) (by decide) (by decide) live_root
  type := by
    rfl
  whole := by
    exact ⟨3, rfl⟩
  distinct := root_distinct

end Tiny

/-- Its file is found at offset 32, and its name cannot be bound again. -/
theorem directory_map_tiny :
    (∃ ip x, dirlookup Tiny.sb .zero [103] Tiny.rootOpen = .ok (some (ip, 32), setEntry Tiny.rootOpen ip x) ∧
      x.inum = 2) ∧
      ∃ t, dirlink Tiny.sb .zero [103] 7 Tiny.rootOpen = .ok (-1, t) ∧ IsDir Tiny.sb t
        (Tiny.vol Tiny.entries 6 Bytes.zero) .zero 1 := by
  have hfound : (node Tiny.sb (Tiny.vol Tiny.entries 6 Bytes.zero) 1).lookup [103] = some (2, 32) := by decide +kernel
  have hfree : ¬ ∀ e, (Tiny.rootOpen.inode e).ref ≠ 0 := by decide +kernel
  obtain ⟨hlookup, hlink, _⟩ := directory_map Tiny.sb Tiny.layout Tiny.rootOpen _ .zero 1 Tiny.rootOpen_dir
  constructor
  · obtain ⟨ip, x, hm, hx, _⟩ := ((hlookup [103]).2 2 32 hfound).resolve_right fun hf => hfree hf.1
    exact ⟨ip, x, hm, hx⟩
  · have hthere : (node Tiny.sb (Tiny.vol Tiny.entries 6 Bytes.zero) 1).lookup [103] ≠ none := by
      exact Option.some_ne_none _
    obtain ⟨t, hm, ht, _⟩ := ((hlink [103] 7 (by decide) (by decide)).1 hthere).resolve_right fun hf => hfree hf.1
    exact ⟨t, hm, ht⟩

end Xv6.Fs
