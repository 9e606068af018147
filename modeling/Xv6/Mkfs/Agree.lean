/-
  Xv6.Mkfs.Agree — the kernel reads what `mkfs` wrote (`mkfs/mkfs.c` against
  `kernel/fs.c`: `readsb`, `iget`, `ilock`, `bmap`, `readi`, `dirlookup`).

  The two programs have their own code for the layout of inodes, indirect blocks and
  directory entries. `Rep` connects them: the mounted image represents the volume `mkfs`
  built (`rep_mount`), and the kernel's own lemmas apply from there.
  - `root_blocks`: the root directory has all its blocks exactly if its entries do not fill
    the last one; `root_hole`: otherwise a listing of the root panics.
  - `image_agrees`: the kernel finds every file by its name and reads its bytes; a lookup is
    followed entry by entry up to the one it finds, so a hole behind it does no harm.
  - `dot_finds_root`: why the names must not be those of the dots.
-/

import Xv6.Fs.Lone
import Xv6.Mkfs.Build

namespace Xv6.Mkfs

open Lib Fs Vol

/-! ## Names -/

/-- Two names of at most `n` bytes compare equal only if they are. -/
theorem strncmp_strncpy (n : Nat) : ∀ a b : Name, a.length ≤ n → b.length ≤ n → 0 ∉ a → 0 ∉ b →
    (strncmp n a (strncpy n b) = 0 ↔ a = b) := by
  induction n with
  | zero =>
    intro a b ha hb _ _
    rw [List.length_eq_zero_iff.mp (Nat.le_zero.mp ha), List.length_eq_zero_iff.mp (Nat.le_zero.mp hb)]
    exact iff_of_true rfl rfl
  | succ n ih =>
    intro a b ha hb ha0 hb0
    have hne {x y : UInt8} (h : x ≠ y) : ((x.toNat : Int) - y.toNat) ≠ 0 := fun e => h (UInt8.toNat_inj.mp (by omega))
    cases a with
    | nil =>
      cases b with
      | nil => exact iff_of_true (by simp [strncmp, strncpy]) rfl
      | cons y ys =>
        have hy : y ≠ 0 := fun e => hb0 (e ▸ List.mem_cons_self)
        refine iff_of_false ?_ (by simp)
        simpa [strncmp, strncpy, hy] using hne hy.symm
    | cons x xs =>
      have hx : x ≠ 0 := fun e => ha0 (e ▸ List.mem_cons_self)
      cases b with
      | nil =>
        refine iff_of_false ?_ (by simp)
        simpa [strncmp, strncpy, hx] using hne hx
      | cons y ys =>
        have hy : y ≠ 0 := fun e => hb0 (e ▸ List.mem_cons_self)
        by_cases e : x = y
        · subst e
          have := ih xs ys (Nat.le_of_succ_le_succ ha) (Nat.le_of_succ_le_succ hb) (fun h => ha0 (.tail _ h))
            fun h => hb0 (.tail _ h)
          simpa [strncmp, strncpy, hx] using this
        · refine iff_of_false ?_ (fun h => e (List.cons.inj h).1)
          simpa [strncmp, strncpy, hx, hy, e] using hne e

theorem namecmp_mkDirent {a b : Name} (i : Nat) (ha : a.length ≤ DIRSIZ) (hb : b.length ≤ DIRSIZ)
    (ha0 : 0 ∉ a) (hb0 : 0 ∉ b) :
    namecmp a (deName (mkDirent i b)) = 0 ↔ a = b := strncmp_strncpy DIRSIZ a b ha hb ha0 hb0

theorem shortname_string (f : Arg) : 0 ∉ f.shortname := by
  have hbase : 0 ∉ f.base := by
    unfold Arg.base
    split
    · exact fun h => f.string (List.mem_of_mem_drop h)
    · exact f.string
  unfold Arg.shortname
  split
  · exact fun h => hbase (List.mem_of_mem_tail h)
  · exact hbase

/-! ## The entries of the root directory -/

def names (files : List Arg) : List Name := dot :: dotdot :: files.map Arg.shortname

theorem names_length (files : List Arg) : (names files).length = files.length + 2 := by
  unfold names
  rw [List.length_cons, List.length_cons, List.length_map]

theorem names_append (files : List Arg) (f : Arg) : names (files ++ [f]) = names files ++ [f.shortname] := by
  unfold names
  rw [List.map_append]
  rfl

/-- Entry `j`: both dots name the root, the files have the inodes after it. -/
def entryAt (files : List Arg) (j : Nat) : List UInt8 := mkDirent (max ROOTINO j) ((names files).getD j [])

theorem rootBytes_entry (files : List Arg) {j : Nat} (hj : j < files.length + 2) {x : Nat} (hx : x < DESIZE) :
    (rootBytes files).getD (DESIZE * j + x) 0 = (entryAt files j).getD x 0 := by
  induction files using List.reverseRecOn with
  | nil =>
    have hj' : j = 0 ∨ j = 1 := by
      rw [List.length_nil] at hj
      omega
    have h0 : (mkDirent ROOTINO dot).length = DESIZE := mkDirent_length _ _
    have hroot : rootBytes [] = mkDirent ROOTINO dot ++ mkDirent ROOTINO dotdot := by simp [rootBytes]
    rw [hroot]
    rcases hj' with rfl | rfl
    · rw [Nat.mul_zero, Nat.zero_add, List.getD_append _ _ _ _ (by omega)]
      rfl
    · rw [Nat.mul_one, List.getD_append_right _ _ _ _ (by omega), h0, Nat.add_sub_cancel_left]
      rfl
  | append_singleton files f ih =>
    have hlen := rootBytes_length files
    have hnames := names_length files
    rw [rootBytes_append]
    unfold entryAt
    rw [names_append]
    by_cases hlt : j < files.length + 2
    · have hin : DESIZE * j + x < (rootBytes files).length := by
        simp only [DESIZE, DIRSIZ] at *
        omega
      rw [List.getD_append _ _ _ _ hin, List.getD_append _ _ _ _ (by omega)]
      exact ih hlt
    · have hj' : j = files.length + 2 := by
        rw [List.length_append, List.length_singleton] at hj
        omega
      subst hj'
      rw [List.getD_append_right _ _ _ _ (by rw [hlen]; omega), hlen, Nat.add_sub_cancel_left,
        List.getD_append_right _ _ _ _ (by omega), hnames, Nat.sub_self,
        Nat.max_eq_right (by simp only [ROOTINO]; omega)]
      rfl

section

variable {s : St} {V : Vol} {files : List Arg}

/-- The kernel's dirent at entry `j` of the root. -/
theorem final_entry (h : Final files s V) {j : Nat} (hj : j < files.length + 2) :
    (List.range DESIZE).map (fun x => V.raw ROOTINO (DESIZE * j + x)) = entryAt files j := by
  have hlen : (entryAt files j).length = DESIZE := mkDirent_length _ _
  refine List.ext_getElem (by rw [List.length_map, List.length_range, hlen]) fun x h1 h2 => ?_
  have hx : x < DESIZE := by rwa [List.length_map] at h1
  have hin : DESIZE * j + x < DESIZE * (files.length + 2) := by
    simp only [DESIZE, DIRSIZ] at *
    omega
  rw [List.getElem_map, List.getElem_range, h.rootByte _ hin, rootBytes_entry files hj hx, List.getD_eq_getElem _ _ h2]

/-! ## The mounted image -/

theorem live_wide {i : Nat} (h : Live sb V i) : Live wide V i := ⟨Nat.lt_trans h.1 (by decide), h.2⟩

theorem sound_sb (h : Sound wide V) : Sound sb V where
  range := fun i k b hb => h.range i k b ⟨live_wide hb.live, hb.at_, hb.ne⟩
  once := fun i k j l b hb hb' => h.once i k j l b ⟨live_wide hb.live, hb.at_, hb.ne⟩
    ⟨live_wide hb'.live, hb'.at_, hb'.ne⟩
  marked := fun i k b hb => h.marked i k b ⟨live_wide hb.live, hb.at_, hb.ne⟩
  sys := h.sys

theorem bit_setBits (n : Nat) (hn : n ≤ 8 * BSIZE) (j : Nat) : (setBits n).bit j = decide (j < n) := by
  induction n with
  | zero =>
    rw [setBits, List.range_zero, List.foldl_nil, Bytes.bit_eq, Bytes.get_zero]
    exact BitVec.getLsbD_zero
  | succ n ih =>
    have hstep : setBits (n + 1) = (setBits n).setBit n := by
      unfold setBits
      rw [List.range_succ, List.foldl_append]
      rfl
    rw [hstep, Bytes.bit_setBit _ (by omega), ih (by omega), ← Bool.decide_or]
    exact decide_eq_decide.mpr (by omega)

section

variable (h : Final files s V)

include h

/-- The bitmap has exactly the blocks below `freeblock`. -/
theorem final_bit {b : Nat} (hb : b < BPB) : (s.img (sb.BBLOCK b)).bit (b % BPB) = decide (b < s.freeblock) := by
  have hbb : sb.BBLOCK b = sb.bmapstart := by
    unfold Superblock.BBLOCK
    rw [Nat.div_eq_of_lt hb, Nat.zero_add]
  rw [hbb, Nat.mod_eq_of_lt hb, h.bitmap]
  exact bit_setBits _ (Nat.le_trans h.good.high (by decide)) b

theorem rep_mount : Rep sb (mount s.img) V none := by
  have hroot : ∀ e : Idx, 0 < ((mount s.img).inode e).ref → e.1 = 0 := by
    intro e he
    by_contra h0
    simp [mount, h0, noInode] at he
  have hinv (e : Idx) : ((mount s.img).inode e).valid = false := by
    by_cases h0 : e.1 = 0 <;> simp [mount, h0, noInode]
  refine ⟨fun e _ hv => ?_, fun i hi _ => ?_, fun b hb => ?_, h.good.blk, fun e e' he he' _ => ?_,
    fun e he => ?_, fun e _ _ hv => ?_,
    fun i _ => h.good.fits i⟩
  · rw [hinv] at hv
    cases hv
  · exact h.good.ino i (Nat.lt_trans hi (by decide)) (Option.some_ne_none i).symm
  · rw [h.good.used]
    exact final_bit h (Nat.lt_trans hb (by decide))
  · exact Fin.ext ((hroot e he).trans (hroot e' he').symm)
  · simp only [mount, if_pos (hroot e he)]
    decide
  · rw [hinv] at hv
    cases hv

theorem root_live : Live sb V ROOTINO := ⟨by decide, by rw [h.rootType]; decide⟩

theorem file_live (hn : files.length + 2 ≤ NINODES) {k : Nat} {f : Arg} (hk : files[k]? = some f) :
    Live sb V (k + 2) := by
  obtain ⟨hlt, -⟩ := List.getElem?_eq_some_iff.mp hk
  refine ⟨?_, by rw [(h.file k f hk).1]; decide⟩
  show k + 2 < NINODES
  omega

end

/-! ## Reading the root -/

/-- The root directory, locked. -/
def openRoot (sb : Superblock) : Fs.M Idx := do
  let dp ← iget ROOTDEV ROOTINO
  ilock sb dp
  return dp

/-- The root is open in entry `dp` and nothing else is in the table. -/
structure Opened (t : Fs.St) (V : Vol) (dp : Idx) : Prop where
  rep : Rep sb t V none
  root : Loaded t dp ROOTINO
  lock : (t.inode dp).lock = true
  others : ∀ e, e ≠ dp → (t.inode e).ref = 0 ∧ (t.inode e).lock = false
  log : t.log = ⟨0, false, []⟩

theorem openRoot_opened (h : Final files s V) : ∃ t, openRoot sb (mount s.img) = .ok (.zero, t) ∧ Opened t V .zero := by
  have hrep := rep_mount h
  have hzero := mount_zero s.img
  have hothers (e : Idx) (he : e ≠ .zero) := mount_rest s.img he
  have hlog : (mount s.img).log = ⟨0, false, []⟩ := rfl
  generalize mount s.img = t at hrep hzero hothers hlog ⊢
  have hw : wp (openRoot sb) (fun dp u => dp = .zero ∧ Opened u V .zero) (fun _ => False) t := by
    refine wp_then (iget_found hrep (by rw [hzero]; decide) (by rw [hzero]) ?_)
    refine wp_then (ilock_live (rep_more hrep (by rw [hzero]; decide)) ?_ ?_ ?_ (root_live h)
        fun x _ hlock _ hrep' hload =>
      ⟨rfl, hrep', hload, ?_, fun e he => ?_, ?_⟩)
    · rw [setEntry_same, hzero]
      decide
    · rw [hzero]
      rfl
    · rw [setEntry_same, hzero]
    · exact hlock
    · rw [setEntry_ne _ _ he, setEntry_ne _ _ he, hothers e he]
      exact ⟨rfl, rfl⟩
    · rw [setEntry_log, setEntry_log, hlog]
  obtain ⟨_, u, hu, rfl, ho⟩ := wp_total hw
  exact ⟨u, hu, ho⟩

variable {t : Fs.St}

/-- `readi` of a range whose blocks are all there. -/
theorem readi_part {ip : Idx} {i off n : Nat} (h : Rep sb t V none) (hp : Loaded t ip i) (hi : Live sb V i)
    (hs : Sound sb V) (hsize : off + n ≤ (V.ino i).size)
    (hthere : ∀ x, off ≤ x → x < off + n → x / BSIZE < MAXFILE ∧ V.addr i (x / BSIZE) ≠ 0) :
    readi sb ip kernelDst off n t = .ok ((n, (List.range n).map fun x => V.raw i (off + x)), t) := by
  have hfits := (h.fits i hi.1).size
  have hread : (t.inode ip).size = (V.ino i).size := congrArg Dinode.size (loaded_ino h hp)
  have hwrap : ¬ add32 off n < off := by
    unfold add32
    omega
  have hreach : reach kernelDst 0 n = n := reach_all n 0 fun _ _ _ => rfl
  apply wp_run
  unfold readi
  rw [wp_bind, wp_getInode, hread, if_neg (by omega)]
  show wp (readiFrom sb ip kernelDst (if off + n > (V.ino i).size then (V.ino i).size - off else n) _ 0 off []) _ _ t
  rw [if_neg (by omega)]
  have hall := readiFrom_eq h hp hi hs kernelDst n n 0 off [] (Nat.zero_le n) (Nat.le_refl n) (by rwa [Nat.sub_zero])
  rw [Nat.sub_zero] at hall
  refine wp_of_run hall ⟨?_, rfl⟩
  unfold readResult
  rw [hreach, if_pos rfl]
  exact Prod.ext (Int.zero_add _) rfl

/-! ## Holes in the root -/

theorem root_size (h : Final files s V) :
    (V.ino ROOTINO).size = (DESIZE * (files.length + 2) / BSIZE + 1) * BSIZE := h.rootSize

/-- The root has a block for each index below its size exactly if its entries do not fill
    their last block. -/
theorem root_full_iff (h : Final files s V) (hn : files.length + 2 ≤ NINODES) :
    (∀ bn < (V.ino ROOTINO).size / BSIZE, V.addr ROOTINO bn ≠ 0) ↔ (files.length + 2) % 64 ≠ 0 := by
  have hn' : files.length + 2 ≤ 200 := hn
  have hsize : (V.ino ROOTINO).size / BSIZE = (files.length + 2) / 64 + 1 := by
    rw [root_size h]
    simp only [DESIZE, DIRSIZ, BSIZE]
    omega
  have haddr (bn : Nat) (hbn : bn < 268) : V.addr ROOTINO bn ≠ 0 ↔ bn * 1024 < 16 * (files.length + 2) :=
    h.rootAddr bn hbn
  rw [hsize]
  constructor
  · intro hall h0
    have := (haddr ((files.length + 2) / 64) (by omega)).mp (hall _ (Nat.lt_succ_self _))
    omega
  · intro h0 bn hbn
    exact (haddr bn (by omega)).mpr (by omega)

theorem root_holeFree (h : Final files s V) (hn : files.length + 2 ≤ NINODES)
    (h0 : (files.length + 2) % 64 ≠ 0) : HoleFree V ROOTINO := by
  have hn' : files.length + 2 ≤ 200 := hn
  have hsize : (V.ino ROOTINO).size = (16 * (files.length + 2) / 1024 + 1) * 1024 := root_size h
  intro bn hbn
  have hbn' : bn * 1024 < (V.ino ROOTINO).size := hbn
  have hdiv : bn < (V.ino ROOTINO).size / BSIZE := by
    show bn < (V.ino ROOTINO).size / 1024
    omega
  refine ⟨?_, (root_full_iff h hn).mpr h0 bn hdiv⟩
  show bn < 268
  omega

theorem logWrite_outside (hlog : t.log = ⟨0, false, []⟩) (b : Nat) {Q : Unit → Fs.St → Prop} :
    wp (logWrite b) Q (fun e => e = Panic.log .outsideTrans) t := by
  unfold logWrite
  rw [wp_bind, wp_get, hlog]
  exact rfl

/-- Outside a transaction `balloc` panics as soon as it finds a free block. -/
theorem balloc_outside (hlog : t.log = ⟨0, false, []⟩) {b : Nat} (hb : b < sb.size)
    (hclear : (t.data (sb.BBLOCK b)).bit (b % BPB) = false) {Q : Nat → Fs.St → Prop} :
    wp (Fs.balloc sb) Q (fun e => e = Panic.log .outsideTrans) t := by
  have hlt : b < BPB := Nat.lt_trans hb (by decide)
  have hbb : sb.BBLOCK b = sb.BBLOCK 0 := by
    unfold Superblock.BBLOCK
    rw [Nat.div_eq_of_lt hlt, Nat.zero_div]
  rw [hbb, Nat.mod_eq_of_lt hlt] at hclear
  show wp (ballocFrom sb 1 0) Q _ t
  unfold ballocFrom
  rw [if_pos (by decide), wp_bind, wp_bread]
  cases hbit : freeBit sb (t.data (sb.BBLOCK 0)) 0 BPB 0 with
  | none =>
    have hset := freeBit_none hbit b (Nat.zero_le _) (by omega) hlt (by omega)
    rw [hclear] at hset
    cases hset
  | some bi =>
    rw [wp_bind, bput, wp_modify, wp_bind]
    exact logWrite_outside (by exact hlog) _

/-- Where there is a hole, a read of it outside a transaction panics. -/
theorem hole_panics (h : Final files s V) (hn : files.length + 2 ≤ NINODES) (h0 : (files.length + 2) % 64 = 0)
    (hfree : s.freeblock < FSSIZE) {dp : Idx} (ho : Opened t V dp) :
    readi sb dp kernelDst (DESIZE * (files.length + 2)) DESIZE t = .error (.log .outsideTrans) := by
  have hn' : files.length + 2 ≤ 200 := hn
  have hino := loaded_ino ho.rep ho.root
  have hsize : (t.inode dp).size = (16 * (files.length + 2) / 1024 + 1) * 1024 :=
    (congrArg Dinode.size hino).trans (root_size h)
  have hlow : (files.length + 2) / 64 < NDIRECT := by
    simp only [NDIRECT]
    omega
  have hhole : (t.inode dp).addr ((files.length + 2) / 64) = 0 := by
    have hno : ¬ V.addr ROOTINO ((files.length + 2) / 64) ≠ 0 := by
      rw [h.rootAddr _ (Nat.lt_trans hlow (by decide))]
      simp only [DESIZE, DIRSIZ, BSIZE]
      omega
    have hslot : V.addr ROOTINO ((files.length + 2) / 64) = (V.ino ROOTINO).addr ((files.length + 2) / 64) := by
      unfold Vol.addr slotOf
      rw [if_pos hlow, slot_low _ _ (by omega)]
    calc (t.inode dp).addr ((files.length + 2) / 64)
      _ = (V.ino ROOTINO).addr ((files.length + 2) / 64) := congrArg (fun d : Dinode => d.addr _) hino
      _ = 0 := hslot.symm.trans (not_not.mp hno)
  have hclear : (t.data (sb.BBLOCK s.freeblock)).bit (s.freeblock % BPB) = false := by
    rw [ho.rep.used s.freeblock hfree, h.good.used]
    exact decide_eq_false (Nat.lt_irrefl _)
  have hw : wp (readi sb dp kernelDst (DESIZE * (files.length + 2)) DESIZE) (fun _ _ => False)
      (fun e => e = .log .outsideTrans) t := by
    have hbn : DESIZE * (files.length + 2) / BSIZE = (files.length + 2) / 64 := by
      simp only [DESIZE, DIRSIZ, BSIZE]
      omega
    have hin : ¬ (DESIZE * (files.length + 2) > (t.inode dp).size ∨
        add32 (DESIZE * (files.length + 2)) DESIZE < DESIZE * (files.length + 2)) := by
      simp only [DESIZE, DIRSIZ, add32]
      omega
    have hwhole : ¬ DESIZE * (files.length + 2) + DESIZE > (t.inode dp).size := by
      simp only [DESIZE, DIRSIZ]
      omega
    unfold readi
    rw [wp_bind, wp_getInode, if_neg hin]
    show wp (readiFrom sb dp kernelDst
      (if DESIZE * (files.length + 2) + DESIZE > (t.inode dp).size then _ else DESIZE) _ 0 _ []) _ _ t
    rw [if_neg hwhole]
    show wp (readiFrom sb dp kernelDst DESIZE (15 + 1) 0 _ []) _ _ t
    unfold readiFrom
    rw [if_pos (by decide), wp_bind, hbn]
    unfold bmap bmapAddr
    rw [if_pos hlow, wp_bind, wp_getInode, if_pos hhole, wp_bind]
    exact balloc_outside ho.log hfree hclear
  cases hr : readi sb dp kernelDst (DESIZE * (files.length + 2)) DESIZE t with
  | ok r => exact (wp_ok hw hr).elim
  | error e => rw [wp_error hw hr]

end

/-- In an image without an error the root directory has all its blocks exactly if its entries
    do not fill the last one, and then no read of it changes anything. -/
theorem root_blocks (files : List Arg) (s : St) (h : image files = .ok s) (hn : files.length + 2 ≤ NINODES) :
    ((∀ bn < ((vol s).ino ROOTINO).size / BSIZE, (vol s).addr ROOTINO bn ≠ 0) ↔ (files.length + 2) % 64 ≠ 0) ∧
    ((files.length + 2) % 64 ≠ 0 → ∃ dp t, openRoot sb (mount s.img) = .ok (dp, t) ∧
      ∀ dst off n, ∃ r, readi sb dp dst off n t = .ok (r, t)) := by
  obtain ⟨V, hV⟩ := image_final (Nat.le_trans hn (by decide)) h
  have hlive := root_live hV
  have haddr (bn : Nat) : (vol s).addr ROOTINO bn = V.addr ROOTINO bn := good_slot hV.good (live_wide hlive) _
  refine ⟨?_, fun h0 => ?_⟩
  · rw [good_ino hV.good (live_wide hlive).1]
    simp only [haddr]
    exact root_full_iff hV hn
  · obtain ⟨t, ht, ho⟩ := openRoot_opened hV
    exact ⟨_, t, ht, fun dst off n =>
      ⟨_, readi_eq ho.rep ho.root hlive (sound_sb hV.good.sound) (root_holeFree hV hn h0) dst off n⟩⟩

theorem smalls_length (n : Nat) : (smalls n).length = n := by
  unfold smalls
  rw [List.length_map, List.length_range]

/-- With one file there are three entries. -/
theorem root_blocks_one :
    ∃ s, image (smalls 1) = .ok s ∧ ∀ bn < ((vol s).ino ROOTINO).size / BSIZE, (vol s).addr ROOTINO bn ≠ 0 := by
  obtain ⟨s, V, h, -⟩ := image_ok (by rw [smalls_length]; decide) (smalls_ok (n := 1) (by decide))
  exact ⟨s, h, (root_blocks _ s h (by rw [smalls_length]; decide)).1.mpr (by rw [smalls_length]; decide)⟩

/-- With 62 files the 64 entries fill one block, the size says two, and a listing of the
    root panics when it comes to the second. -/
theorem root_hole :
    ∃ s, image (smalls 62) = .ok s ∧ ((vol s).ino ROOTINO).size / BSIZE = 2 ∧ (vol s).addr ROOTINO 1 = 0 ∧
    ∃ dp t, openRoot sb (mount s.img) = .ok (dp, t) ∧ readi sb dp kernelDst BSIZE DESIZE t = .error
      (.log .outsideTrans) := by
  have hlen := smalls_length 62
  obtain ⟨s, V, h, hV⟩ := image_ok (by rw [hlen]; decide) (smalls_ok (n := 62) (by decide))
  have hlive := root_live hV
  have hfree : s.freeblock < FSSIZE := by
    have hdata : (smalls 62).map Arg.data = List.replicate 62 [] := by decide +kernel
    rw [hV.free]
    unfold total
    rw [rootBytes_length]
    decide
  have hsize : (V.ino ROOTINO).size / BSIZE = 2 := by
    rw [root_size hV]
    decide
  have hno : ¬ V.addr ROOTINO 1 ≠ 0 := by
    rw [hV.rootAddr 1 (by decide)]
    decide
  obtain ⟨t, ht, ho⟩ := openRoot_opened hV
  have hpanic := hole_panics hV (by rw [hlen]; decide) (by rw [hlen]) hfree ho
  refine ⟨s, h, ?_, ?_, _, t, ht, hpanic⟩
  · rw [good_ino hV.good (live_wide hlive).1]
    exact hsize
  · exact (good_slot hV.good (live_wide hlive) _).trans (not_not.mp hno)

/-! ## Reading the files -/

/-- `readsb`: the superblock's fields that the kernel uses, from block 1. -/
def readsb (disk : Nat → Block) : Superblock where
  size := (disk 1).getLE 4 4
  nblocks := (disk 1).getLE 8 4
  ninodes := (disk 1).getLE 12 4
  inodestart := (disk 1).getLE 24 4
  bmapstart := (disk 1).getLE 28 4

/-- `fsinit`'s check of it. -/
def magic (disk : Nat → Block) : Nat := (disk 1).getLE 0 4

/-- `n` bytes of the file from `off` on, as far as there are any. -/
def Arg.slice (f : Arg) (off n : Nat) : List UInt8 := (f.data.drop off).take n

/-- The inode a name in the root stands for, and `n` bytes of it from `off` on. -/
def lookupRead (sb : Superblock) (name : Name) (off n : Nat) : Fs.M (Option (Nat × Int × List UInt8)) := do
  let dp ← openRoot sb
  match ← dirlookup sb dp name with
  | none => return none
  | some (ip, _) =>
    iunlock dp
    ilock sb ip
    let (r, bytes) ← readi sb ip kernelDst off n
    return some ((← getInode ip).inum, r, bytes)

section

variable {s : St} {V : Vol} {files : List Arg}

theorem readsb_final (h : Final files s V) : readsb s.img = sb ∧ magic s.img = FSMAGIC := by
  have h1 : s.img 1 = sbBlock := (h.good.head 1 (by decide)).trans (if_pos rfl)
  unfold readsb magic
  rw [h1]
  decide +kernel

variable {t : Fs.St} {dp : Idx} {E : Panic → Prop} {k off : Nat} {f : Arg}

section

variable (h : Final files s V)

include h

/-- Entry `j` as `dirlookup` reads it; its block is there, whatever the size says. -/
theorem readi_entry (hn : files.length + 2 ≤ NINODES) (hr : Rep sb t V none) (hp : Loaded t dp ROOTINO) {j : Nat}
    (hj : j < files.length + 2) : readi sb dp kernelDst (DESIZE * j) DESIZE t = .ok ((DESIZE, entryAt files j), t) := by
  have hn' : files.length + 2 ≤ 200 := hn
  have hsize : (V.ino ROOTINO).size = (16 * (files.length + 2) / 1024 + 1) * 1024 := root_size h
  rw [← final_entry h hj]
  refine readi_part hr hp (root_live h) (sound_sb h.good.sound) ?_ fun x h1 h2 => ?_
  · simp only [DESIZE, DIRSIZ]
    omega
  · simp only [DESIZE, DIRSIZ] at h1 h2
    have hbn : x / BSIZE < MAXFILE := by
      show x / 1024 < 268
      omega
    refine ⟨hbn, (h.rootAddr _ hbn).mpr ?_⟩
    simp only [DESIZE, DIRSIZ, BSIZE]
    omega

variable {Q : Option (Idx × Nat) → Fs.St → Prop}

/-- `dirlookup` in the root goes on to the first entry with the name. -/
theorem dirlookupFrom_first (hn : files.length + 2 ≤ NINODES)
    (hgood : ∀ a ∈ names files, a.length ≤ DIRSIZ ∧ 0 ∉ a) (ho : Opened t V dp) {name : Name}
    (hname : name ∈ names files)
   
    (hq : wp (iget ROOTDEV (max ROOTINO ((names files).idxOf name)))
      (fun ip u => Q (some (ip, DESIZE * (names files).idxOf name)) u) E t)
    (fuel : Nat) :
    ∀ m, m ≤ (names files).idxOf name → (names files).idxOf name < m + fuel →
        wp (dirlookupFrom sb dp name fuel (DESIZE * m)) Q E t := by
  have hidx : (names files).idxOf name < files.length + 2 := by
    rw [← names_length]
    exact List.idxOf_lt_length_of_mem hname
  have hsize : (t.inode dp).size = (16 * (files.length + 2) / 1024 + 1) * 1024 :=
    (congrArg Dinode.size (loaded_ino ho.rep ho.root)).trans (root_size h)
  have hn' : files.length + 2 ≤ 200 := hn
  -- by induction on the fuel, from entry `m` on
  induction fuel with
  | zero =>
    intro m h1 h2
    omega
  | succ fuel ih =>
    intro m h1 h2
    have hm : m < (names files).length := by
      rw [names_length]
      omega
    have hmem : (names files).getD m [] ∈ names files := by
      rw [List.getD_eq_getElem _ _ hm]
      exact List.getElem_mem hm
    have hcmp : namecmp name (deName (entryAt files m)) = 0 ↔ name = (names files).getD m [] :=
      namecmp_mkDirent _ (hgood name hname).1 (hgood _ hmem).1 (hgood name hname).2 (hgood _ hmem).2
    have hinum : deInum (entryAt files m) = max ROOTINO m := by
      unfold entryAt
      rw [deInum_mkDirent]
      simp only [ROOTINO]
      omega
    have hin : DESIZE * m < (t.inode dp).size := by
      simp only [DESIZE, DIRSIZ]
      omega
    have h0 : deInum (entryAt files m) ≠ 0 := by
      rw [hinum]
      simp only [ROOTINO]
      omega
    have hdev : (t.inode dp).dev = ROOTDEV := (ho.rep.range dp ho.root.ref).2
    unfold dirlookupFrom
    rw [wp_bind, wp_getInode, if_pos hin, wp_bind]
    refine wp_of_run (readi_entry h hn ho.rep ho.root (by omega)) ?_
    rw [wp_ite, if_neg h0]
    by_cases hmi : m = (names files).idxOf name
    · have hthis : name = (names files).getD m [] := by
        rw [List.getD_eq_getElem _ _ hm]
        simp only [hmi, List.getElem_idxOf]
      rw [if_pos (hcmp.mpr hthis), wp_bind, hdev, hinum, hmi]
      exact hq
    · have hother : name ≠ (names files).getD m [] := by
        rw [List.getD_eq_getElem _ _ hm]
        have hlt : m < (names files).findIdx (· == name) := Nat.lt_of_le_of_ne h1 hmi
        have hfalse := List.not_of_lt_findIdx hlt
        exact fun e => absurd e.symm (beq_eq_false_iff_ne.mp hfalse)
      rw [if_neg fun e => hother (hcmp.mp e)]
      exact ih (m + 1) (by omega) (by omega)

/-- The whole of it: the name's inode is found, whatever the root's size says. -/
theorem dirlookup_first (hn : files.length + 2 ≤ NINODES)
    (hgood : ∀ a ∈ names files, a.length ≤ DIRSIZ ∧ 0 ∉ a) (ho : Opened t V dp) {name : Name}
    (hname : name ∈ names files)
    (hq : wp (iget ROOTDEV (max ROOTINO ((names files).idxOf name)))
      (fun ip u => Q (some (ip, DESIZE * (names files).idxOf name)) u) E t) :
    wp (dirlookup sb dp name) Q E t := by
  have hino := loaded_ino ho.rep ho.root
  have htype : (t.inode dp).type = T_DIR := (congrArg Dinode.type hino).trans h.rootType
  have hsize : (t.inode dp).size = (16 * (files.length + 2) / 1024 + 1) * 1024 :=
    (congrArg Dinode.size hino).trans (root_size h)
  have hidx : (names files).idxOf name < files.length + 2 := by
    rw [← names_length]
    exact List.idxOf_lt_length_of_mem hname
  unfold dirlookup
  rw [wp_bind, wp_getInode, if_neg (not_not.mpr htype)]
  refine dirlookupFrom_first h hn hgood ho hname hq _ 0 (Nat.zero_le _) ?_
  simp only [DESIZE, DIRSIZ]
  omega

theorem file_holeFree (hk : files[k]? = some f) : HoleFree V (k + 2) := by
  obtain ⟨-, -, ht⟩ := h.file k f hk
  intro bn hbn
  have hmax := ht.max
  have hlt : bn < MAXFILE := by
    apply Decidable.by_contra
    intro hge
    have := Nat.mul_le_mul_right BSIZE (Nat.le_of_not_lt hge)
    omega
  exact ⟨hlt, (ht.addr bn hlt).mpr hbn⟩

/-- The bytes `readi` copies are those of the file. -/
theorem file_read (hk : files[k]? = some f) {n : Nat} (hoff : off + n < 4294967296) :
    readResult kernelDst (V.raw (k + 2)) 0 off (readCount (V.ino (k + 2)).size off n) =
      (((f.slice off n).length : Int), f.slice off n) := by
  obtain ⟨-, hc, -⟩ := h.file k f hk
  have hsize : (V.ino (k + 2)).size = f.data.length := by rw [← hc, content_length]
  have hlen : (f.slice off n).length = min n (f.data.length - off) := by
    unfold Arg.slice
    rw [List.length_take, List.length_drop]
  have hcount : readCount (V.ino (k + 2)).size off n = (f.slice off n).length := by
    unfold readCount add32
    split <;> omega
  have hreach : reach kernelDst 0 (f.slice off n).length = (f.slice off n).length := reach_all _ 0 fun _ _ _ => rfl
  have hbytes : (List.range (f.slice off n).length).map (fun x => V.raw (k + 2) (off + x)) = f.slice off n := by
    refine List.ext_getElem (by rw [List.length_map, List.length_range]) fun x h1 h2 => ?_
    have hx : off + x < (V.ino (k + 2)).size := by omega
    have hdata : f.data[off + x]? = some (V.raw (k + 2) (off + x)) := by
      rw [← hc]
      unfold content
      rw [List.getElem?_map, List.getElem?_range hx]
      rfl
    obtain ⟨_, hget⟩ := List.getElem?_eq_some_iff.mp hdata
    have hslice : (f.slice off n)[x] = V.raw (k + 2) (off + x) := by
      simp only [Arg.slice, List.getElem_take, List.getElem_drop, hget]
    rw [List.getElem_map, List.getElem_range, hslice]
  unfold readResult
  rw [hcount, hreach, if_pos rfl, hbytes]
  exact Prod.ext (Int.zero_add _) rfl

/-- After the lookup: the root unlocked, the inode locked and read. -/
theorem readi_found (hk : files[k]? = some f) (hlive : Live sb V (k + 2)) {n : Nat} (hoff : off + n < 4294967296)
    (ho : Opened t V dp) {e : Idx} (he : (t.inode e).ref = 0) {Q : Option (Nat × Int × List UInt8) → Fs.St → Prop}
    (hq : ∀ u, Q (some (k + 2, (f.slice off n).length, f.slice off n)) u) : wp (do
      iunlock dp
      ilock sb e
      let (r, bytes) ← readi sb e kernelDst off n
      return some ((← getInode e).inum, r, bytes)) Q E
      (setEntry t e { t.inode e with dev := ROOTDEV, inum := k + 2, ref := 1, valid := false }) := by
  have hne : dp ≠ e := by
    intro heq
    have := ho.root.ref
    rw [heq, he] at this
    exact absurd this (by decide)
  have hrep : Rep sb (setEntry t e { t.inode e with dev := ROOTDEV, inum := k + 2, ref := 1, valid := false })
      V none := by
    refine rep_setEntry ho.rep ⟨hlive.1, rfl⟩ (fun e' _ hre => ?_) fun hv => by cases hv
    have hdp : e' = dp := by
      by_contra hno
      rw [(ho.others e' hno).1] at hre
      exact absurd hre (by decide)
    rw [hdp, ho.root.inum]
    show 1 ≠ k + 2
    omega
  have hent := setEntry_same t e { t.inode e with dev := ROOTDEV, inum := k + 2, ref := 1, valid := false }
  have hroot := setEntry_ne t { t.inode e with dev := ROOTDEV, inum := k + 2, ref := 1, valid := false } hne
  generalize setEntry t e _ = u at hrep hent hroot ⊢
  have hpos : 0 < (u.inode dp).ref := by
    rw [hroot]
    exact ho.root.ref
  have hrep2 : Rep sb (setEntry u dp { u.inode dp with lock := false }) V none := by
    refine rep_setEntry hrep (hrep.range dp hpos) (fun e' hne' hre hn => hne' (hrep.uniq e' dp hre hpos hn))
      fun hv => ?_
    exact ⟨hrep.mem dp hpos hv, hrep.live dp (Option.some_ne_none _).symm hpos hv⟩
  have hent2 : (setEntry u dp { u.inode dp with lock := false }).inode e = u.inode e := setEntry_ne _ _ hne.symm
  unfold iunlock
  rw [wp_bind, wp_bind, wp_getInode, if_neg (by rw [hroot, ho.lock]; have := ho.root.ref; simp; omega)]
  show wp _ Q E (setEntry u dp { u.inode dp with lock := false })
  generalize setEntry u dp { u.inode dp with lock := false } = v at hrep2 hent2 ⊢
  rw [hent] at hent2
  refine wp_then (ilock_live hrep2 (by rw [hent2]; exact Int.one_pos) (by rw [hent2]; exact (ho.others e hne.symm).2)
    (by rw [hent2]) hlive
    fun x _ _ hx hrep3 hload => ?_)
  refine wp_then (wp_of_run
    (readi_eq hrep3 hload hlive (sound_sb h.good.sound) (file_holeFree h hk) kernelDst off n) ?_)
  rw [file_read h hk hoff]
  rw [wp_bind, wp_getInode, setEntry_same, hx]
  exact hq _

theorem lookupRead_file (hn : files.length + 2 ≤ NINODES)
    (hgood : ∀ a ∈ names files, a.length ≤ DIRSIZ ∧ 0 ∉ a) (hnodup : (names files).Nodup)
    (hk : files[k]? = some f) {n : Nat} (hoff : off + n < 4294967296) :
    (lookupRead sb f.shortname off n (mount s.img)).map (·.1) = .ok
    (some (k + 2, (f.slice off n).length, f.slice off n)) := by
  have hnth : (names files)[k + 2]? = some f.shortname := by
    unfold names
    rw [List.getElem?_cons_succ, List.getElem?_cons_succ, List.getElem?_map, hk]
    rfl
  obtain ⟨hlt, hget⟩ := List.getElem?_eq_some_iff.mp hnth
  have hidx : (names files).idxOf f.shortname = k + 2 := by
    rw [← hget]
    exact hnodup.idxOf_getElem (k + 2) hlt
  obtain ⟨t, ht, ho⟩ := openRoot_opened h
  have hw : wp (lookupRead sb f.shortname off n)
    (fun r _ => r = some (k + 2, ((f.slice off n).length : Int), f.slice off n))
      (fun _ => False) (mount s.img) := by
    refine wp_then (wp_of_run ht ?_)
    refine wp_then (dirlookup_first h hn hgood ho (List.mem_of_getElem? hnth) ?_)
    rw [hidx]
    have hfree : (⟨1, by decide⟩ : Idx) ≠ Idx.zero := by decide
    refine iget_fresh (fun e hre hinum => ?_) ⟨_, (ho.others _ hfree).1⟩ fun e he => ?_
    · by_cases heq : e = .zero
      · rw [heq, ho.root.inum] at hinum
        simp only [ROOTINO] at hinum
        omega
      · rw [(ho.others e heq).1] at hre
        exact absurd hre (by decide)
    · exact readi_found h hk (file_live h hn hk) hoff ho he fun _ => rfl
  obtain ⟨r, u, hu, hr⟩ := wp_total hw
  rw [hu, hr]
  rfl

/-- What an inode of the image holds, the volume has it hold. -/
theorem final_holds {i b : Nat} (hb : Holds sb (vol s) i k b) : Holds sb V i k b := by
  have hi : i < cap := Nat.lt_trans hb.live.1 (by decide)
  have hlive : Live sb V i := ⟨hb.live.1, by rw [← good_ino h.good hi]; exact hb.live.2⟩
  exact ⟨hlive, by rw [← good_slot h.good (live_wide hlive)]; exact hb.at_, hb.ne⟩

end

end

/-- Input files that `mkfs` has room for, with names the root can tell apart. -/
structure Valid (files : List Arg) : Prop where
  inodes : files.length + 2 ≤ NINODES
  opens : ∀ f ∈ files, f.reads ≠ none
  slash : ∀ f ∈ files, slash ∉ f.base
  long : ∀ f ∈ files, f.shortname.length ≤ DIRSIZ
  size : ∀ f ∈ files, f.data.length ≤ MAXFILE * BSIZE
  blocks : total (rootBytes files) (files.map Arg.data) ≤ FSSIZE
  /-- They are distinct, and neither of the dots is among them. -/
  distinct : (names files).Nodup

theorem valid_names {files : List Arg} (h : Valid files) : ∀ a ∈ names files, a.length ≤ DIRSIZ ∧ 0 ∉ a := by
  intro a ha
  rcases List.mem_cons.mp ha with rfl | ha
  · decide
  rcases List.mem_cons.mp ha with rfl | ha
  · decide
  obtain ⟨f, hf, rfl⟩ := List.mem_map.mp ha
  exact ⟨h.long f hf, shortname_string f⟩

theorem valid_stops {files : List Arg} (h : Valid files) : Stops (fun _ => False) files where
  slash := h.slash
  noFile := h.opens
  long := fun f hf hlt => absurd (h.long f hf) (Nat.not_le_of_lt hlt)
  big := fun f hf hlt => absurd (h.size f hf) (Nat.not_le_of_lt hlt)
  full := fun hlt => absurd h.blocks (Nat.not_le_of_lt hlt)

/-- The kernel finds and reads every file `mkfs` put into the image, however `read` cut it
    into pieces; no block is used twice; the bitmap has the blocks in use. -/
theorem image_agrees (files : List Arg) (hv : Valid files) :
    ∃ s, image files = .ok s ∧ readsb s.img = sb ∧ magic s.img = FSMAGIC ∧
    (∀ k f, files[k]? = some f → ∀ off n, off + n < 4294967296 →
      (lookupRead (readsb s.img) f.shortname off n (mount s.img)).map (·.1) = .ok
      (some (k + 2, (f.slice off n).length, f.slice off n))) ∧
    (∀ i k j l b, Holds sb (vol s) i k b → Holds sb (vol s) j l b → i = j ∧ k = l) ∧
    (∀ i k b, Holds sb (vol s) i k b → nmeta ≤ b ∧ b < s.freeblock) ∧
    ∀ b < BPB, (s.img (sb.BBLOCK b)).bit (b % BPB) = decide (b < s.freeblock) := by
  obtain ⟨s, V, h, hV⟩ := image_ok (Nat.le_trans hv.inodes (by decide)) (valid_stops hv)
  obtain ⟨hsb, hmagic⟩ := readsb_final hV
  have hs := sound_sb hV.good.sound
  refine ⟨s, h, hsb, hmagic, fun k f hk off n hoff => ?_, fun i k j l b hb hb' => ?_, fun i k b hb => ?_,
    fun b hb => final_bit hV hb⟩
  · rw [hsb]
    exact lookupRead_file hV hv.inodes (valid_names hv) hv.distinct hk hoff
  · exact hs.once i k j l b (final_holds hV hb) (final_holds hV hb')
  · have hused := hs.marked i k b (final_holds hV hb)
    rw [hV.good.used] at hused
    exact ⟨(hs.range i k b (final_holds hV hb)).1, of_decide_eq_true hused⟩

theorem longFile_string : (0 : UInt8) ∉ [underscore, 99, 97, 116] := by decide

/-- `_cat`, of 13000 bytes, read a thousand at a time. -/
def longFile : Arg where
  argv := [underscore, 99, 97, 116]
  string := longFile_string
  reads := some (List.replicate 13 (List.replicate 1000 7))
  sizes := fun ps h p hp => by
    cases h
    rw [List.eq_of_mem_replicate hp, List.length_replicate]
    decide

/-- Behind an empty file; the bytes around the twelfth block's end are found by the name. -/
theorem image_agrees_long : ∃ s, image [small 0, longFile] = .ok s ∧
    (lookupRead (readsb s.img) [99, 97, 116] 12280 20 (mount s.img)).map (·.1) = .ok
    (some (3, 20, List.replicate 20 7)) := by
  obtain ⟨s, hs, _, _, hread, _⟩ := image_agrees [small 0, longFile] ⟨by decide, by decide +kernel, by decide +kernel,
    by decide +kernel, by decide +kernel, by decide +kernel, by decide +kernel⟩
  have hslice : longFile.slice 12280 20 = List.replicate 20 7 := by decide +kernel
  have h := hread 1 longFile rfl 12280 20 (by decide)
  rw [hslice] at h
  exact ⟨s, hs, h⟩

theorem dotFile_string : (0 : UInt8) ∉ [underscore, 46] := by decide

/-- `_.`, an empty file. -/
def dotFile : Arg where
  argv := [underscore, 46]
  string := dotFile_string
  reads := some []
  sizes := (small 0).sizes

/-- `mkfs` calls it `.`; the kernel's lookup of that name finds the root, which is not empty. -/
theorem dot_finds_root :
    ∃ s, image [dotFile] = .ok s ∧ dotFile.shortname = dot ∧ dotFile.data = [] ∧
    ∃ dp t ip off u, openRoot sb (mount s.img) = .ok (dp, t) ∧ dirlookup sb dp dotFile.shortname t = .ok
      (some (ip, off), u) ∧
      (u.inode ip).inum = ROOTINO ∧ ∃ bytes, readi sb ip kernelDst 0 DESIZE u = .ok ((DESIZE, bytes), u) := by
  have hstops : Stops (fun _ => False) [dotFile] := by
    refine ⟨?_, ?_, ?_, ?_, ?_⟩ <;> decide +kernel
  obtain ⟨s, V, h, hV⟩ := image_ok (by decide) hstops
  obtain ⟨t, ht, ho⟩ := openRoot_opened hV
  have hgood : ∀ a ∈ names [dotFile], a.length ≤ DIRSIZ ∧ 0 ∉ a := by decide +kernel
  have hw : wp (dirlookup sb .zero dotFile.shortname) (fun r u => ∃ off, r = some (.zero, off) ∧
    (u.inode .zero).inum = ROOTINO ∧
      ∃ bytes, readi sb .zero kernelDst 0 DESIZE u = .ok ((DESIZE, bytes), u)) (fun _ => False) t := by
    refine dirlookup_first hV (by decide) hgood ho (by decide +kernel) ?_
    refine iget_found ho.rep ho.root.ref ho.root.inum ⟨_, rfl, ?_, ?_⟩
    · exact ho.root.inum
    · have hload : Loaded (setEntry t .zero { t.inode .zero with ref := (t.inode .zero).ref + 1 }) .zero ROOTINO := by
        refine ⟨?_, ?_, ?_⟩ <;> rw [setEntry_same]
        · exact Int.lt_add_one_of_le (Int.le_of_lt ho.root.ref)
        · exact ho.root.valid
        · exact ho.root.inum
      exact ⟨_, readi_entry hV (by decide) (j := 0) (rep_more ho.rep ho.root.ref) hload (by decide)⟩
  obtain ⟨_, u, hu, off, rfl, hinum, hread⟩ := wp_total hw
  exact ⟨s, h, by decide +kernel, by decide +kernel, _, t, _, off, u, ht, hu, hinum, hread⟩

end Xv6.Mkfs
