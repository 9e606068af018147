/-
  Xv6.Mkfs.Build — what `mkfs` builds (`mkfs/mkfs.c`: `main`).

  `Holding dirs fs`: the root directory holds the bytes `dirs` and the files made so far
  the contents `fs`, in blocks that are just as many as they need. Each call of `main` adds
  to one of them (`add_root`, `add_file`, `add_bytes`). `main_spec` is the one fact about
  the program: it stops only as `Stops` allows, and otherwise the image is `Final`.
-/

import Xv6.Mkfs.Append
import Xv6.Fs.DirProofs
import Mathlib.Algebra.GroupWithZero.Nat

namespace Xv6.Mkfs

open Lib Fs Vol

/-! ## Contents -/

/-- What the calls of `read` return in all. -/
def Arg.data (f : Arg) : List UInt8 := (f.reads.getD []).flatten

def rootBytes (files : List Arg) : List UInt8 :=
  mkDirent ROOTINO dot ++ mkDirent ROOTINO dotdot ++ files.zipIdx.flatMap fun (f, k) => mkDirent (k + 2) f.shortname

def total (dirs : List UInt8) (fs : List (List UInt8)) : Nat :=
  nmeta + need dirs.length + (fs.map fun l => need l.length).sum

theorem rootBytes_append (files : List Arg) (f : Arg) :
    rootBytes (files ++ [f]) = rootBytes files ++ mkDirent (files.length + 2) f.shortname := by
  unfold rootBytes
  rw [List.zipIdx_append]
  simp

theorem rootBytes_length (files : List Arg) : (rootBytes files).length = DESIZE * (files.length + 2) := by
  induction files using List.reverseRecOn with
  | nil => simp [rootBytes, mkDirent_length]; rfl
  | append_singleton files f ih =>
    rw [rootBytes_append, List.length_append, ih, mkDirent_length, List.length_append, List.length_singleton]
    simp only [DESIZE, DIRSIZ]
    omega

theorem total_root (dirs p : List UInt8) (fs : List (List UInt8)) : total dirs fs ≤ total (dirs ++ p) fs := by
  have := need_mono (show dirs.length ≤ (dirs ++ p).length by rw [List.length_append]; omega)
  unfold total
  omega

theorem total_last (dirs : List UInt8) (fs : List (List UInt8)) (l : List UInt8) :
    total dirs (fs ++ [l]) = total dirs fs + need l.length := by
  unfold total
  simp only [List.map_append, List.sum_append, List.map_singleton, List.sum_singleton]
  omega

theorem need_zero : need 0 = 0 := by decide

section

variable {E : Err → Prop} {s t : St} {V V' : Vol} {dirs : List UInt8} {fs : List (List UInt8)}

variable {i : Nat} {p : List UInt8} {Q : Unit → St → Prop} {α : Type} {files : List Arg}

theorem content_append (h : Appended s V i (V.ino i).size p t V') : content V' i = content V i ++ p := by
  have hsize : (V'.ino i).size = (V.ino i).size + p.length := by rw [h.hdr]
  unfold content
  rw [hsize, List.range_add, List.map_append]
  congr 1
  · refine List.map_congr_left fun x hx => ?_
    have := List.mem_range.mp hx
    rw [h.byte, if_neg (by omega)]
  · refine List.ext_getElem (by simp) fun k h1 h2 => ?_
    simp only [List.getElem_map, List.getElem_range]
    rw [h.byte, if_pos (by omega), Nat.add_sub_cancel_left, List.getD_eq_getElem _ _ h2]

theorem content_other {j : Nat} {off : Nat} (h : Appended s V i off p t V') (hj : j ≠ i) (hl : Live wide V j) :
    content V' j = content V j := by
  unfold content
  rw [h.ino j hj]
  exact List.map_congr_left fun x _ => h.raw j hj hl x

structure Holding (dirs : List UInt8) (fs : List (List UInt8)) (s : St) (V : Vol) : Prop where
  good : Good s V none
  tight : ∀ j, Live wide V j → Tight V j
  inodes : s.freeinode = fs.length + 2
  fit : fs.length + 2 ≤ cap
  root : (V.ino ROOTINO).type = T_DIR ∧ content V ROOTINO = dirs
  file : ∀ k l, fs[k]? = some l → (V.ino (k + 2)).type = T_FILE ∧ content V (k + 2) = l
  free : s.freeblock = total dirs fs

section

variable (h : Holding dirs fs s V)

include h

theorem holding_live (h1 : 1 ≤ i) (h2 : i < fs.length + 2) : Live wide V i :=
  (good_live h.good (Nat.lt_of_lt_of_le h2 h.fit)).mpr ⟨h1, by rw [h.inodes]; exact h2⟩

theorem holding_root : Live wide V ROOTINO := holding_live h (by decide) (by show 1 < _; omega)

theorem holding_file {k : Nat} (hk : k < fs.length) : Live wide V (k + 2) :=
  holding_live h (by omega) (by omega)

theorem add_root (hdie : FSSIZE < total (dirs ++ p) fs → E (.die "read"))
    (hassert : MAXFILE * BSIZE < (dirs ++ p).length → E (.assert "fbn < MAXFILE"))
    (hq : ∀ t V', Holding (dirs ++ p) fs t V' → Q () t) :
    wp (iappend ROOTINO p) Q E s := by
  have hlive := holding_root h
  have hsize : (V.ino ROOTINO).size = dirs.length := by rw [← content_length, h.root.2]
  have hfree := h.free
  refine iappend_spec h.good h.tight hlive (fun hfull => hdie ?_) (fun hbig => hassert ?_) fun t V' hg ha => hq t V' ?_
  · rw [hsize] at hfull
    unfold total at hfree ⊢
    rw [List.length_append]
    omega
  · rw [List.length_append, ← hsize]
    exact hbig
  · refine ⟨hg, ha.tight, ha.inodes.trans h.inodes, h.fit, ⟨(appended_type ha _).trans h.root.1, ?_⟩,
      fun k l hk => ?_, ?_⟩
    · rw [content_append ha, h.root.2]
    · obtain ⟨h1, h2⟩ := h.file k l hk
      have hk' : k < fs.length := (List.getElem?_eq_some_iff.mp hk).1
      have hne : k + 2 ≠ ROOTINO := by show k + 2 ≠ 1; omega
      exact ⟨(appended_type ha _).trans h1, (content_other ha hne (holding_file h hk')).trans h2⟩
    · have := ha.free
      rw [hsize] at this
      unfold total at hfree ⊢
      rw [List.length_append]
      omega

end

theorem add_bytes {l : List UInt8} (h : Holding dirs (fs ++ [l]) s V)
    (hdie : FSSIZE < total dirs (fs ++ [l ++ p]) → E (.die "read"))
    (hassert : MAXFILE * BSIZE < (l ++ p).length → E (.assert "fbn < MAXFILE"))
    (hq : ∀ t V', Holding dirs (fs ++ [l ++ p]) t V' → Q () t) : wp (iappend (fs.length + 2) p) Q E s := by
  have hlen (l : List UInt8) : (fs ++ [l]).length = fs.length + 1 := by rw [List.length_append, List.length_singleton]
  have hlive : Live wide V (fs.length + 2) := holding_file h (by rw [hlen]; omega)
  obtain ⟨htype, hcont⟩ := h.file fs.length l (by rw [List.getElem?_append_right (Nat.le_refl _), Nat.sub_self]; rfl)
  have hsize : (V.ino (fs.length + 2)).size = l.length := by rw [← content_length, hcont]
  have hfree := h.free
  rw [total_last] at hfree
  refine iappend_spec h.good h.tight hlive (fun hfull => hdie ?_) (fun hbig => hassert ?_) fun t V' hg ha => hq t V' ?_
  · rw [hsize] at hfull
    rw [total_last, List.length_append]
    omega
  · rw [List.length_append, ← hsize]
    exact hbig
  · have hrootne : ROOTINO ≠ fs.length + 2 := by show 1 ≠ _; omega
    have hinodes := ha.inodes.trans h.inodes
    have hfit := h.fit
    rw [hlen] at hinodes hfit
    refine ⟨hg, ha.tight, by rw [hlen]; exact hinodes, by rw [hlen]; exact hfit,
      ⟨(appended_type ha _).trans h.root.1, (content_other ha hrootne (holding_root h)).trans h.root.2⟩,
      fun k l' hk => ?_, ?_⟩
    · by_cases e : k = fs.length
      · subst e
        rw [List.getElem?_append_right (Nat.le_refl _), Nat.sub_self] at hk
        cases hk
        exact ⟨(appended_type ha _).trans htype, by rw [content_append ha, hcont]⟩
      · have hk' : k < fs.length := by
          have := (List.getElem?_eq_some_iff.mp hk).1
          rw [hlen] at this
          omega
        rw [List.getElem?_append_left hk'] at hk
        obtain ⟨h1, h2⟩ := h.file k l' (by rw [List.getElem?_append_left hk']; exact hk)
        have hl : Live wide V (k + 2) := holding_file h (by rw [hlen]; omega)
        exact ⟨(appended_type ha _).trans h1, (content_other ha (by omega) hl).trans h2⟩
    · have := ha.free
      rw [hsize] at this
      rw [total_last, List.length_append]
      omega

theorem add_file (h : Holding dirs fs s V) (hcap : fs.length + 3 ≤ cap) {Q : Nat → St → Prop}
    (hq : ∀ t V', Holding dirs (fs ++ [[]]) t V' → Q (fs.length + 2) t) : wp (ialloc T_FILE) Q E s := by
  have hlen : (fs ++ [([] : List UInt8)]).length = fs.length + 1 := by rw [List.length_append, List.length_singleton]
  have hi := h.inodes
  rw [← hi] at hq
  refine ialloc_spec h.good h.tight (by omega) (by omega) (by decide) fun t V' hg ha hfi hfb => hq t V' ?_
  have hsame {j : Nat} (hj : j ≠ s.freeinode) : content V' j = content V j := by
    unfold content
    rw [ha.ino j hj]
    exact List.map_congr_left fun x _ => ha.raw j hj x
  have hrootne : ROOTINO ≠ s.freeinode := by show 1 ≠ _; omega
  refine ⟨hg, ha.tight, by rw [hlen, hfi, hi], by rw [hlen]; omega,
    ⟨by rw [ha.ino _ hrootne]; exact h.root.1, (hsame hrootne).trans h.root.2⟩,
    fun k l hk => ?_, ?_⟩
  · by_cases e : k = fs.length
    · subst e
      rw [List.getElem?_append_right (Nat.le_refl _), Nat.sub_self] at hk
      cases hk
      rw [← hi]
      unfold content
      rw [ha.self]
      exact ⟨rfl, rfl⟩
    · have hk' : k < fs.length := by
        have := (List.getElem?_eq_some_iff.mp hk).1
        omega
      rw [List.getElem?_append_left hk'] at hk
      have hne : k + 2 ≠ s.freeinode := by omega
      rw [ha.ino _ hne, hsame hne]
      exact h.file k l hk
  · rw [hfb, total_last, List.length_nil]
    exact h.free

theorem wp_forM_cons {f : α → M Unit} {a : α} {as : List α} :
    wp ((a :: as).forM f) Q E s = wp (f a) (fun _ => wp (as.forM f) Q E) E s := wp_bind _ _

theorem add_pieces (ps : List (List UInt8)) : ∀ {s : St} {V : Vol} {l : List UInt8}, Holding dirs (fs ++ [l]) s V →
    (FSSIZE < total dirs (fs ++ [l ++ ps.flatten]) → E (.die "read")) →
    (MAXFILE * BSIZE < (l ++ ps.flatten).length → E (.assert "fbn < MAXFILE")) → ∀ {Q : Unit → St → Prop},
    (∀ t V', Holding dirs (fs ++ [l ++ ps.flatten]) t V' → Q () t) → wp (ps.forM (iappend (fs.length + 2))) Q E s := by
  induction ps with
  | nil =>
    intro s V l h _ _ Q hq
    rw [List.flatten_nil, List.append_nil] at hq
    exact hq s V h
  | cons p ps ih =>
    intro s V l h hdie hassert Q hq
    rw [List.flatten_cons, ← List.append_assoc] at hdie hassert hq
    rw [wp_forM_cons]
    have hmono : total dirs (fs ++ [l ++ p]) ≤ total dirs (fs ++ [l ++ p ++ ps.flatten]) := by
      rw [total_last, total_last]
      have := need_mono (show (l ++ p).length ≤ (l ++ p ++ ps.flatten).length by simp only [List.length_append]; omega)
      omega
    refine add_bytes h (fun hfull => hdie (by omega)) (fun hbig => hassert ?_) fun t V' ht => ih ht hdie hassert hq
    simp only [List.length_append] at hbig ⊢
    omega

/-! ## main -/

/-- The errors that these files may stop `main` with. -/
structure Stops (E : Err → Prop) (files : List Arg) : Prop where
  slash : ∀ f ∈ files, slash ∈ f.base → E (.assert "index(shortname, '/') == 0")
  noFile : ∀ f ∈ files, f.reads = none → E (.noFile f.argv)
  long : ∀ f ∈ files, DIRSIZ < f.shortname.length → E (.assert "strlen(shortname) <= DIRSIZ")
  big : ∀ f ∈ files, MAXFILE * BSIZE < f.data.length → E (.assert "fbn < MAXFILE")
  full : FSSIZE < total (rootBytes files) (files.map Arg.data) → E (.die "read")

theorem addFile_spec (h : Holding (rootBytes files) (files.map Arg.data) s V) {f : Arg}
    (hcap : files.length + 3 ≤ cap) (hE : Stops E (files ++ [f]))
    (hq : ∀ t V', Holding (rootBytes (files ++ [f])) ((files ++ [f]).map Arg.data) t V' → Q () t) :
    wp (addFile ROOTINO f) Q E s := by
  have hf : f ∈ files ++ [f] := List.mem_append_right _ (List.mem_singleton_self f)
  have hlen : (files.map Arg.data).length = files.length := List.length_map _
  rw [List.map_append, List.map_singleton, rootBytes_append] at hq
  have hfull := hE.full
  rw [List.map_append, List.map_singleton, rootBytes_append] at hfull
  unfold addFile
  by_cases hs : slash ∈ f.base
  · rw [if_pos hs]
    exact hE.slash f hf hs
  rw [if_neg hs]
  cases hr : f.reads with
  | none => exact hE.noFile f hf hr
  | some ps =>
    have hdata : f.data = ps.flatten := by rw [Arg.data, hr]; rfl
    rw [hdata] at hq hfull
    rw [wp_ite]
    by_cases hl : f.shortname.length ≤ DIRSIZ
    · rw [if_pos hl, wp_bind]
      refine add_file h (by rw [hlen]; exact hcap) fun t V' ht => ?_
      have hbytes : total (rootBytes files ++ mkDirent (files.length + 2) f.shortname) (files.map Arg.data ++ [[]]) ≤
          total (rootBytes files ++ mkDirent (files.length + 2) f.shortname) (files.map Arg.data ++ [ps.flatten]) := by
        rw [total_last, total_last, List.length_nil, need_zero]
        omega
      rw [wp_bind, hlen]
      refine add_root ht (fun hbig => hfull (by omega)) (fun hbig => ?_) fun u V'' hu => ?_
      · -- the entries of all inodes there is room for are less than a file may have
        rw [List.length_append, rootBytes_length, mkDirent_length] at hbig
        have : files.length + 3 ≤ 208 := hcap
        simp only [MAXFILE, NDIRECT, NINDIRECT, BSIZE, DESIZE, DIRSIZ] at hbig
        omega
      · rw [← hlen]
        refine add_pieces ps hu (fun hbig => hfull hbig) (fun hbig => hE.big f hf (by rw [hdata]; exact hbig))
          fun v W hv => hq v W hv
    · rw [if_neg hl]
      exact hE.long f hf (by omega)

theorem stops_initial {f : Arg} {rest : List Arg} (h : Stops E (files ++ f :: rest)) : Stops E (files ++ [f]) := by
  have hsub : ∀ g ∈ files ++ [f], g ∈ files ++ f :: rest := fun g hg => by
    rw [List.append_cons]
    exact List.mem_append_left _ hg
  refine ⟨fun g hg => h.slash g (hsub g hg), fun g hg => h.noFile g (hsub g hg), fun g hg => h.long g (hsub g hg),
    fun g hg => h.big g (hsub g hg),
    fun hfull => h.full ?_⟩
  have hmono (rest : List Arg) (done : List Arg) :
      total (rootBytes done) (done.map Arg.data) ≤ total (rootBytes (done ++ rest)) ((done ++ rest).map Arg.data) := by
    induction rest generalizing done with
    | nil => rw [List.append_nil]
    | cons g rest ih =>
      rw [List.append_cons]
      refine Nat.le_trans ?_ (ih (done ++ [g]))
      rw [List.map_append, List.map_singleton, total_last, rootBytes_append]
      have := total_root (rootBytes done) (mkDirent (done.length + 2) g.shortname) (done.map Arg.data)
      omega
  rw [List.append_cons]
  exact Nat.lt_of_lt_of_le hfull (hmono rest _)

theorem addFiles_spec (rest : List Arg) :
    ∀ {s : St} {V : Vol} (done : List Arg), Holding (rootBytes done) (done.map Arg.data) s V →
    (done ++ rest).length + 2 ≤ cap → Stops E (done ++ rest) → ∀ {Q : Unit → St → Prop},
    (∀ t V', Holding (rootBytes (done ++ rest)) ((done ++ rest).map Arg.data) t V' → Q () t) →
    wp (rest.forM (addFile ROOTINO)) Q E s := by
  induction rest with
  | nil =>
    intro s V done h _ _ Q hq
    rw [List.append_nil] at hq
    exact hq s V h
  | cons f rest ih =>
    intro s V done h hcap hE Q hq
    rw [wp_forM_cons]
    refine addFile_spec h ?_ (stops_initial hE) fun t V' ht => ?_
    · rw [List.length_append, List.length_cons] at hcap
      omega
    · rw [List.append_cons] at hcap hE hq
      exact ih (done ++ [f]) ht hcap hE hq

/-! ## The empty image -/

theorem getDinode_zero (o : Nat) : getDinode Bytes.zero o = Dinode.blank := by
  unfold getDinode Dinode.blank
  simp only [Bytes.getLE_zero]
  rfl

def noInodes : Vol := ⟨fun _ => .blank, fun b => decide (b < nmeta), fun _ => Bytes.zero⟩

theorem zeroes_spec (l : List Nat) :
    ∀ {s : St}, (∀ i ∈ l, i < FSSIZE) → s.len ≤ FSSIZE → (∀ b, s.img b = Bytes.zero) →
    (∀ w ∈ s.writes, w.1.Has w.2) → ∀ {Q : Unit → St → Prop},
    (∀ t, t.len ≤ FSSIZE → s.len ≤ t.len → (∀ i ∈ l, i < t.len) → (∀ b, t.img b = Bytes.zero) →
      (∀ w ∈ t.writes, w.1.Has w.2) →
      t.freeinode = s.freeinode → t.freeblock = s.freeblock → Q () t) →
    wp (l.forM fun i => wsect .zeroes i Bytes.zero) Q E s := by
  induction l with
  | nil =>
    intro s _ hlen himg hw Q hq
    exact hq s hlen (Nat.le_refl _) (fun i hi => absurd hi List.not_mem_nil) himg hw rfl rfl
  | cons i l ih =>
    intro s hl hlen himg hw Q hq
    have hi := hl i List.mem_cons_self
    refine ih (fun j hj => hl j (.tail _ hj)) (by show max _ _ ≤ _; omega) (fun b => ?_) (fun w hmem => ?_)
      fun t h1 h2 h3 h4 h5 h6 h7 => hq t h1 (Nat.le_trans (Nat.le_max_left _ _) h2) (fun j hj => ?_) h4 h5 h6 h7
    · show upd s.img i Bytes.zero b = Bytes.zero
      by_cases e : b = i
      · rw [e, upd_same]
      · rw [upd_ne _ _ e, himg]
    · rcases List.mem_append.mp hmem with hmem | hmem
      · exact hw w hmem
      · rw [List.mem_singleton.mp hmem]
        exact hi
    · rcases List.mem_cons.mp hj with rfl | hj
      · exact Nat.lt_of_lt_of_le (Nat.le_max_right s.len (j + 1)) h2
      · exact h3 j hj

theorem good_start : wp wzeroes
    (fun _ => wp (wsect .super 1 sbBlock) (fun _ t => Good t noInodes none ∧ t.freeinode = 1 ∧ t.freeblock = nmeta) E)
      E start := by
  have hall : (∀ i ∈ List.range FSSIZE, i < FSSIZE) ∧ 1999 ∈ List.range FSSIZE :=
    ⟨fun i hi => List.mem_range.mp hi, List.mem_range.mpr (by decide)⟩
  unfold wzeroes
  generalize List.range FSSIZE = l at hall
  refine zeroes_spec l hall.1 (Nat.zero_le _) (fun _ => rfl) (fun w hw => absurd hw List.not_mem_nil)
    fun t h1 _ h3 h4 h5 h6 h7 => ?_
  have hlen : t.len = FSSIZE := by
    have : 1999 < t.len := h3 1999 hall.2
    have : t.len ≤ 2000 := h1
    show t.len = 2000
    omega
  have hne {b : Nat} (hb : b ≠ 1) : upd t.img 1 sbBlock b = Bytes.zero := by rw [upd_ne _ _ hb, h4]
  have hblank (i : Nat) : ¬ Live wide noInodes i := fun hl => hl.2 rfl
  refine ⟨⟨by show max t.len 2 = FSSIZE; rw [hlen]; decide, fun b _ => ?_, fun i hi _ => ?_,
    fun b hb => ?_, fun b => ?_, by rw [h7]; decide, by rw [h7]; decide,
    fun _ _ => rfl, ⟨fun i k b hb => absurd hb.live (hblank i), fun i k j l b hb => absurd hb.live (hblank i),
      fun i k b hb => absurd hb.live (hblank i),
      fun b hb => decide_eq_true hb⟩, fun i => Dinode.fits_blank, fun i _ => ?_, fun w hw => ?_⟩, h6, h7⟩
  · show upd t.img 1 sbBlock b = _
    by_cases e : b = 1
    · rw [e, upd_same, if_pos rfl]
    · rw [hne e, if_neg e]
  · show getDinode (upd t.img 1 sbBlock (sb.IBLOCK i)) _ = _
    rw [hne (by have := (iblock_has hi).1; have : sb.inodestart = 33 := rfl; omega), getDinode_zero]
    rfl
  · exact hne (by have : nmeta = 47 := rfl; omega)
  · show decide _ = decide _
    rw [h7]
    rfl
  · refine iff_of_false (fun hn => hn rfl) ?_
    show ¬ (1 ≤ i ∧ i < t.freeinode)
    rw [h6]
    show ¬ (1 ≤ i ∧ i < 1)
    omega
  · rcases List.mem_append.mp hw with hw | hw
    · exact h5 w hw
    · rw [List.mem_singleton.mp hw]
      exact rfl

/-! ## The whole program -/

/-- What `main` leaves: the root directory has a block for each of its entries and a size
    rounded up, the files have the contents read, and the bitmap marks the blocks in use. -/
structure Final (files : List Arg) (s : St) (V : Vol) : Prop where
  good : Good s V none
  bitmap : s.img sb.bmapstart = setBits s.freeblock
  inodes : s.freeinode = files.length + 2
  free : s.freeblock = total (rootBytes files) (files.map Arg.data)
  rootType : (V.ino ROOTINO).type = T_DIR
  rootSize : (V.ino ROOTINO).size = fixSize (DESIZE * (files.length + 2))
  rootAddr : ∀ bn < MAXFILE, V.addr ROOTINO bn ≠ 0 ↔ bn * BSIZE < DESIZE * (files.length + 2)
  rootByte : ∀ x < DESIZE * (files.length + 2), V.raw ROOTINO x = (rootBytes files).getD x 0
  file : ∀ k f, files[k]? = some f → (V.ino (k + 2)).type = T_FILE ∧ content V (k + 2) = f.data ∧ Tight V (k + 2)

theorem good_bitmap (h : Good s V none) (buf : Block) :
    Good { s with
      img := upd s.img sb.bmapstart buf
      len := max s.len (sb.bmapstart + 1)
      writes := s.writes ++ [(.bitmap, sb.bmapstart)] } V none where
  len := by
    show max s.len 47 = FSSIZE
    rw [h.len]
    decide
  head := fun b hb => by
    show upd s.img sb.bmapstart buf b = _
    rw [upd_ne _ _ (by have hi : sb.inodestart = 33 := rfl; have hm : sb.bmapstart = 46 := rfl; omega)]
    exact h.head b hb
  ino := fun j hj hd => by
    show getDinode (upd s.img sb.bmapstart buf _) _ = _
    rw [upd_ne _ _ (by have := (iblock_has hj).2; omega)]
    exact h.ino j hj hd
  blk := fun b hb => by
    show upd s.img sb.bmapstart buf b = _
    rw [upd_ne _ _ (by have hn : nmeta = 47 := rfl; have hm : sb.bmapstart = 46 := rfl; omega)]
    exact h.blk b hb
  used := h.used
  low := h.low
  high := h.high
  zero := h.zero
  sound := h.sound
  fits := h.fits
  live := h.live
  parts := parts_cons h ⟨Nat.le_refl _, by decide⟩

theorem final_spec (h : Holding (rootBytes files) (files.map Arg.data) s V)
    (hq : ∀ t V', Final files t V' → Q () t) : wp (do
      let din ← rinode ROOTINO
      winode ROOTINO (din.setSize (fixSize din.size))
      let s ← get
      balloc s.freeblock : M Unit) Q E s := by
  have hroot := holding_root h
  have hcap : files.length + 2 ≤ 208 := by
    have := h.fit
    rw [List.length_map] at this
    exact this
  have hsize : (V.ino ROOTINO).size = DESIZE * (files.length + 2) := by
    rw [← content_length, h.root.2, rootBytes_length]
  have hfix : fixSize (V.ino ROOTINO).size < 4294967296 := by
    rw [hsize]
    simp only [fixSize, DESIZE, DIRSIZ, BSIZE]
    omega
  have hda : ((V.ino ROOTINO).setSize (fixSize (V.ino ROOTINO).size)).addrs = (V.ino ROOTINO).addrs := rfl
  have hdt : ((V.ino ROOTINO).setSize (fixSize (V.ino ROOTINO).size)).type = (V.ino ROOTINO).type := rfl
  have hg := good_setIno (good_dirty h.good) hda hdt (Dinode.fits_setSize (h.good.fits _) hfix)
  have hself : (V.setIno ROOTINO ((V.ino ROOTINO).setSize (fixSize (V.ino ROOTINO).size))).ino ROOTINO =
      (V.ino ROOTINO).setSize (fixSize (V.ino ROOTINO).size) := upd_same V.ino ROOTINO _
  have hother {j : Nat} (hj : j ≠ ROOTINO) :
      (V.setIno ROOTINO ((V.ino ROOTINO).setSize (fixSize (V.ino ROOTINO).size))).ino j = V.ino j := upd_ne _ _ hj
  have hslot := setIno_slot hda
  have hraw := setIno_raw hda
  refine wp_then (wp_rinode h.good hroot.1 ?_)
  refine wp_then (winode_spec hg hroot.1 hself fun t ht hfi hfb => ?_)
  have hhigh := ht.high
  rw [wp_bind, wp_get]
  unfold balloc
  rw [if_pos (Nat.lt_of_le_of_lt hhigh (by decide))]
  generalize V.setIno ROOTINO ((V.ino ROOTINO).setSize (fixSize (V.ino ROOTINO).size)) = W at hself hother hslot hraw ht
  refine hq _ W ⟨good_bitmap ht _, upd_same t.img sb.bmapstart _, ?_, hfb.trans h.free, ?_,
    ?_, fun bn hbn => ?_, fun x hx => ?_, fun k f hk => ?_⟩
  · show t.freeinode = _
    rw [hfi, h.inodes, List.length_map]
  · rw [hself]
    exact h.root.1
  · rw [hself]
    show fixSize (V.ino ROOTINO).size = _
    rw [hsize]
  · rw [Vol.addr, hslot, ← hsize]
    exact (h.tight _ hroot).addr bn hbn
  · rw [hraw, ← h.root.2]
    unfold content
    rw [List.getD_eq_getElem _ _ (by rw [List.length_map, List.length_range, hsize]; exact hx),
      List.getElem_map, List.getElem_range]
  · have hk' : (files.map Arg.data)[k]? = some f.data := by rw [List.getElem?_map, hk]; rfl
    obtain ⟨h1, h2⟩ := h.file k f.data hk'
    have hlt : k < (files.map Arg.data).length := (List.getElem?_eq_some_iff.mp hk').1
    have hne : k + 2 ≠ ROOTINO := by show k + 2 ≠ 1; omega
    have htk := h.tight _ (holding_file h hlt)
    refine ⟨by rw [hother hne]; exact h1, ?_,
      ⟨by rw [hother hne]; exact htk.max, fun bn hbn => ?_, by rw [hother hne]; exact htk.ind⟩⟩
    · rw [← h2]
      unfold content
      rw [hother hne]
      exact List.map_congr_left fun x _ => hraw _ x
    · rw [hother hne, Vol.addr, hslot]
      exact htk.addr bn hbn

section

variable (hcap : files.length + 2 ≤ cap)

include hcap

theorem main_spec (hE : Stops E files) (hq : ∀ t V, Final files t V → Q () t) :
    wp (main files) Q E start := by
  refine wp_then (wp_mono good_start fun _ t ht => ?_)
  refine wp_then (wp_mono ht fun _ s hs => ?_)
  obtain ⟨hs, hfi, hfb⟩ := hs
  rw [wp_bind]
  have hnone (j : Nat) (hj : Live wide noInodes j) : Tight noInodes j := absurd rfl hj.2
  refine ialloc_spec hs hnone (by rw [hfi]; decide) (by omega) (by decide) fun t V ht ha hfi' hfb' => ?_
  rw [hfi] at hfi' ha ⊢
  rw [if_pos (show 1 = ROOTINO from rfl), wp_bind]
  have h0 : Holding [] [] t V := by
    refine ⟨ht, ha.tight, hfi', by decide, ?_, (fun k l hk => by cases hk), hfb'.trans hfb⟩
    show (V.ino 1).type = T_DIR ∧ (List.range (V.ino 1).size).map (V.raw 1) = []
    rw [ha.self]
    exact ⟨rfl, rfl⟩
  refine add_root h0 (fun hbig => ?_) (fun hbig => ?_) fun t V h1 => ?_
  · exact absurd hbig (by decide)
  · exact absurd hbig (by decide)
  refine wp_then (add_root h1 (fun hbig => ?_) (fun hbig => ?_) fun t V h2 => ?_)
  · exact absurd hbig (by decide)
  · exact absurd hbig (by decide)
  refine wp_then (addFiles_spec files [] h2 hcap hE fun t V h3 => ?_)
  exact final_spec h3 hq

/-- A run that ends leaves a final image, if the inodes fit their sectors. -/
theorem image_final (h : image files = .ok s) : ∃ V, Final files s V := by
  have hany : Stops (fun _ => True) files :=
    ⟨fun _ _ _ => trivial, fun _ _ _ => trivial, fun _ _ _ => trivial, fun _ _ _ => trivial, fun _ => trivial⟩
  have hrun : wp (main files) (fun _ t => ∃ V, Final files t V) (fun _ => True) start :=
    main_spec hcap hany fun t V ht => ⟨V, ht⟩
  unfold image at h
  cases hm : main files start with
  | error e => rw [hm] at h; cases h
  | ok r =>
    rw [hm] at h
    cases h
    exact wp_ok hrun hm

/-- And files that nothing is wrong with do make a run that ends. -/
theorem image_ok (hE : Stops (fun _ => False) files) :
    ∃ s V, image files = .ok s ∧ Final files s V := by
  have hrun : wp (main files) (fun _ t => ∃ V, Final files t V) (fun _ => False) start :=
    main_spec hcap hE fun t V ht => ⟨V, ht⟩
  obtain ⟨a, t, hm, V, hV⟩ := wp_total hrun
  exact ⟨t, V, by unfold image; rw [hm]; rfl, hV⟩

end

/-! ## The inode numbers used -/

def Keeps {α : Type} (m : M α) : Prop := ∀ s, wp m (fun _ t => t.freeinode = s.freeinode) (fun _ => True) s

theorem keeps_pure (a : α) : Keeps (pure a : M α) := fun _ => rfl

theorem keeps_throw (e : Err) : Keeps (throw e : M α) := fun _ => trivial

theorem keeps_bind {β : Type} {m : M α} {f : α → M β} (hm : Keeps m) (hf : ∀ a, Keeps (f a)) :
    Keeps (m >>= f) := fun s =>
  wp_seq (hm s) fun a t ht => wp_mono (hf a t) fun _ _ hu => hu.trans ht

theorem keeps_ite {c : Prop} [Decidable c] {m m' : M α} (hm : Keeps m) (hm' : Keeps m') :
    Keeps (if c then m else m') := by
  split
  · exact hm
  · exact hm'

theorem keeps_wsect (part : Part) (sec : Nat) (buf : Block) : Keeps (wsect part sec buf) := fun _ => rfl

theorem keeps_rsect (sec : Nat) : Keeps (rsect sec) := by
  intro s
  unfold rsect
  rw [wp_bind, wp_get]
  split
  · rfl
  · trivial

theorem keeps_winode (i : Nat) (d : Dinode) :
    Keeps (winode i d) := keeps_bind (keeps_rsect _) fun _ => keeps_wsect _ _ _

theorem keeps_rinode (i : Nat) : Keeps (rinode i) := keeps_bind (keeps_rsect _) fun _ => keeps_pure _

theorem keeps_nextBlock : Keeps nextBlock := fun _ => rfl

theorem keeps_addrOf (d : Dinode) (k : Nat) : Keeps (addrOf d k) :=
  keeps_ite (keeps_bind keeps_nextBlock fun _ => keeps_pure _) (keeps_pure _)

theorem keeps_blockOf (d : Dinode) (fbn : Nat) : Keeps (blockOf d fbn) := by
  refine keeps_ite (keeps_bind (keeps_addrOf d fbn) fun _ => keeps_pure _)
    (keeps_bind (keeps_addrOf d NDIRECT) fun d' => keeps_bind ?_ fun _ => keeps_pure _)
  refine keeps_bind (keeps_rsect _) fun b => keeps_ite ?_ (keeps_pure _)
  exact keeps_bind keeps_nextBlock fun _ => keeps_bind (keeps_wsect _ _ _) fun _ => keeps_pure _

theorem keeps_iappend (i : Nat) (p : List UInt8) : Keeps (iappend i p) := by
  have hloop (fuel : Nat) : ∀ d off p, Keeps (iappendFrom fuel d off p) := by
    induction fuel with
    | zero => intro d off p; exact keeps_pure _
    | succ fuel ih =>
      intro d off p
      refine keeps_ite (keeps_ite (keeps_bind (keeps_blockOf _ _) fun r => ?_) (keeps_throw _)) (keeps_pure _)
      exact keeps_bind (keeps_rsect _) fun _ => keeps_bind (keeps_wsect _ _ _) fun _ => ih _ _ _
  exact keeps_bind (keeps_rinode _) fun d => keeps_bind (hloop _ _ _ _) fun r => keeps_winode _ _

theorem keeps_forM {f : α → M Unit} (h : ∀ a, Keeps (f a)) (l : List α) : Keeps (l.forM f) := by
  induction l with
  | nil => exact keeps_pure ()
  | cons a l ih => exact keeps_bind (h a) fun _ => ih

theorem ialloc_next (type : Int16) (s : St) :
    wp (ialloc type) (fun _ t => t.freeinode = s.freeinode + 1) (fun _ => True) s := by
  unfold ialloc
  simp only [wp_bind, wp_get, wp_set]
  exact keeps_winode _ _ _

theorem addFile_next (f : Arg) (s : St) :
    wp (addFile ROOTINO f) (fun _ t => t.freeinode = s.freeinode + 1) (fun _ => True) s := by
  unfold addFile
  split
  · trivial
  cases f.reads with
  | none => trivial
  | some ps =>
    rw [wp_ite]
    split
    · refine wp_seq (ialloc_next _ s) fun i t ht => ?_
      refine wp_mono (keeps_bind (keeps_iappend _ _) (fun _ => keeps_forM (fun p => keeps_iappend _ p) ps) t)
        fun _ u hu => hu.trans ht
    · trivial

theorem addFiles_next (files : List Arg) :
    ∀ s, wp (files.forM (addFile ROOTINO)) (fun _ t => t.freeinode = s.freeinode + files.length)
    (fun _ => True) s := by
  induction files with
  | nil => intro s; rfl
  | cons f files ih =>
    intro s
    refine wp_seq (addFile_next f s) fun _ t ht => wp_mono (ih t) fun _ u hu => ?_
    rw [hu, List.length_cons]
    omega

/-- Every file takes the next inode number, whatever NINODES is. -/
theorem image_inodes (h : image files = .ok s) : s.freeinode = files.length + 2 := by
  have hrun : wp (main files) (fun _ t => t.freeinode = files.length + 2) (fun _ => True) start := by
    have hzero : Keeps wzeroes := by
      unfold wzeroes
      exact keeps_forM (fun i => keeps_wsect _ _ _) _
    refine wp_seq (hzero start) fun _ t ht => wp_seq (keeps_wsect _ _ _ t) fun _ u hu =>
      wp_seq (ialloc_next _ u) fun r v hv => ?_
    have hv : v.freeinode = 2 := by rw [hv, hu, ht]; rfl
    split
    · refine wp_seq (keeps_iappend _ _ v) fun _ w hw => wp_seq (keeps_iappend _ _ w) fun _ x hx => ?_
      rw [‹r = ROOTINO›]
      refine wp_seq (addFiles_next files x) fun _ y hy => wp_seq (keeps_rinode _ y) fun d z hz =>
        wp_seq (keeps_winode _ _ z) fun _ z' hz' => ?_
      refine wp_mono (keeps_ite (keeps_wsect _ _ _) (keeps_throw _) z') fun _ t' ht' => ?_
      omega
    · trivial
  unfold image at h
  cases hm : main files start with
  | error e => rw [hm] at h; cases h
  | ok r =>
    rw [hm] at h
    cases h
    have hend := wp_ok hrun hm
    exact hend

end

/-! ## Staying inside the layout -/

/-- The volume as the image has it. -/
def vol (s : St) : Vol where
  ino := fun i => getDinode (s.img (sb.IBLOCK i)) (ioff i)
  used := fun b => (s.img (sb.BBLOCK b)).bit (b % BPB)
  blk := s.img

/-- Every inode number handed out is one of the file system's, every block number that an
    inode holds is one of its blocks, and no write went to another part than meant. -/
structure Confined (s : St) : Prop where
  inodes : ∀ i, 1 ≤ i → i < s.freeinode → i < sb.ninodes
  blocks : ∀ i, 1 ≤ i → i < s.freeinode → ∀ k, (vol s).slot i k < sb.size
  parts : ∀ w ∈ s.writes, w.1.Has w.2

section

variable {s : St} {V : Vol}

theorem good_ino (h : Good s V none) {i : Nat} (hc : i < cap) :
    (vol s).ino i = V.ino i := h.ino i hc (Option.some_ne_none i).symm

/-- An allocated inode has the same blocks in both. -/
theorem good_slot (h : Good s V none) {i : Nat} (hi : Live wide V i) (k : Nat) : (vol s).slot i k = V.slot i k := by
  refine slot_congr k (fun j => ?_) fun h12 => ?_
  · rw [good_ino h hi.1]
  · exact h.blk _ (good_holds h (holds_ind hi h12)).1

end

/-- An image stays inside the layout exactly if the files and the root have inodes. -/
theorem image_confined (files : List Arg) (s : St) (h : image files = .ok s) :
    Confined s ↔ files.length + 2 ≤ NINODES := by
  have hin := image_inodes h
  constructor
  · intro hc
    have := hc.inodes (files.length + 1) (by omega) (by omega)
    exact this
  · intro hn
    have hcap : NINODES ≤ cap := by decide
    obtain ⟨V, hV⟩ := image_final (by omega) h
    have hlive {i : Nat} (h1 : 1 ≤ i) (h2 : i < s.freeinode) : Live wide V i :=
      (good_live hV.good (by omega)).mpr ⟨h1, h2⟩
    refine ⟨fun i _ hi => ?_, fun i h1 h2 k => ?_, hV.good.parts⟩
    · show i < NINODES
      omega
    · rw [good_slot hV.good (hlive h1 h2)]
      by_cases h0 : V.slot i k = 0
      · rw [h0]
        decide
      · exact (hV.good.sound.range i k _ ⟨hlive h1 h2, rfl, h0⟩).2

def small (k : Nat) : Arg where
  argv := [UInt8.ofNat (97 + k / 64 % 16), UInt8.ofNat (64 + k % 64)]
  string := by
    have hne (n : Nat) (h0 : 0 < n) (h1 : n < 256) : (0 : UInt8) ≠ UInt8.ofNat n := by
      intro e
      have := congrArg UInt8.toNat e
      rw [UInt8.toNat_ofNat_of_lt' h1] at this
      simp at this
      omega
    simp only [List.mem_cons, List.not_mem_nil, or_false, not_or]
    exact ⟨hne _ (by omega) (by omega), hne _ (by omega) (by omega)⟩
  reads := some []
  sizes := fun ps h => by cases h; exact fun p hp => absurd hp List.not_mem_nil

def smalls (n : Nat) : List Arg := (List.range n).map small

/-- Nothing is wrong with these files as long as their inodes fit the inode sectors. -/
theorem smalls_ok {n : Nat} (hn : n + 2 ≤ cap) : Stops (fun _ => False) (smalls n) := by
  have hnames : ∀ k < 206, slash ∉ (small k).base ∧ (small k).shortname.length ≤ DIRSIZ := by decide +kernel
  have hmem (f : Arg) (hf : f ∈ smalls n) : ∃ k < 206, f = small k := by
    obtain ⟨k, hk, rfl⟩ := List.mem_map.mp hf
    have hk' := List.mem_range.mp hk
    have : n + 2 ≤ 208 := hn
    exact ⟨k, by omega, rfl⟩
  have hdata : (smalls n).map Arg.data = List.replicate n [] := by
    unfold smalls
    rw [List.map_map]
    exact List.eq_replicate_iff.mpr ⟨by simp, fun l hl => by obtain ⟨k, -, rfl⟩ := List.mem_map.mp hl; rfl⟩
  refine ⟨fun f hf hs => ?_, fun f hf hr => ?_, fun f hf hl => ?_, fun f hf hb => ?_, fun hfull => ?_⟩
  · obtain ⟨k, hk, rfl⟩ := hmem f hf
    exact (hnames k hk).1 hs
  · obtain ⟨k, -, rfl⟩ := hmem f hf
    cases hr
  · obtain ⟨k, hk, rfl⟩ := hmem f hf
    exact absurd (hnames k hk).2 (by omega)
  · obtain ⟨k, -, rfl⟩ := hmem f hf
    exact absurd hb (Nat.not_lt_zero _)
  · have hroot : need (DESIZE * (n + 2)) ≤ need (DESIZE * 208) := need_mono (Nat.mul_le_mul_left _ hn)
    have hneed : nmeta + need (DESIZE * 208) ≤ FSSIZE := by decide
    unfold total at hfull
    have hsum : (List.replicate n 0).sum = 0 := by simp
    rw [hdata, rootBytes_length, List.map_replicate, List.length_nil, need_zero] at hfull
    simp only [smalls, List.length_map, List.length_range] at hfull
    omega

/-- As many files as there are inodes for. -/
theorem image_confined_full : ∃ s, image (smalls 198) = .ok s ∧ Confined s := by
  obtain ⟨s, V, h, -⟩ := image_ok (by decide +kernel : (smalls 198).length + 2 ≤ cap) (smalls_ok (by decide))
  exact ⟨s, h, (image_confined _ s h).mpr (by decide +kernel)⟩

/-- One more, and inode 200 of 200 is used, without an error. -/
theorem image_overflows : ∃ s, image (smalls 199) = .ok s ∧ 200 < s.freeinode ∧ ¬ Confined s := by
  obtain ⟨s, V, h, hV⟩ := image_ok (by decide +kernel : (smalls 199).length + 2 ≤ cap) (smalls_ok (by decide))
  have hlen : (smalls 199).length = 199 := by decide +kernel
  have hin : s.freeinode = 201 := by rw [hV.inodes, hlen]
  refine ⟨s, h, by omega, fun hc => ?_⟩
  have : 200 < 200 := hc.inodes 200 (by omega) (by omega)
  omega

end Xv6.Mkfs
