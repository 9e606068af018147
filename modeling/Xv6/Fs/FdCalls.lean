/-
  Xv6.Fs.FdCalls — the books over the calls that take a descriptor, and over pipe, exec, fork
  and exit.
-/

import Xv6.Fs.PathCalls

namespace Xv6.Fs

open Lib

section calls

variable {sb : Superblock} {fb : Prop} {c : Call} {s : St} {p q : Fin NPROC} {ip : Idx}
  {δ : Fin NFILE → Int} {T L : List Idx} {f : Fin NFILE} {path : User} {fd : Int} {ok : Bool}
  {E : Panic → Prop}

/-! ## Descriptors, dup and fork -/

theorem acc_argfd {Q : Option (Fin NOFILE × Fin NFILE) → St → Prop} (h : Acc c s T L) (hnone : Q none s)
    (hsome : ∀ fd f, (c.proc p).ofile fd = some f → Q (some (fd, f)) s) : wp (argfd p fd) Q E s := by
  unfold argfd
  rw [wp_bind, wp_get, h.proc]
  split
  · rename_i hfd
    cases ho : (c.proc p).ofile ⟨fd.toNat, hfd.2⟩ with
    | none => exact hnone
    | some f => exact hsome _ f ho
  · exact hnone

theorem books_sysDup (h : Acc c s [] []) (hb : Square fb c) (hp : (c.proc p).live = true) :
    wp (sysDup p fd) (fun _ t => Done fb c t) (Safe fb E) s := by
  refine wp_then (acc_argfd h (done_same h hb) ?_)
  intro fd f hfd
  refine wp_then (books_fdalloc h hb.toBooks (done_same h hb) ?_)
  intro fd' t hfd' ht hbooks
  refine wp_then (books_filedup ht hbooks ?_ ?_)
  · intro _
    -- the old and the new descriptor
    have h1 := slots_set c.proc p fd' (some f) f
    have h2 := le_slots hfd
    simp only [upd_same, hfd'] at h1 ⊢
    simp at h1
    omega
  intro file t ht hbooks
  refine ⟨file, upd c.proc p ((c.proc p).withFd fd' (some f)), c.pipe, c.kept, ht, books_congr hbooks (by simp), ?_⟩
  exact fun hf => idle_live (hb.idle hf) hp rfl

/-- `f->off += r` changes nothing that counts. -/
theorem books_off {α : Type} {r : Int} {k : M α} {Q : α → St → Prop} (h : Acc c s T L)
    (hb : Books fb c fun _ => 0)
    (hq : ∀ file t, Acc { c with file := file } t T L → Books fb { c with file := file } (fun _ => 0) →
      wp k Q (Safe fb E) t) :
    wp (if r > 0 then (setFile f fun x => { x with off := add32 x.off r.toNat }) >>= fun _ => k else k) Q
      (Safe fb E) s := by
  refine wp_if ?_ (fun _ => hq c.file s h hb)
  intro _
  refine wp_then (acc_setFile h ?_)
  intro t ht
  refine hq _ t ht (books_congr (books_count hb (fun _ => rfl) (fun _ _ => .rfl) (hb.free f)) (by simp))

/-- The new process' table is filled slot by slot; each file is counted before its slot is. -/
theorem books_dupFiles {fds : List (Fin NOFILE)} {Q : Unit → St → Prop} (h : Acc c s [] []) (hb : Books fb c fun _ => 0)
    (hnodup : fds.Nodup) (hfree : fb → ∀ fd ∈ fds, (c.proc q).ofile fd = none)
    (hq : ∀ file ofile t,
      Acc { c with file := file, proc := upd c.proc q ⟨(c.proc q).live, (c.proc q).cwd, ofile⟩ } t [] [] →
      Books fb { c with file := file, proc := upd c.proc q ⟨(c.proc q).live, (c.proc q).cwd, ofile⟩ } (fun _ => 0) →
      Q () t) :
    wp (dupFiles p q fds) Q (Safe fb E) s := by
  induction fds generalizing c s with
  | nil =>
    have hsame : upd c.proc q ⟨(c.proc q).live, (c.proc q).cwd, (c.proc q).ofile⟩ = c.proc := upd_self c.proc q
    refine hq c.file (c.proc q).ofile s ?_ ?_
    · rw [hsame]
      exact h
    · rw [hsame]
      exact hb
  | cons fd fds ih =>
    have hnd := List.nodup_cons.mp hnodup
    unfold dupFiles
    rw [wp_bind, wp_get, h.proc]
    split
    · exact ih h hb hnd.2 (fun hf fd' hm => hfree hf fd' (.tail _ hm)) hq
    rename_i f hfd
    refine wp_then (books_filedup h hb ?_ ?_)
    · intro _
      have := le_slots hfd
      omega
    intro file t ht hbooks
    refine wp_then (acc_setProc ht ?_)
    intro t ht
    have hbooks' : Books fb { c with file := file, proc := upd c.proc q ((c.proc q).withFd fd (some f)) } fun _ => 0 :=
      books_congr (books_fill hbooks fun hf => hfree hf fd List.mem_cons_self) (by simp)
    refine ih ht hbooks' hnd.2 ?_ ?_
    · intro hf fd' hm
      show (upd c.proc q ((c.proc q).withFd fd (some f)) q).ofile fd' = none
      rw [upd_same]
      show upd (c.proc q).ofile fd (some f) fd' = none
      have hne : fd' ≠ fd := by
        rintro rfl
        exact hnd.1 hm
      rw [upd_ne _ _ hne]
      exact hfree hf fd' (.tail _ hm)
    · intro file' ofile u hu hbooks''
      simp only [upd_same, upd_upd] at hu hbooks''
      exact hq file' ofile u hu hbooks''

theorem books_kfork (h : Acc c s [] []) (hb : Square fb c) (hp : (c.proc p).live = true) :
    wp (kfork p q ok) (fun _ t => Done fb c t) (Safe fb E) s := by
  unfold kfork
  rw [wp_bind, wp_get, h.proc]
  refine wp_if (fun _ => done_same h hb) ?_
  intro hno
  have hq : (c.proc q).live = false := by
    simpa using (not_or.mp hno).2
  have hpq : p ≠ q := by
    rintro rfl
    rw [hp] at hq
    cases hq
  refine wp_then (books_dupFiles h hb.toBooks (List.nodup_finRange _) (fun hf fd _ => hb.idle hf q fd hq) ?_)
  intro file ofile t ht hbooks
  refine wp_then (acc_getCwd ht ?_)
  have hcwd : (upd c.proc q ⟨(c.proc q).live, (c.proc q).cwd, ofile⟩ p).cwd = (c.proc p).cwd := by rw [upd_ne _ _ hpq]
  rw [wp_bind]
  show wp (idup (upd c.proc q _ p).cwd) _ _ t
  rw [hcwd]
  refine acc_idup ht ?_
  intro t ht
  refine acc_setProc ht ?_
  intro t ht
  let x : Proc := ⟨true, (c.proc p).cwd, ofile⟩
  simp only [upd_same, upd_upd] at ht
  have hb' := books_proc (p := q) (x := x) hbooks (by
    show ofile = (upd c.proc q _ q).ofile
    rw [upd_same])
  simp only [upd_upd] at hb'
  refine ⟨file, upd c.proc q x, c.pipe, held file (upd c.proc q x), acc_kept ht ?_, hb', ?_⟩
  · intro e
    have h1 := hbooks.kept e
    have h2 := held_proc file (upd c.proc q ⟨(c.proc q).live, (c.proc q).cwd, ofile⟩) q x e
    have h3 : x.holds e = decide ((c.proc p).cwd = e) := by simp [x, Proc.holds]
    have h4 : Proc.holds ⟨(c.proc q).live, (c.proc q).cwd, ofile⟩ e = false := by simp [Proc.holds, hq]
    simp only [upd_same, upd_upd] at h1 h2
    rw [h3, h4, ← h1] at h2
    show held file (upd c.proc q x) e + 0 = c.kept e + [(c.proc p).cwd].count e
    by_cases he : (c.proc p).cwd = e <;> simpa [he] using h2
  · intro hf
    exact idle_upd (hb.idle hf) (by simp)

/-- Two free files come to stand for the ends of a new pipe. -/
theorem books_piped {f0 f1 : Fin NFILE} {x0 x1 : File} {pi : Nat} (hb : Books fb c δ)
    (hdead : (c.pipe pi).alive = false) (hne : f0 ≠ f1) (h0 : (c.file f0).type = .none)
    (h1 : (c.file f1).type = .none) (hr0 : x0.ref = (c.file f0).ref) (hr1 : x1.ref = (c.file f1).ref)
    (hx0 : x0.isEnd pi false) (hx1 : x1.isEnd pi true) :
    Books fb { c with file := upd (upd c.file f0 x0) f1 x1, pipe := upd c.pipe pi ⟨true, true, true⟩ } δ where
  kept e := by
    have hno : ∀ (x : File), x.type = .none ∨ x.type = .pipe → x.holds e = false := by
      intro x hx
      rcases hx with hx | hx <;> simp [File.holds, hx]
    rw [hb.kept e, held_file_same c.proc ((hno x0 (.inr hx0.2.1)).trans (hno (c.file f0) (.inl h0)).symm)]
    refine held_file_same c.proc ?_
    rw [upd_ne _ _ (Ne.symm hne), hno _ (.inl h1), hno _ (.inr hx1.2.1)]
  free := by
    have hopen : ∀ {x : File} {w}, x.isEnd pi w → x.ref ≤ 0 → x.type = .none :=
      fun hx hle => absurd hx.1 (not_lt.mpr hle)
    exact free_upd (hopen hx1) (free_upd (hopen hx0) hb.free)
  slots hf := by
    refine upd_forall (Q := fun g (x : File) => x.ref = Fs.slots c.proc g + δ g) (hr1.trans (hb.slots hf f1)) ?_
    exact fun g _ => upd_forall (Q := fun g (x : File) => x.ref = Fs.slots c.proc g + δ g) (hr0.trans (hb.slots hf f0))
      (fun g _ => hb.slots hf g) g
  ends hf := by
    refine ends_open (hb.ends hf) hdead hne h0 h1 ?_ ?_
    · intro pi' w
      constructor
      · rintro ⟨_, _, e1, e2⟩
        exact ⟨e1.symm.trans hx0.2.2.1, e2.symm.trans hx0.2.2.2⟩
      · rintro ⟨rfl, rfl⟩
        exact hx0
    · intro pi' w
      constructor
      · rintro ⟨_, _, e1, e2⟩
        exact ⟨e1.symm.trans hx1.2.2.1, e2.symm.trans hx1.2.2.2⟩
      · rintro ⟨rfl, rfl⟩
        exact hx1

/-! ## close, read, write and fstat -/

variable {α : Type} {r : α} [Mild E] {Q : Int → St → Prop}

theorem books_sysClose (h : Acc c s [] []) (hb : Square fb c) (hp : (c.proc p).live = true) :
    wp (sysClose sb p fd) (fun _ t => Done fb c t) (Safe fb E) s := by
  refine wp_then (acc_argfd h (done_same h hb) ?_)
  intro fd f hfd
  refine wp_then (acc_setProc h ?_)
  intro t ht
  refine wp_then (books_fileclose ht (books_clear hb.toBooks hfd) ?_ ?_)
  · intro _
    rw [upd_same]
    omega
  intro file pipe kept t ht hbooks
  refine ⟨file, upd c.proc p ((c.proc p).withFd fd none), pipe, kept, ht, books_congr hbooks (by simp), ?_⟩
  exact fun hf => idle_live (hb.idle hf) hp rfl

theorem books_sysRead {dst : Nat → Bool} {n ext : Int} (h : Acc c s [] []) (hb : Square fb c) :
    wp (sysRead sb p fd dst n ext) (fun _ t => Done fb c t) (Safe fb E) s := by
  refine wp_then (acc_argfd h (done_same h hb) ?_)
  intro fd f _
  show wp (fileread sb f dst n ext) _ (Safe fb E) s
  refine wp_then (wp_if (fun _ => done_same h hb) ?_)
  intro _
  split
  · exact done_same h hb
  · exact done_same h hb
  · refine wp_then (acc_ilock h ?_)
    intro t ht
    refine wp_then (acc_runs (fun B => runs_readi sb _ dst _ _) ht ?_)
    rintro ⟨r, out⟩ t ht
    refine books_off ht hb.toBooks ?_
    intro file t ht hbooks
    refine wp_then (acc_iunlock ht ?_)
    intro u hu
    exact ⟨file, c.proc, c.pipe, c.kept, hu, hbooks, hb.idle⟩
  · intro _
    exact Mild.plain _ rfl

/-- By induction on the chunks left: each one is a transaction of its own. -/
theorem books_filewriteFrom {src : User} {n fuel i : Nat} {file : Fin NFILE → File}
    (h : Acc { c with file := file } s [] [])
    (hb : Square fb { c with file := file }) :
    wp (filewriteFrom sb f src n fuel i) (fun _ t => Done fb c t) (Safe fb E) s := by
  induction fuel generalizing i s file with
  | zero => exact ⟨file, c.proc, c.pipe, c.kept, h, hb⟩
  | succ fuel ih =>
    refine wp_if ?_ (fun _ => ⟨file, c.proc, c.pipe, c.kept, h, hb⟩)
    intro _
    refine wp_then (acc_beginOp h ?_)
    intro t ht
    rw [wp_bind]
    show wp (ilock sb (t.file f).ip >>= _) _ (Safe fb E) t
    refine wp_then (acc_ilock ht ?_)
    intro u hu
    refine wp_then (acc_runs (fun B => runs_writei sb _ _ _ _) hu ?_)
    intro r u hu
    refine books_off hu (books_out hb.toBooks) ?_
    intro file' u hu hbooks
    refine wp_then (acc_iunlock hu ?_)
    intro u hu
    refine wp_then (acc_endOp (c := { c with file := file' }) hu ?_)
    intro u hu
    refine wp_if ?_ ?_
    · intro _
      exact ⟨file', c.proc, c.pipe, c.kept, hu, books_out hbooks, hb.idle⟩
    · intro _
      exact ih hu ⟨books_out hbooks, hb.idle⟩

theorem books_sysWrite {src : User} {n ext : Int} (h : Acc c s [] []) (hb : Square fb c) :
    wp (sysWrite sb p fd src n ext) (fun _ t => Done fb c t) (Safe fb E) s := by
  refine wp_then (acc_argfd h (done_same h hb) ?_)
  intro fd f _
  show wp (filewrite sb f src n ext) _ (Safe fb E) s
  refine wp_then (wp_if (fun _ => done_same h hb) ?_)
  intro _
  split
  · exact done_same h hb
  · exact done_same h hb
  · exact wp_then (books_filewriteFrom h hb)
  · intro _
    exact Mild.plain _ rfl

theorem acc_sysFstat (h : Acc c s [] []) (hq : ∀ r t, Acc c t [] [] → Q r t) : wp (sysFstat sb p fd ok) Q E s := by
  refine wp_then (acc_argfd h (hq _ s h) ?_)
  intro fd f _
  show wp (filestat sb f ok) Q E s
  refine wp_then (wp_if ?_ (fun _ => hq _ s h))
  intro _
  refine wp_then (acc_ilock h ?_)
  intro t ht
  refine wp_then (acc_iunlock ht ?_)
  intro u hu
  exact hq _ u hu

/-! ## pipe -/

/-- The call closes two files that no descriptor stands for. -/
theorem books_closeBoth {Q : α → St → Prop} {f0 f1 : Fin NFILE} (hne : f0 ≠ f1) (h : Acc c s [] [])
    (hb : Books fb c (upd (upd (fun _ => 0) f0 1) f1 1))
    (hq : ∀ file pipe kept t, Acc { c with file := file, pipe := pipe, kept := kept } t [] [] →
      Books fb { c with file := file, pipe := pipe, kept := kept } (fun _ => 0) → Q r t)
    : wp (do fileclose sb f0; fileclose sb f1; return r) Q (Safe fb E) s := by
  refine wp_then (books_fileclose h hb ?_ ?_)
  · intro _
    rw [upd_ne _ _ hne, upd_same]
    omega
  intro file pipe kept t ht hbooks
  refine wp_then (books_fileclose ht hbooks ?_ ?_)
  · intro _
    rw [upd_ne _ _ (Ne.symm hne), upd_same]
    omega
  intro file pipe kept t ht hbooks
  refine hq file pipe kept t ht (books_congr hbooks ?_)
  intro g
  by_cases hg : g = f0
  · simp [hg, upd, hne]
  · by_cases hg1 : g = f1 <;> simp [hg, hg1, upd, Ne.symm hne]

theorem books_pipealloc {page : Option Nat} {Q : Option (Fin NFILE × Fin NFILE) → St → Prop} (h : Acc c s [] [])
    (hb : Books fb c fun _ => 0)
    (hnone : ∀ file pipe kept t, Acc { c with file := file, pipe := pipe, kept := kept } t [] [] →
      Books fb { c with file := file, pipe := pipe, kept := kept } (fun _ => 0) → Q none t)
    (hsome : ∀ rf wf file pipe t, rf ≠ wf → Acc { c with file := file, pipe := pipe } t [] [] →
      Books fb { c with file := file, pipe := pipe } (upd (upd (fun _ => 0) rf 1) wf 1) → Q (some (rf, wf)) t) :
    wp (pipealloc sb page) Q (Safe fb E) s := by
  refine wp_then (books_filealloc h hb (hnone c.file c.pipe c.kept s h hb) ?_)
  intro f0 file t h0 ht hbooks hf0 _ _
  refine wp_then (books_filealloc ht hbooks ?_ ?_)
  · show wp (fileclose sb f0 >>= _) Q (Safe fb E) t
    refine wp_then (books_fileclose ht hbooks ?_ ?_)
    · intro _
      rw [upd_same]
      omega
    intro file' pipe kept t ht hbooks'
    refine hnone file' pipe kept t ht (books_congr hbooks' (by simp))
  intro f1 file' t h1 ht hbooks hf1 hsame hzero
  have hne : f0 ≠ f1 := by
    rintro rfl
    have : (file f0).ref = 0 := hzero
    rw [hf0] at this
    cases this
  have h0' : (file' f0).type = .none := by rw [hsame f0 hne, h0]
  have hδ : ∀ g, upd (upd (fun _ => 0) f0 (0 + 1)) f1 (upd (fun _ => 0) f0 (0 + 1) f1 + 1) g =
      upd (upd (fun _ => (0 : Int)) f0 1) f1 1 g := by
    intro g
    rw [upd_ne _ _ (Ne.symm hne)]
    rfl
  have hbooks := books_congr hbooks hδ
  show wp (kalloc page >>= _) Q (Safe fb E) t
  rw [wp_bind]
  -- out of pages: both files go back
  have hfail : wp (do fileclose sb f0; fileclose sb f1; return none) Q (Safe fb E) t :=
    books_closeBoth hne ht hbooks hnone
  unfold kalloc
  split
  · exact hfail
  rename_i pi
  rw [wp_bind, wp_get, wp_pure]
  cases halive : (t.pipe pi).alive with
  | true => exact hfail
  | false =>
    refine wp_then (acc_setPipe ht ?_)
    intro t' ht'
    refine wp_then (acc_setFile ht' ?_)
    intro t' ht'
    refine wp_then (acc_setFile ht' ?_)
    intro t' ht'
    have hdead : (c.pipe pi).alive = false := by rwa [ht.pipe] at halive
    refine hsome f0 f1 _ _ t' hne ht' (books_piped hbooks hdead hne h0' h1 rfl ?_ ?_ ?_)
    · show (upd file' f0 _ f1).ref = _
      rw [upd_ne _ _ (Ne.symm hne)]
    · refine ⟨?_, rfl, rfl, rfl⟩
      have href : (file' f0).ref = 1 := by
        rw [hsame f0 hne]
        show (file f0).ref = 1
        rw [hf0]
      show 0 < (file' f0).ref
      omega
    · refine ⟨?_, rfl, rfl, rfl⟩
      show 0 < (upd file' f0 _ f1).ref
      rw [upd_ne _ _ (Ne.symm hne), hf1]
      exact Int.zero_lt_one

theorem books_sysPipe {page : Option Nat} (h : Acc c s [] []) (hb : Square fb c)
    (hp : (c.proc p).live = true) : wp (sysPipe sb p page ok) (fun _ t => Done fb c t) (Safe fb E) s := by
  refine wp_then (books_pipealloc h hb.toBooks ?_ ?_)
  · intro file pipe kept t ht hbooks
    exact ⟨file, c.proc, pipe, kept, ht, hbooks, hb.idle⟩
  intro rf wf file pipe t hne ht hbooks
  -- every failure ends by closing both files, with no descriptor left for them
  have hclose : ∀ proc t, Acc { c with file := file, pipe := pipe, proc := proc } t [] [] →
      Books fb { c with file := file, pipe := pipe, proc := proc } (upd (upd (fun _ => 0) rf 1) wf 1) →
      (fb → Idle proc) →
      wp (do fileclose sb rf; fileclose sb wf; return (-1 : Int)) (fun _ t => Done fb c t) (Safe fb E) t := by
    intro proc t ht hbooks hidle
    refine books_closeBoth hne ht hbooks ?_
    intro file pipe kept u hu hbooks
    exact ⟨file, proc, pipe, kept, hu, hbooks, hidle⟩
  refine wp_then (books_fdalloc ht hbooks (hclose c.proc t ht hbooks hb.idle) ?_)
  intro fd0 t hfd0 ht hbooks0
  let proc0 := upd c.proc p ((c.proc p).withFd fd0 (some rf))
  have hlive0 : (proc0 p).live = true := by simp [proc0, Proc.withFd, hp]
  have hidle0 : fb → Idle proc0 := fun hf => idle_live (hb.idle hf) hp rfl
  have hown0 : (proc0 p).ofile fd0 = some rf := by simp [proc0, Proc.withFd]
  refine wp_then (books_fdalloc ht hbooks0 ?_ ?_)
  · show wp (setProc p _ >>= _) _ (Safe fb E) t
    refine wp_then (acc_setProc ht ?_)
    intro t ht
    refine hclose _ t ht (books_congr (books_clear hbooks0 hown0) ?_) (fun hf => idle_live (hidle0 hf) hlive0 rfl)
    intro g
    by_cases hg : g = rf
    · simp [hg, upd, hne]
    · by_cases hg1 : g = wf <;> simp [hg, hg1, upd]
  intro fd1 t hfd1 ht hbooks1
  let proc1 := upd proc0 p ((proc0 p).withFd fd1 (some wf))
  have hidle1 : fb → Idle proc1 := fun hf => idle_live (hidle0 hf) hlive0 rfl
  refine wp_if ?_ ?_
  · intro _
    refine ⟨file, proc1, pipe, c.kept, ht, books_congr hbooks1 ?_, hidle1⟩
    intro g
    by_cases hg : g = rf
    · simp [hg, upd, hne]
    · by_cases hg1 : g = wf <;> simp [hg, hg1, upd, Ne.symm hne]
  intro _
  have hfd : fd0 ≠ fd1 := by
    rintro rfl
    have : (proc0 p).ofile fd0 = none := hfd1
    rw [hown0] at this
    cases this
  have hlive1 : (proc1 p).live = true := by simp [proc1, Proc.withFd, hlive0]
  have hown1 : (proc1 p).ofile = upd (proc0 p).ofile fd1 (some wf) := by simp [proc1, Proc.withFd]
  refine wp_then (acc_setProc ht ?_)
  intro t ht
  have hbooks2 := books_clear hbooks1 (show (proc1 p).ofile fd0 = some rf by rw [hown1, upd_ne _ _ hfd, hown0])
  let proc2 := upd proc1 p ((proc1 p).withFd fd0 none)
  have hown2 : (proc2 p).ofile fd1 = some wf := by simp [proc2, Proc.withFd, upd_ne _ _ (Ne.symm hfd), hown1]
  have hlive2 : (proc2 p).live = true := by simp [proc2, Proc.withFd, hlive1]
  refine wp_then (acc_setProc ht ?_)
  intro t ht
  refine hclose _ t ht (books_congr (books_clear hbooks2 hown2) ?_)
    (fun hf => idle_live (idle_live (hidle1 hf) hlive1 rfl) hlive2 rfl)
  intro g
  by_cases hg : g = rf
  · simp [hg, upd, hne]
  · by_cases hg1 : g = wf <;> simp [hg, hg1, upd, Ne.symm hne]

/-! ## exec and exit -/

theorem runs_loadseg {B : List Nat} {offset sz : Nat} (fuel i : Nat) : Runs B B (loadseg sb ip offset sz fuel i) := by
  induction fuel generalizing i with
  | zero => exact runs_pure _
  | succ fuel ih =>
    refine runs_if (runs_bind (runs_readi sb ip _ _ _) ?_) (runs_pure _)
    rintro ⟨r, out⟩
    exact runs_if (runs_pure _) (ih _)

theorem runs_loadSegs {B : List Nat} {mem : Nat → Bool} (fuel i off : Nat) :
    Runs B B (loadSegs sb ip mem fuel i off) := by
  induction fuel generalizing i off with
  | zero => exact runs_pure _
  | succ fuel ih =>
    refine runs_bind (runs_readi sb ip _ _ _) ?_
    rintro ⟨r, ph⟩
    refine runs_if (runs_pure _) ?_
    refine runs_if (ih _ _) ?_
    refine runs_if (runs_pure _) ?_
    split
    · exact runs_pure _
    split
    · exact runs_pure _
    refine runs_if (runs_pure _) ?_
    -- which part of the file it is plays no role
    generalize field ph 8 8 % 4294967296 = offset
    generalize field ph 32 8 % 4294967296 = sz
    refine runs_bind (runs_loadseg _ _) ?_
    intro ok
    exact runs_if (ih _ _) (runs_pure _)

theorem acc_sysExec {args table stack : Bool} {mem : Nat → Bool} (h : Acc c s [] []) (hs : Spare E c.kept 3)
    (hq : ∀ r t, Acc c t [] [] → Q r t) : wp (sysExec sb p path args table mem stack) Q E s := by
  unfold sysExec
  split
  · exact hq _ s h
  refine wp_if ?_ (fun _ => hq _ s h)
  intro _
  refine wp_then (acc_beginOp h ?_)
  intro t ht
  refine wp_then (acc_getCwd ht ?_)
  refine wp_then (acc_namei ht (spare_le hs (by decide)) ?_ ?_)
  · intro t ht
    exact acc_end c ht (hq _)
  intro ip t ht
  refine wp_then (acc_ilock ht ?_)
  intro t ht
  refine wp_then (acc_runs (fun B => runs_readi sb ip _ _ _) ht ?_)
  rintro ⟨r, elf⟩ t ht
  refine wp_if ?_ ?_
  · intro _
    exact acc_putEnd c ht (hq _)
  · intro _
    refine wp_then (acc_runs (fun B => runs_loadSegs _ _ _) ht ?_)
    intro ok t ht
    exact acc_putEnd c ht (hq _)

theorem books_closeFiles {fds : List (Fin NOFILE)} {Q : Unit → St → Prop} (h : Acc c s [] [])
    (hb : Books fb c fun _ => 0)
    (hq : ∀ file ofile pipe kept t,
      (∀ fd, fd ∈ fds ∨ (c.proc p).ofile fd = none → ofile fd = none) →
      Acc { c with
        file := file
        proc := upd c.proc p ⟨(c.proc p).live, (c.proc p).cwd, ofile⟩
        pipe := pipe
        kept := kept } t [] [] →
      Books fb { c with
        file := file
        proc := upd c.proc p ⟨(c.proc p).live, (c.proc p).cwd, ofile⟩
        pipe := pipe
        kept := kept } (fun _ => 0) → Q () t) :
    wp (closeFiles sb p fds) Q (Safe fb E) s := by
  induction fds generalizing c s with
  | nil =>
    have hsame : upd c.proc p ⟨(c.proc p).live, (c.proc p).cwd, (c.proc p).ofile⟩ = c.proc := upd_self c.proc p
    refine hq c.file (c.proc p).ofile c.pipe c.kept s ?_ ?_ ?_
    · rintro fd (hm | hn)
      · cases hm
      · exact hn
    · rw [hsame]
      exact h
    · rw [hsame]
      exact hb
  | cons fd fds ih =>
    unfold closeFiles
    rw [wp_bind, wp_get, h.proc]
    split
    · rename_i hfd
      refine ih h hb ?_
      intro file ofile pipe kept t hnone ht hbooks
      refine hq file ofile pipe kept t ?_ ht hbooks
      rintro fd' (hm | hn)
      · rcases List.mem_cons.mp hm with rfl | hm
        · exact hnone fd' (.inr hfd)
        · exact hnone fd' (.inl hm)
      · exact hnone fd' (.inr hn)
    rename_i f hfd
    refine wp_then (books_fileclose h hb ?_ ?_)
    · intro _
      have := le_slots hfd
      omega
    intro file pipe kept t ht hbooks
    refine wp_then (acc_setProc ht ?_)
    intro t ht
    have hbooks' : Books fb { c with
        file := file
        proc := upd c.proc p ((c.proc p).withFd fd none)
        pipe := pipe
        kept := kept } fun _ => 0 :=
      books_congr (books_clear hbooks hfd) (by simp)
    refine ih ht hbooks' ?_
    intro file' ofile pipe' kept' u hnone hu hbooks''
    simp only [upd_same, upd_upd] at hnone hu hbooks''
    refine hq file' ofile pipe' kept' u ?_ hu hbooks''
    rintro fd' (hm | hn)
    · rcases List.mem_cons.mp hm with rfl | hm
      · exact hnone fd' (.inr (upd_same _ _ _))
      · exact hnone fd' (.inl hm)
    · exact hnone fd' (.inr (upd_eq.mpr ((em (fd' = fd)).imp (⟨·, rfl⟩) (⟨·, hn⟩))))

theorem books_kexit (h : Acc c s [] []) (hb : Square fb c)
    (hp : (c.proc p).live = true) : wp (kexit sb p) (fun _ t => Done fb c t) (Safe fb E) s := by
  refine wp_if (fun _ _ => Mild.plain _ rfl) ?_
  intro _
  refine wp_then (books_closeFiles h hb.toBooks ?_)
  intro file ofile pipe kept t hnone ht hbooks
  have hofile : ∀ fd, ofile fd = none := fun fd => hnone fd (.inl (List.mem_finRange fd))
  let proc := upd c.proc p ⟨(c.proc p).live, (c.proc p).cwd, ofile⟩
  have hlive : (proc p).live = true := by simp [proc, hp]
  refine wp_then (acc_beginOp ht ?_)
  intro t ht
  refine wp_then (acc_getCwd ht ?_)
  refine wp_then (acc_iput (acc_dropCwd ht (books_out hbooks) hlive) ?_)
  intro t ht
  let kept' := fun e => kept e - (decide ((proc p).cwd = e)).toNat
  refine wp_then (acc_endOp (c := { c with file := file, proc := proc, pipe := pipe, kept := kept' }) ht ?_)
  intro t ht
  refine acc_setProc ht ?_
  intro t ht
  let x : Proc := ⟨false, (proc p).cwd, (proc p).ofile⟩
  refine ⟨file, upd proc p x, pipe, held file (upd proc p x), acc_kept ht ?_, books_proc hbooks rfl, ?_⟩
  · intro e
    have h1 := held_proc file proc p x e
    have h2 : x.holds e = false := by simp [x, Proc.holds]
    have h3 : (proc p).holds e = decide ((proc p).cwd = e) := by simp [Proc.holds, hlive]
    have h4 : kept e = held file proc e := hbooks.kept e
    rw [h2, h3] at h1
    show held file (upd proc p x) e + 0 = kept e - (decide ((proc p).cwd = e)).toNat + 0
    simp at h1 ⊢
    omega
  · intro hf
    exact idle_upd (idle_live (hb.idle hf) hp rfl) (by simp [proc, hofile])

end calls

end Xv6.Fs
