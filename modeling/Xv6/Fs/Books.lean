/-
  Xv6.Fs.Books — the books of the inode table and of the file table, kept by every call of
  any process. An entry of the inode table is referenced once by each open file and each
  current directory in it; an entry of the file table once by each descriptor; an end of a
  pipe is open while an open file stands for it.
-/

import Xv6.Fs.Accounts

namespace Xv6.Fs

open Lib

/-! ## Who holds what -/

def File.holds (x : File) (e : Idx) : Bool := 0 < x.ref ∧ (x.type = .inode ∨ x.type = .device) ∧ x.ip = e

def Proc.holds (x : Proc) (e : Idx) : Bool := x.live ∧ x.cwd = e

/-- The number of open files and current directories in entry `e`. -/
def held (file : Fin NFILE → File) (proc : Fin NPROC → Proc) (e : Idx) : Nat :=
  total (fun x => (x.holds e).toNat) file + total (fun x => (x.holds e).toNat) proc

def Proc.withFd (x : Proc) (fd : Fin NOFILE) (o : Option (Fin NFILE)) : Proc := { x with ofile := upd x.ofile fd o }

def Proc.slots (x : Proc) (f : Fin NFILE) : Nat := total (fun o => (decide (o = some f)).toNat) x.ofile

def slots (proc : Fin NPROC → Proc) (f : Fin NFILE) : Nat := total (fun x => x.slots f) proc

def Pipe.isOpen (x : Pipe) (w : Bool) : Bool := if w then x.writeopen else x.readopen

/-- An open file that is the read end (`w = false`) or the write end of pipe `pi`. -/
def File.isEnd (x : File) (pi : Nat) (w : Bool) : Prop := 0 < x.ref ∧ x.type = .pipe ∧ x.pipe = pi ∧ x.writable = w

/-- A pipe's page is in use while an end is open, and an end while a file stands for it. -/
structure Ends (file : Fin NFILE → File) (pipe : Nat → Pipe) : Prop where
  alive : ∀ pi, (pipe pi).alive = true ↔ ∃ w, (pipe pi).isOpen w = true
  isOpen : ∀ pi w, (pipe pi).isOpen w = true ↔ ∃ f, (file f).isEnd pi w
  one : ∀ pi w f g, (file f).isEnd pi w → (file g).isEnd pi w → f = g

theorem held_file (file : Fin NFILE → File) (proc : Fin NPROC → Proc) (f : Fin NFILE) (x : File) (e : Idx) :
    held (upd file f x) proc e + ((file f).holds e).toNat = held file proc e + (x.holds e).toNat := by
  have := total_upd (fun x : File => (x.holds e).toNat) file f x
  unfold held
  omega

theorem held_proc (file : Fin NFILE → File) (proc : Fin NPROC → Proc) (p : Fin NPROC) (x : Proc) (e : Idx) :
    held file (upd proc p x) e + ((proc p).holds e).toNat = held file proc e + (x.holds e).toNat := by
  have := total_upd (fun x : Proc => (x.holds e).toNat) proc p x
  unfold held
  omega

theorem held_file_same {file : Fin NFILE → File} (proc : Fin NPROC → Proc) {f : Fin NFILE} {x : File} {e : Idx}
    (h : x.holds e = (file f).holds e) : held file proc e = held (upd file f x) proc e := by
  have := held_file file proc f x e
  rw [h] at this
  omega

theorem held_proc_same (file : Fin NFILE → File) {proc : Fin NPROC → Proc} {p : Fin NPROC} {x : Proc} {e : Idx}
    (h : x.holds e = (proc p).holds e) : held file proc e = held file (upd proc p x) e := by
  have := held_proc file proc p x e
  rw [h] at this
  omega

theorem slots_set (proc : Fin NPROC → Proc) (p : Fin NPROC) (fd : Fin NOFILE) (o : Option (Fin NFILE)) (f : Fin NFILE) :
    slots (upd proc p ((proc p).withFd fd o)) f + (decide ((proc p).ofile fd = some f)).toNat =
      slots proc f + (decide (o = some f)).toNat := by
  have h1 := total_upd (fun x : Proc => x.slots f) proc p ((proc p).withFd fd o)
  have h2 := total_upd (fun o : Option (Fin NFILE) => (decide (o = some f)).toNat) (proc p).ofile fd o
  have h3 := le_total (fun x : Proc => x.slots f) proc p
  unfold slots
  simp only [Proc.slots, Proc.withFd] at h1 h3 ⊢
  omega

variable {f : Fin NFILE}

theorem le_slots {proc : Fin NPROC → Proc} {p : Fin NPROC} {fd : Fin NOFILE}
    (h : (proc p).ofile fd = some f) : 1 ≤ slots proc f := by
  have h1 := le_total (fun x : Proc => x.slots f) proc p
  have h2 := le_total (fun o : Option (Fin NFILE) => (decide (o = some f)).toNat) (proc p).ofile fd
  have h3 : (decide ((proc p).ofile fd = some f)).toNat = 1 := by rw [decide_eq_true h]; rfl
  rw [h3] at h2
  exact h2.trans h1

variable {file : Fin NFILE → File} {pipe : Nat → Pipe} {pi : Nat}

theorem free_upd {x : File} (hx : x.ref ≤ 0 → x.type = .none) (h : ∀ g, (file g).ref ≤ 0 → (file g).type = .none) :
    ∀ g, (upd file f x g).ref ≤ 0 → (upd file f x g).type = .none :=
  upd_forall (Q := fun _ (x : File) => x.ref ≤ 0 → x.type = .none) hx fun g _ => h g

/-- What does not stand for the end of a pipe leaves the ends alone. -/
theorem ends_file {x : File} (h : Ends file pipe) (hx : ∀ pi w, x.isEnd pi w ↔ (file f).isEnd pi w) :
    Ends (upd file f x) pipe := by
  have hiff : ∀ g, ∀ pi w, (upd file f x g).isEnd pi w ↔ (file g).isEnd pi w :=
    upd_forall (Q := fun g (y : File) => ∀ pi w, y.isEnd pi w ↔ (file g).isEnd pi w) hx fun _ _ _ _ => Iff.rfl
  refine ⟨h.alive, ?_, ?_⟩
  · intro pi w
    rw [h.isOpen pi w]
    exact exists_congr fun g => (hiff g pi w).symm
  · intro pi w g g' hg hg'
    exact h.one pi w g g' ((hiff g pi w).mp hg) ((hiff g' pi w).mp hg')

/-! ## The books -/

/-- The books in the middle of a call. The call owes `δ f` descriptors for file `f`; the
    file table is looked at only under `fb`, so that the inode table's books can be kept
    without it. -/
structure Books (fb : Prop) (c : Call) (δ : Fin NFILE → Int) : Prop where
  kept : ∀ e, c.kept e = held c.file c.proc e
  free : ∀ f, (c.file f).ref ≤ 0 → (c.file f).type = .none
  slots : fb → ∀ f, (c.file f).ref = slots c.proc f + δ f
  ends : fb → Ends c.file c.pipe

/-- What may stop a call: under `fb` only what `E` admits, so not the file table if `E` does
    not admit that. -/
def Safe (fb : Prop) (E : Panic → Prop) (x : Panic) : Prop := fb → E x

instance {fb : Prop} {E : Panic → Prop} [Mild E] : Mild (Safe fb E) where
  plain x hx _ := Mild.plain x hx

variable {E : Panic → Prop}

theorem spare_safe {fb : Prop} {kept : Idx → Nat} {n : Nat} (h : Spare E kept n) : Spare (Safe fb E) kept n :=
  h.imp_right fun hx _ => hx

section rules

variable {fb : Prop} {c : Call} {s : St} {T T' L : List Idx} {δ : Fin NFILE → Int} {f : Fin NFILE} {kept : Idx → Nat}

theorem acc_kept (h : Acc c s T L) (hr : ∀ e, kept e + T'.count e = c.kept e + T.count e) :
    Acc { c with kept := kept } s T' L where
  __ := h
  refs e := by
    have h1 := h.refs e
    have h2 := hr e
    show (s.inode e).ref = kept e + T'.count e
    omega

variable {Q : Unit → St → Prop} {p : Fin NPROC} {fd : Fin NOFILE}

theorem acc_setFile {g : File → File} (h : Acc c s T L)
    (hq : ∀ t, Acc { c with file := upd c.file f (g (c.file f)) } t T L → Q () t) : wp (setFile f g) Q E s := by
  refine hq _ ⟨?_, h.proc, h.pipe, h.out, h.bufs, h.refs, h.locks, h.fresh, h.nodup⟩
  show upd s.file f (g (s.file f)) = upd c.file f (g (c.file f))
  rw [h.file]

theorem acc_setProc {g : Proc → Proc} (h : Acc c s T L)
    (hq : ∀ t, Acc { c with proc := upd c.proc p (g (c.proc p)) } t T L → Q () t) : wp (setProc p g) Q E s := by
  refine hq _ ⟨h.file, ?_, h.pipe, h.out, h.bufs, h.refs, h.locks, h.fresh, h.nodup⟩
  show upd s.proc p (g (s.proc p)) = upd c.proc p (g (c.proc p))
  rw [h.proc]

theorem acc_setPipe {pi : Nat} {x : Pipe} (h : Acc c s T L)
    (hq : ∀ t, Acc { c with pipe := upd c.pipe pi x } t T L → Q () t) : wp (setPipe pi x) Q E s := by
  refine hq _ ⟨h.file, h.proc, ?_, h.out, h.bufs, h.refs, h.locks, h.fresh, h.nodup⟩
  show upd s.pipe pi x = upd c.pipe pi x
  rw [h.pipe]

theorem books_congr {δ' : Fin NFILE → Int} (hb : Books fb c δ) (h : ∀ g, δ g = δ' g) : Books fb c δ' :=
  ⟨hb.kept, hb.free, fun hf g => by rw [← h g]; exact hb.slots hf g, hb.ends⟩

/-- A file changes, and with it the references that are not the call's own. -/
theorem books_file {x : File} {pipe : Nat → Pipe} (hb : Books fb c δ) (hfree : x.ref ≤ 0 → x.type = .none)
    (he : fb → Ends (upd c.file f x) pipe) :
    Books fb { c with file := upd c.file f x, pipe := pipe, kept := held (upd c.file f x) c.proc }
      (upd δ f (δ f + (x.ref - (c.file f).ref))) where
  kept _ := rfl
  free := free_upd hfree hb.free
  slots hf g := by
    show (upd c.file f x g).ref = Fs.slots c.proc g + _
    have := hb.slots hf g
    by_cases hg : g = f
    · subst hg
      rw [upd_same, upd_same]
      omega
    · rw [upd_ne _ _ hg, upd_ne _ _ hg]
      exact this
  ends := he

/-- A file changes without coming to stand for anything else. -/
theorem books_count {x : File} (hb : Books fb c δ) (hh : ∀ e, x.holds e = (c.file f).holds e)
    (he : ∀ pi w, x.isEnd pi w ↔ (c.file f).isEnd pi w) (hfree : x.ref ≤ 0 → x.type = .none) :
    Books fb { c with file := upd c.file f x } (upd δ f (δ f + (x.ref - (c.file f).ref))) where
  __ := books_file hb hfree fun hf => ends_file (hb.ends hf) he
  kept e := (hb.kept e).trans (held_file_same c.proc (hh e))

/-- An open file stays open with another count. -/
theorem books_recount {n d : Int} (hb : Books fb c δ) (h : 0 < (c.file f).ref) (hn : 0 < n)
    (hd : n = (c.file f).ref + d) :
    Books fb { c with file := upd c.file f { c.file f with ref := n } } (upd δ f (δ f + d)) := by
  refine books_congr (books_count hb ?_ ?_ ?_) ?_
  · intro e
    simp [File.holds, h, hn]
  · intro pi w
    simp [File.isEnd, h, hn]
  · intro hle
    exact absurd hn (not_lt.mpr hle)
  · intro g
    simp [hd]

theorem books_slot {o : Option (Fin NFILE)} (hb : Books fb c δ) :
    Books fb { c with proc := upd c.proc p ((c.proc p).withFd fd o) }
      (fun g => δ g + (decide ((c.proc p).ofile fd = some g)).toNat - (decide (o = some g)).toNat) where
  kept e := (hb.kept e).trans (held_proc_same c.file rfl)
  free := hb.free
  slots hf g := by
    have h1 := hb.slots hf g
    have h2 := slots_set c.proc p fd o g
    show (c.file g).ref = _
    simp only
    omega
  ends := hb.ends

/-- A free descriptor comes to stand for `f`. -/
theorem books_fill (hb : Books fb c δ) (hnone : fb → (c.proc p).ofile fd = none) :
    Books fb { c with proc := upd c.proc p ((c.proc p).withFd fd (some f)) } (upd δ f (δ f - 1)) := by
  have hslot : Books fb { c with proc := upd c.proc p ((c.proc p).withFd fd (some f)) } _ := books_slot hb
  refine ⟨hslot.kept, hslot.free, ?_, hslot.ends⟩
  intro hf
  refine (books_congr hslot ?_).slots hf
  intro g
  rw [hnone hf]
  by_cases hg : g = f
  · simp [hg]
  · simp [upd_ne _ _ hg, Ne.symm hg]

/-- The descriptor for `f` is cleared; until the file is closed the call owes one. -/
theorem books_clear (hb : Books fb c δ) (hfd : (c.proc p).ofile fd = some f) :
    Books fb { c with proc := upd c.proc p ((c.proc p).withFd fd none) } (upd δ f (δ f + 1)) := by
  refine books_congr (books_slot hb) ?_
  intro g
  rw [hfd]
  by_cases hg : g = f
  · simp [hg]
  · simp [upd_ne _ _ hg, Ne.symm hg]

/-- A process changes in something else than its descriptors. -/
theorem books_proc {x : Proc} (hb : Books fb c δ) (hx : x.ofile = (c.proc p).ofile) :
    Books fb { c with proc := upd c.proc p x, kept := held c.file (upd c.proc p x) } δ where
  kept _ := rfl
  free := hb.free
  slots hf g := by
    have h1 := total_upd (fun x : Proc => x.slots g) c.proc p x
    have h2 : x.slots g = (c.proc p).slots g := by rw [Proc.slots, hx, Proc.slots]
    show (c.file g).ref = Fs.slots (upd c.proc p x) g + δ g
    rw [hb.slots hf g]
    unfold Fs.slots
    omega
  ends := hb.ends

end rules

/-! ## kernel/pipe.c -/

def Pipe.shut (x : Pipe) (w : Bool) : Pipe :=
  let x := if w then { x with writeopen := false } else { x with readopen := false }
  if x.readopen = false ∧ x.writeopen = false then { x with alive := false } else x

theorem shut_isOpen (x : Pipe) (w v : Bool) : (x.shut w).isOpen v = (x.isOpen v && decide (v ≠ w)) := by
  rcases x with ⟨a, r, o⟩
  cases a <;> cases r <;> cases o <;> cases w <;> cases v <;> rfl

theorem shut_alive {x : Pipe} (h : x.alive = true) (w : Bool) : (x.shut w).alive = x.isOpen (!w) := by
  rcases x with ⟨a, r, o⟩
  cases h
  cases r <;> cases o <;> cases w <;> rfl

theorem ends_close {x : File} {w : Bool} (h : Ends file pipe) (hf : (file f).isEnd pi w) (hx : ∀ pi w, ¬ x.isEnd pi w) :
    Ends (upd file f x) (upd pipe pi ((pipe pi).shut w)) := by
  -- one end and the one file for it go together
  have hend : ∀ g pi' w', (upd file f x g).isEnd pi' w' ↔ (file g).isEnd pi' w' ∧ ¬ (pi' = pi ∧ w' = w) := by
    intro g pi' w'
    by_cases hg : g = f
    · subst hg
      rw [upd_same]
      refine iff_of_false (hx _ _) ?_
      rintro ⟨h1, h2⟩
      exact h2 ⟨h1.2.2.1.symm.trans hf.2.2.1, h1.2.2.2.symm.trans hf.2.2.2⟩
    · rw [upd_ne _ _ hg]
      refine ⟨fun h1 => ⟨h1, ?_⟩, And.left⟩
      rintro ⟨rfl, rfl⟩
      exact hg (h.one _ _ g f h1 hf)
  have hopen : ∀ pi' w', (upd pipe pi ((pipe pi).shut w) pi').isOpen w' = true ↔
      (pipe pi').isOpen w' = true ∧ ¬ (pi' = pi ∧ w' = w) := by
    intro pi' w'
    by_cases hp : pi' = pi
    · subst hp
      rw [upd_same, shut_isOpen]
      simp
    · rw [upd_ne _ _ hp]
      simp [hp]
  have halive : (pipe pi).alive = true := (h.alive pi).mpr ⟨w, (h.isOpen pi w).mpr ⟨f, hf⟩⟩
  refine ⟨?_, ?_, ?_⟩
  · intro pi'
    by_cases hp : pi' = pi
    · subst hp
      simp only [hopen]
      rw [upd_same, shut_alive halive]
      constructor
      · intro h1
        exact ⟨!w, h1, by simp⟩
      · rintro ⟨v, h1, h2⟩
        have hv : v = !w := by
          cases v <;> cases w <;> simp_all
        rwa [← hv]
    · rw [upd_ne _ _ hp]
      exact h.alive pi'
  · intro pi' w'
    rw [hopen, h.isOpen pi' w']
    simp only [hend]
    constructor
    · rintro ⟨⟨g, hg⟩, hne⟩
      exact ⟨g, hg, hne⟩
    · rintro ⟨g, hg, hne⟩
      exact ⟨⟨g, hg⟩, hne⟩
  · intro pi' w' g g' hg hg'
    exact h.one pi' w' g g' ((hend _ _ _).mp hg).1 ((hend _ _ _).mp hg').1

/-- Two free files come to stand for the ends of a new pipe. -/
theorem ends_open {f0 f1 : Fin NFILE} {x0 x1 : File} (h : Ends file pipe) (hdead : (pipe pi).alive = false)
    (hne : f0 ≠ f1) (h0 : (file f0).type = .none) (h1 : (file f1).type = .none)
    (hx0 : ∀ pi' w, x0.isEnd pi' w ↔ pi' = pi ∧ w = false)
    (hx1 : ∀ pi' w, x1.isEnd pi' w ↔ pi' = pi ∧ w = true) :
    Ends (upd (upd file f0 x0) f1 x1) (upd pipe pi ⟨true, true, true⟩) := by
  -- no file stood for this page before
  have hno : ∀ g w, ¬ (file g).isEnd pi w := by
    intro g w hg
    rw [(h.alive pi).mpr ⟨w, (h.isOpen pi w).mpr ⟨g, hg⟩⟩] at hdead
    cases hdead
  have hfree : ∀ g pi' w, (file g).type = .none → ¬ (file g).isEnd pi' w := by
    intro g pi' w hg hx
    have := hx.2.1
    rw [hg] at this
    cases this
  have hend : ∀ g pi' w, (upd (upd file f0 x0) f1 x1 g).isEnd pi' w ↔
      (file g).isEnd pi' w ∨ pi' = pi ∧ g = if w then f1 else f0 := by
    intro g pi' w
    by_cases hg1 : g = f1
    · rw [hg1, upd_same, hx1]
      have := hfree f1 pi' w h1
      cases w <;> simp [this, Ne.symm hne]
    rw [upd_ne _ _ hg1]
    by_cases hg0 : g = f0
    · rw [hg0, upd_same, hx0]
      have := hfree f0 pi' w h0
      cases w <;> simp [this, hne]
    rw [upd_ne _ _ hg0]
    cases w <;> simp [hg0, hg1]
  refine ⟨?_, ?_, ?_⟩
  · intro pi'
    by_cases hp : pi' = pi
    · rw [hp, upd_same]
      exact iff_of_true rfl ⟨true, rfl⟩
    · rw [upd_ne _ _ hp]
      exact h.alive pi'
  · intro pi' w
    simp only [hend]
    by_cases hp : pi' = pi
    · subst hp
      rw [upd_same]
      exact iff_of_true (by cases w <;> rfl) ⟨_, .inr ⟨rfl, rfl⟩⟩
    · rw [upd_ne _ _ hp, h.isOpen]
      simp [hp]
  · intro pi' w g g' hg hg'
    rw [hend] at hg hg'
    rcases hg with hg | ⟨rfl, rfl⟩ <;> rcases hg' with hg' | ⟨hp, rfl⟩
    · exact h.one _ _ _ _ hg hg'
    · subst hp
      exact absurd hg (hno _ _)
    · exact absurd hg' (hno _ _)
    · rfl

variable {Q : Unit → St → Prop}

theorem acc_pipeclose {c : Call} {s : St} {T L : List Idx} {w : Bool} (h : Acc c s T L)
    (hstale : (c.pipe pi).alive = false → E .stalePage)
    (hq : ∀ t, Acc { c with pipe := upd c.pipe pi ((c.pipe pi).shut w) } t T L → Q () t) :
    wp (pipeclose pi w) Q E s := by
  unfold pipeclose
  rw [wp_bind, wp_get, h.pipe]
  refine wp_if hstale ?_
  intro _
  unfold Pipe.shut at hq
  refine wp_if ?_ ?_
  · intro hc
    rw [if_pos hc] at hq
    exact acc_setPipe h hq
  · intro hc
    rw [if_neg hc] at hq
    exact acc_setPipe h hq

/-! ## kernel/file.c -/

section files

variable {sb : Superblock} {fb : Prop} {c : Call} {s : St} {T L : List Idx} {δ : Fin NFILE → Int} {f : Fin NFILE}

/-- `ref = 0` and `type = FD_NONE`. -/
def File.closed (x : File) : File := { x with ref := 0, type := .none }

theorem closed_holds (x : File) (e : Idx) : x.closed.holds e = false := by simp [File.holds, File.closed]

theorem closed_isEnd (x : File) (pi : Nat) (w : Bool) : ¬ x.closed.isEnd pi w := by simp [File.isEnd, File.closed]

/-- Once the last descriptor is gone and what the file stood for is closed too. -/
theorem books_closed {pipe : Nat → Pipe} (hb : Books fb c δ) (h1 : (c.file f).ref = 1)
    (he : fb → Ends (upd c.file f (c.file f).closed) pipe) :
    Books fb { c with
      file := upd c.file f (c.file f).closed
      pipe := pipe
      kept := held (upd c.file f (c.file f).closed) c.proc } (upd δ f (δ f - 1)) := by
  refine books_congr (books_file hb (fun _ => rfl) he) ?_
  intro g
  rw [h1]
  rfl

theorem books_filealloc {Q : Option (Fin NFILE) → St → Prop} (h : Acc c s T L) (hb : Books fb c δ)
    (hnone : Q none s)
    (hsome : ∀ f file t, (file f).type = .none → Acc { c with file := file } t T L →
      Books fb { c with file := file } (upd δ f (δ f + 1)) → file f = { c.file f with ref := 1 } →
      (∀ g, g ≠ f → file g = c.file g) → (c.file f).ref = 0 → Q (some f) t) :
    wp filealloc Q (Safe fb E) s := by
  unfold filealloc
  rw [wp_bind, wp_get]
  split
  · rename_i f hf
    have h0 : (c.file f).ref = 0 := by
      have := (first_some hf).1
      rw [h.file] at this
      simpa using this
    have hfree := hb.free f (by omega)
    refine wp_then (acc_setFile h ?_)
    intro t ht
    refine hsome f _ t ?_ ht (books_congr (books_count hb ?_ ?_ ?_) ?_) ?_ ?_ h0
    · rw [upd_same]
      exact hfree
    · intro e
      simp [File.holds, hfree]
    · intro pi w
      simp [File.isEnd, hfree]
    · intro hle
      exact hfree
    · intro g
      simp only [h0]
      rfl
    · rw [upd_same]
    · intro g hg
      exact upd_ne _ _ hg
  · exact hnone

theorem books_filedup (h : Acc c s T L) (hb : Books fb c δ)
    (hpos : fb → 0 < (slots c.proc f : Int) + δ f)
    (hq : ∀ file t, Acc { c with file := file } t T L → Books fb { c with file := file } (upd δ f (δ f + 1)) → Q () t) :
    wp (filedup f) Q (Safe fb E) s := by
  have hff : s.file f = c.file f := by rw [h.file]
  unfold filedup
  show wp (if (s.file f).ref < 1 then _ else _) Q (Safe fb E) s
  rw [hff]
  refine wp_if ?_ ?_
  · intro hlt hf
    have h1 := hb.slots hf f
    have h2 := hpos hf
    omega
  intro hge
  refine acc_setFile h ?_
  intro t ht
  exact hq _ t ht (books_recount hb (by omega) (by omega) rfl)

theorem books_fdalloc {p : Fin NPROC} {Q : Option (Fin NOFILE) → St → Prop} (h : Acc c s T L) (hb : Books fb c δ)
    (hnone : Q none s)
    (hsome : ∀ fd t, (c.proc p).ofile fd = none →
      Acc { c with proc := upd c.proc p ((c.proc p).withFd fd (some f)) } t T L →
      Books fb { c with proc := upd c.proc p ((c.proc p).withFd fd (some f)) } (upd δ f (δ f - 1)) → Q (some fd) t) :
    wp (fdalloc p f) Q (Safe fb E) s := by
  unfold fdalloc
  rw [wp_bind, wp_get]
  split
  · rename_i fd hfd
    have h0 : (c.proc p).ofile fd = none := by
      have := (first_some hfd).1
      rw [h.proc] at this
      simpa using this
    refine wp_then (acc_setProc h ?_)
    intro t ht
    exact hsome fd t h0 ht (books_fill hb fun _ => h0)
  · exact hnone

variable [Mild E]

theorem books_fileclose (h : Acc c s T L) (hb : Books fb c δ)
    (hpos : fb → 0 < (slots c.proc f : Int) + δ f)
    (hq : ∀ file pipe kept t, Acc { c with file := file, pipe := pipe, kept := kept } t T L →
      Books fb { c with file := file, pipe := pipe, kept := kept } (upd δ f (δ f - 1)) → Q () t) :
    wp (fileclose sb f) Q (Safe fb E) s := by
  have hff : s.file f = c.file f := by rw [h.file]
  unfold fileclose
  show wp (if (s.file f).ref < 1 then _ else _) Q (Safe fb E) s
  rw [hff]
  refine wp_if ?_ ?_
  · intro hlt hf
    have h1 := hb.slots hf f
    have h2 := hpos hf
    omega
  intro hge
  refine wp_if ?_ ?_
  · intro hgt
    refine acc_setFile h ?_
    intro t ht
    exact hq _ _ _ t ht (books_recount hb (by omega) hgt rfl)
  intro hle
  have h1 : (c.file f).ref = 1 := by omega
  let file := upd c.file f (c.file f).closed
  have hheld : ∀ e, held (upd c.file f (c.file f).closed) c.proc e + ((c.file f).holds e).toNat = c.kept e := by
    intro e
    have := held_file c.file c.proc f (c.file f).closed e
    rw [closed_holds, ← hb.kept e] at this
    simpa using this
  -- a file that stands for no inode leaves the inode table's books as they are
  have hnone : (∀ e, (c.file f).holds e = false) →
      ∀ e, held (upd c.file f (c.file f).closed) c.proc e + T.count e = c.kept e + T.count e := by
    intro hno e
    have := hheld e
    rw [hno e] at this
    simpa using this
  refine wp_then (acc_setFile h ?_)
  intro t hacc
  refine wp_if ?_ ?_
  · intro htype
    have hend : (c.file f).isEnd (c.file f).pipe (c.file f).writable := ⟨by omega, htype, rfl, rfl⟩
    refine acc_pipeclose hacc ?_ ?_
    · intro hdead hf
      have : (c.pipe (c.file f).pipe).alive = true :=
        ((hb.ends hf).alive _).mpr ⟨_, ((hb.ends hf).isOpen _ _).mpr ⟨f, hend⟩⟩
      rw [show (c.pipe (c.file f).pipe).alive = false from hdead] at this
      cases this
    · intro t ht
      have hno : ∀ e, (c.file f).holds e = false := by simp [File.holds, htype]
      refine hq file (upd c.pipe (c.file f).pipe ((c.pipe (c.file f).pipe).shut (c.file f).writable))
        (held file c.proc) t (acc_kept ht (hnone hno)) (books_closed hb h1 ?_)
      intro hf
      exact ends_close (hb.ends hf) hend (closed_isEnd _)
  intro hpipe
  have hends : fb → Ends (upd c.file f (c.file f).closed) c.pipe := by
    intro hf
    refine ends_file (hb.ends hf) ?_
    intro pi w
    exact iff_of_false (closed_isEnd _ _ _) fun hx => hpipe hx.2.1
  refine wp_if ?_ ?_
  · intro htype
    have hholds : ∀ e, (c.file f).holds e = decide ((c.file f).ip = e) := by
      intro e
      simp only [File.holds, h1]
      simp [htype]
    have hmove : ∀ e, held (upd c.file f (c.file f).closed) c.proc e + ((c.file f).ip :: T).count e =
        c.kept e + T.count e := by
      intro e
      have := hheld e
      rw [hholds e] at this
      rw [← this]
      by_cases he : (c.file f).ip = e
      · simp [he]
        omega
      · simp [he]
    refine wp_then (acc_beginOp (acc_kept hacc hmove) ?_)
    intro t ht
    refine wp_then (acc_iput ht ?_)
    intro t ht
    refine acc_endOp ht ?_
    intro t ht
    exact hq _ _ _ t ht (books_closed hb h1 hends)
  · intro hother
    have hno : ∀ e, (c.file f).holds e = false := by
      intro e
      simp only [File.holds, decide_eq_false_iff_not]
      rintro ⟨_, h2, _⟩
      exact hother h2
    exact hq file c.pipe (held file c.proc) t (acc_kept hacc (hnone hno)) (books_closed hb h1 hends)

end files

end Xv6.Fs
