/-
  Xv6.Fs.PathCalls — the books over a call, and the calls that take a path: such a call ends
  with as many transactions, locks and buffers as it began with, on every way out.
-/

import Xv6.Fs.Books

namespace Xv6.Fs

open Lib

def Idle (proc : Fin NPROC → Proc) : Prop := ∀ p fd, (proc p).live = false → (proc p).ofile fd = none

variable {proc : Fin NPROC → Proc}

theorem idle_upd {p : Fin NPROC} {x : Proc} (h : Idle proc)
    (hx : x.live = false → ∀ fd, x.ofile fd = none) : Idle (upd proc p x) := by
  refine fun r fd => upd_forall (Q := fun _ (x : Proc) => x.live = false → x.ofile fd = none) (fun hr => hx hr fd) ?_ r
  exact fun r _ => h r fd

theorem idle_live {p : Fin NPROC} {x : Proc} (h : Idle proc) (hp : (proc p).live = true)
    (hx : x.live = (proc p).live) : Idle (upd proc p x) := by
  refine idle_upd h ?_
  intro hdead
  rw [hx, hp] at hdead
  cases hdead

/-- The books of a call that owes no descriptor. -/
structure Square (fb : Prop) (c : Call) : Prop extends Books fb c fun _ => 0 where
  idle : fb → Idle c.proc

def Done (fb : Prop) (c : Call) (t : St) : Prop :=
  ∃ file proc pipe kept, Acc { c with file := file, proc := proc, pipe := pipe, kept := kept } t [] [] ∧
    Square fb { c with file := file, proc := proc, pipe := pipe, kept := kept }

section calls

variable {sb : Superblock} {fb : Prop} {c : Call} {s : St} {p : Fin NPROC} {ip : Idx}

theorem done_same (h : Acc c s [] []) (hb : Square fb c) : Done fb c s := ⟨c.file, c.proc, c.pipe, c.kept, h, hb⟩

variable {δ : Fin NFILE → Int} {T L : List Idx} {E : Panic → Prop} {f : Fin NFILE} {path : User}

theorem books_out {o : Int} (hb : Books fb c δ) : Books fb { c with out := o } δ :=
  ⟨hb.kept, hb.free, hb.slots, hb.ends⟩

theorem acc_getCwd {Q : Idx → St → Prop} (h : Acc c s T L) (hq : Q (c.proc p).cwd s) : wp (getCwd p) Q E s := by
  show Q (s.proc p).cwd s
  rwa [h.proc]

/-- An allocated file comes to stand for the inode in entry `ip`. -/
theorem books_opened {x : File} (hb : Books fb c δ) (h0 : (c.file f).type = .none)
    (href : x.ref = (c.file f).ref) (hpos : 0 < x.ref) (htype : x.type = .inode ∨ x.type = .device) :
    Books fb { c with file := upd c.file f x, kept := held (upd c.file f x) c.proc } δ ∧
      ∀ e, held (upd c.file f x) c.proc e + ([] : List Idx).count e = c.kept e + [x.ip].count e := by
  have hpipe : x.type ≠ .pipe := by
    intro e
    rw [e] at htype
    simp at htype
  refine ⟨books_congr (books_file hb ?_ ?_) ?_, ?_⟩
  · intro hle
    omega
  · intro hf
    refine ends_file (hb.ends hf) ?_
    intro pi w
    refine iff_of_false (fun hx => hpipe hx.2.1) ?_
    intro hx
    have := hx.2.1
    rw [h0] at this
    cases this
  · intro g
    rw [href, Int.sub_self, Int.add_zero, upd_self]
  · intro e
    have h1 := held_file c.file c.proc f x e
    have h2 : (c.file f).holds e = false := by simp [File.holds, h0]
    have h3 : x.holds e = decide (x.ip = e) := by simp [File.holds, hpos, htype]
    rw [h2, h3, ← hb.kept e] at h1
    by_cases he : x.ip = e <;> simpa [he] using h1

/-- A live process counts its current directory. -/
theorem one_le_held {file : Fin NFILE → File} (hp : (proc p).live = true) :
    1 ≤ held file proc (proc p).cwd := by
  have h1 := le_total (fun x : Proc => (x.holds (proc p).cwd).toNat) proc p
  have h2 : ((proc p).holds (proc p).cwd).toNat = 1 := by simp [Proc.holds, hp]
  simp only [h2] at h1
  exact h1.trans (Nat.le_add_left _ _)

/-- A process lets go of its current directory: the reference becomes the call's. -/
theorem acc_dropCwd (h : Acc c s T L) (hb : Books fb c fun _ => 0) (hp : (c.proc p).live = true) :
    Acc { c with kept := fun e => c.kept e - (decide ((c.proc p).cwd = e)).toNat } s ((c.proc p).cwd :: T) L := by
  refine acc_kept h ?_
  intro e
  by_cases he : (c.proc p).cwd = e
  · have h1 : 1 ≤ c.kept e := by
      rw [hb.kept e, ← he]
      exact one_le_held hp
    simp [he]
    omega
  · simp [he]

variable {α : Type} {r : α} [Mild E] {Q : Int → St → Prop}

theorem acc_end (c : Call) {Q : α → St → Prop} (h : Acc { c with out := c.out + 1 } s [] [])
    (hq : ∀ t, Acc c t [] [] → Q r t) :
    wp (endOp >>= fun _ => pure r) Q E s := by
  exact wp_then (acc_endOp h hq)

theorem acc_putEnd (c : Call) {Q : α → St → Prop} (h : Acc { c with out := c.out + 1 } s [ip] [ip])
    (hq : ∀ t, Acc c t [] [] → Q r t) :
    wp (do iunlockput sb ip; endOp; return r) Q E s := by
  exact wp_then (acc_iunlockput h fun t ht => acc_end c ht hq)

/-! ## open, mkdir, mknod, chdir -/

theorem books_openInode {omode : Nat} (h : Acc { c with out := c.out + 1 } s [ip] [ip]) (hb : Square fb c)
    (hp : (c.proc p).live = true) :
    wp (openInode sb p ip omode) (fun _ t => Done fb c t) (Safe fb E) s := by
  unfold openInode
  refine wp_if ?_ ?_
  · intro _
    exact acc_putEnd c h fun t ht => done_same ht hb
  intro _
  refine wp_then (books_filealloc h (books_out hb.toBooks) ?_ ?_)
  · exact acc_putEnd c h fun t ht => done_same ht hb
  intro f file t hnone hacc hbooks hf _ _
  refine wp_then (books_fdalloc hacc hbooks ?_ ?_)
  · show wp (fileclose sb f >>= _) _ (Safe fb E) t
    refine wp_then (books_fileclose hacc hbooks ?_ ?_)
    · intro _
      rw [upd_same]
      omega
    intro file' pipe' kept' t ht hbooks'
    refine acc_putEnd { c with file := file', pipe := pipe', kept := kept' } ht ?_
    intro u hu
    refine ⟨file', c.proc, pipe', kept', hu, books_congr (books_out hbooks') (by simp), hb.idle⟩
  intro fd t hfd hacc hbooks
  have hidle : fb → Idle (upd c.proc p ((c.proc p).withFd fd (some f))) := fun hf => idle_live (hb.idle hf) hp rfl
  -- from the two assignments to the file on
  have hrest : ∀ (g : File → File) t, (∀ x, (g x).ref = x.ref) → (∀ x, (g x).type = .inode ∨ (g x).type = .device) →
      Acc { c with
        out := c.out + 1
        file := upd file f (g (file f))
        proc := upd c.proc p ((c.proc p).withFd fd (some f)) } t [ip] [ip] →
      wp (do
        setFile f fun x => { x with
          ip := ip
          readable := omode &&& O_WRONLY = 0
          writable := omode &&& O_WRONLY ≠ 0 ∨ omode &&& O_RDWR ≠ 0 }
        if omode &&& O_TRUNC ≠ 0 ∧ (s.inode ip).type = T_FILE then itrunc sb ip else pure ()
        iunlock ip
        endOp
        return (fd.1 : Int)) (fun _ t => Done fb c t) (Safe fb E) t := by
    intro g t href htype ht
    refine wp_then (acc_setFile ht ?_)
    intro t ht
    simp only [upd_same, upd_upd] at ht
    let x : File := { g (file f) with
      ip := ip
      readable := omode &&& O_WRONLY = 0
      writable := omode &&& O_WRONLY ≠ 0 ∨ omode &&& O_RDWR ≠ 0 }
    have hopen := books_opened (x := x) hbooks hnone (href _) (by
      show 0 < (g (file f)).ref
      rw [href, hf]
      exact Int.zero_lt_one) (htype _)
    let proc := upd c.proc p ((c.proc p).withFd fd (some f))
    let c' : Call := { c with file := upd file f x, proc := proc, kept := held (upd file f x) proc }
    have hend : ∀ t, Acc { c' with out := c.out + 1 } t [] [ip] →
        wp (do iunlock ip; endOp; return (fd.1 : Int)) (fun _ t => Done fb c t) (Safe fb E) t := by
      intro t ht
      refine wp_then (acc_iunlock ht ?_)
      intro t ht
      refine acc_end c' ht ?_
      intro u hu
      refine ⟨upd file f x, proc, c.pipe, _, hu, books_congr (books_out hopen.1) (by simp), hidle⟩
    have ht : Acc { c' with out := c.out + 1 } t [] [ip] := acc_kept ht hopen.2
    refine wp_if ?_ (fun _ => hend t ht)
    intro _
    exact wp_then (acc_runs (fun B => runs_itrunc sb ip) ht fun _ => hend)
  refine wp_if ?_ ?_
  · intro _
    refine wp_then (acc_setFile hacc ?_)
    intro t ht
    exact hrest (fun x => { x with type := .device, major := (s.inode ip).major }) t (fun _ => rfl)
      (fun _ => .inr rfl) ht
  · intro _
    refine wp_then (acc_setFile hacc ?_)
    intro t ht
    exact hrest (fun x => { x with type := .inode, off := 0 }) t (fun _ => rfl) (fun _ => .inl rfl) ht

theorem books_sysOpen {omode : Nat} (h : Acc c s [] []) (hs : Spare E c.kept 3) (hb : Square fb c)
    (hp : (c.proc p).live = true) : wp (sysOpen sb p path omode) (fun _ t => Done fb c t) (Safe fb E) s := by
  unfold sysOpen
  split
  · exact done_same h hb
  rename_i path _
  refine wp_then (acc_beginOp h ?_)
  intro t ht
  refine wp_then (acc_getCwd ht ?_)
  refine wp_if ?_ ?_
  · intro _
    refine wp_then (acc_create ht (spare_safe hs) ?_ ?_)
    · intro t ht
      exact acc_end c ht fun u hu => done_same hu hb
    · intro ip t ht
      exact books_openInode ht hb hp
  · intro _
    refine wp_then (acc_namei ht (spare_le (spare_safe hs) (by decide)) ?_ ?_)
    · intro t ht
      exact acc_end c ht fun u hu => done_same hu hb
    intro ip t ht
    refine wp_then (acc_ilock ht ?_)
    intro t ht
    refine wp_if ?_ ?_
    · intro _
      exact acc_putEnd c ht fun u hu => done_same hu hb
    · intro _
      exact books_openInode ht hb hp

theorem acc_sysMake {type major minor : Int16} (h : Acc c s [] []) (hs : Spare E c.kept 3)
    (hq : ∀ r t, Acc c t [] [] → Q r t) :
    wp (sysMake sb p path type major minor) Q E s := by
  refine wp_then (acc_beginOp h ?_)
  intro t ht
  split
  · exact acc_end c ht (hq _)
  refine wp_then (acc_getCwd ht ?_)
  refine wp_then (acc_create ht hs ?_ ?_)
  · intro t ht
    exact acc_end c ht (hq _)
  · intro ip t ht
    exact acc_putEnd c ht (hq _)

theorem books_sysChdir (h : Acc c s [] []) (hs : Spare E c.kept 3) (hb : Square fb c)
    (hp : (c.proc p).live = true) : wp (sysChdir sb p path) (fun _ t => Done fb c t) (Safe fb E) s := by
  refine wp_then (acc_beginOp h ?_)
  intro t ht
  split
  · exact acc_end c ht fun u hu => done_same hu hb
  refine wp_then (acc_getCwd ht ?_)
  refine wp_then (acc_namei ht (spare_le (spare_safe hs) (by decide)) ?_ ?_)
  · intro t ht
    exact acc_end c ht fun u hu => done_same hu hb
  intro ip t ht
  refine wp_then (acc_ilock ht ?_)
  intro t ht
  refine wp_if ?_ ?_
  · intro _
    exact acc_putEnd c ht fun u hu => done_same hu hb
  intro _
  refine wp_then (acc_iunlock ht ?_)
  intro t ht
  refine wp_then (acc_getCwd ht ?_)
  refine wp_then (acc_iput (acc_dropCwd ht (books_out hb.toBooks) hp) ?_)
  intro t ht
  let kept := fun e => c.kept e - (decide ((c.proc p).cwd = e)).toNat
  refine wp_then (acc_endOp (c := { c with kept := kept }) ht ?_)
  intro t ht
  refine wp_then (acc_setProc ht ?_)
  intro t ht
  let x : Proc := ⟨(c.proc p).live, ip, (c.proc p).ofile⟩
  refine ⟨c.file, upd c.proc p x, c.pipe, held c.file (upd c.proc p x), acc_kept ht ?_, books_proc hb.toBooks rfl, ?_⟩
  · intro e
    have h1 := held_proc c.file c.proc p x e
    have h2 : x.holds e = decide (ip = e) := by simp [x, Proc.holds, hp]
    have h3 : (c.proc p).holds e = decide ((c.proc p).cwd = e) := by simp [Proc.holds, hp]
    rw [h2, h3, ← hb.kept e] at h1
    show held c.file (upd c.proc p x) e + 0 = c.kept e - (decide ((c.proc p).cwd = e)).toNat + [ip].count e
    have h4 : [ip].count e = (decide (ip = e)).toNat := by
      by_cases hi : ip = e <;> simp [hi]
    have h5 : (decide ((c.proc p).cwd = e)).toNat ≤ c.kept e := by
      by_cases he : (c.proc p).cwd = e
      · rw [hb.kept e, ← he]
        simpa using one_le_held hp
      · simp [he]
    omega
  · intro hf
    exact idle_live (hb.idle hf) hp rfl

/-! ## link and unlink -/

theorem acc_linkBad (c : Call) {Q : Int → St → Prop} (h : Acc { c with out := c.out + 1 } s [ip] [])
    (hq : ∀ t, Acc c t [] [] → Q (-1) t) : wp (linkBad sb ip) Q E s := by
  refine wp_then (acc_ilock h ?_)
  intro t ht
  refine wp_then (acc_setInode (fun _ => rfl) (fun _ => rfl) ht ?_)
  intro _ t ht
  refine wp_then (acc_runs (fun B => runs_iupdate sb ip) ht ?_)
  intro _ t ht
  exact acc_putEnd c ht hq

theorem acc_sysLink {old new : User} (h : Acc c s [] []) (hs : Spare E c.kept 3) (hq : ∀ r t, Acc c t [] [] → Q r t) :
    wp (sysLink sb p old new) Q E s := by
  unfold sysLink
  split
  · refine wp_then (acc_beginOp h ?_)
    intro t ht
    refine wp_then (acc_getCwd ht ?_)
    refine wp_then (acc_namei ht (spare_le hs (by decide)) ?_ ?_)
    · intro t ht
      exact acc_end c ht (hq _)
    intro ip t ht
    refine wp_then (acc_ilock ht ?_)
    intro t ht
    refine wp_if ?_ ?_
    · intro _
      exact acc_putEnd c ht (hq _)
    intro _
    refine wp_then (acc_setInode (fun _ => rfl) (fun _ => rfl) ht ?_)
    intro _ t ht
    refine wp_then (acc_runs (fun B => runs_iupdate sb ip) ht ?_)
    intro _ t ht
    refine wp_then (acc_iunlock ht ?_)
    intro t ht
    refine wp_then (acc_getCwd ht ?_)
    refine wp_then (acc_nameiparent ht hs ?_ ?_)
    · intro t ht
      exact acc_linkBad c ht (hq _)
    intro dp name t ht
    refine wp_then (acc_ilock ht ?_)
    intro t ht
    have hend : ∀ (r : Int) t, Acc { c with out := c.out + 1 } t [dp, ip] [dp] → wp (if r < 0 then do
          iunlockput sb dp
          linkBad sb ip
        else do
          iunlockput sb dp
          iput sb ip
          endOp
          return 0) Q E t := by
      intro r t ht
      refine wp_if ?_ ?_
      · intro _
        refine wp_then (acc_iunlockput ht ?_)
        intro t ht
        exact acc_linkBad c ht (hq _)
      · intro _
        refine wp_then (acc_iunlockput ht ?_)
        intro t ht
        refine wp_then (acc_iput ht ?_)
        intro t ht
        exact acc_end c ht (hq _)
    refine wp_if ?_ ?_
    · intro _
      exact hend (-1) t ht
    · intro _
      rw [wp_bind, wp_getInode, wp_bind]
      exact acc_dirlink ht hs hend
  · exact hq _ s h

theorem acc_sysUnlink (h : Acc c s [] []) (hs : Spare E c.kept 3) (hq : ∀ r t, Acc c t [] [] → Q r t) :
    wp (sysUnlink sb p path) Q E s := by
  unfold sysUnlink
  split
  · exact hq _ s h
  refine wp_then (acc_beginOp h ?_)
  intro t ht
  refine wp_then (acc_getCwd ht ?_)
  refine wp_then (acc_unlinkFind ht hs ?_ ?_)
  · intro t ht
    exact acc_end c ht (hq _)
  intro dp ip off t ht
  refine wp_then (acc_unlinkRemove ht ?_)
  intro t ht
  exact acc_end c ht (hq _)

end calls

end Xv6.Fs
