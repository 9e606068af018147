/-
  Xv6.Fs.Frame — what the code below the inode table leaves alone: whatever the disk
  holds, `balloc`, `bfree`, `bmap`, `itrunc`, `iupdate`, `readi` and `writei` give back
  each buffer they take and touch no reference, no lock of an inode, no open file, no
  process and no pipe.
-/

import Xv6.Fs.Sys

namespace Xv6.Fs

open Lib

/-- The panics of the file table; `stalePage` is a pipe freed twice. -/
def Panic.ofFiles : Panic → Bool
  | .filedup | .fileclose | .stalePage => true
  | _ => false

def NotFiles (x : Panic) : Prop := x.ofFiles = false

/-- Neither of the file table nor of `iget`. -/
def Panic.isPlain : Panic → Bool
  | .igetNoInodes => false
  | x => !x.ofFiles

/-- What admits every plain panic; lemmas about code that has no other are stated for all of
    these. -/
class Mild (E : Panic → Prop) : Prop where
  plain : ∀ x : Panic, x.isPlain = true → E x

instance : Mild NotFiles where
  plain x hx := by cases x <;> first | rfl | cases hx

structure Still (s t : St) : Prop where
  file : t.file = s.file
  proc : t.proc = s.proc
  pipe : t.pipe = s.pipe
  out : t.log.outstanding = s.log.outstanding
  ref : ∀ e, (t.inode e).ref = (s.inode e).ref
  lock : ∀ e, (t.inode e).lock = (s.inode e).lock

theorem Still.refl (s : St) : Still s s := ⟨rfl, rfl, rfl, rfl, fun _ => rfl, fun _ => rfl⟩

theorem Still.trans {s t u : St} (h : Still s t) (h' : Still t u) : Still s u where
  file := h'.file.trans h.file
  proc := h'.proc.trans h.proc
  pipe := h'.pipe.trans h.pipe
  out := h'.out.trans h.out
  ref e := (h'.ref e).trans (h.ref e)
  lock e := (h'.lock e).trans (h.lock e)

/-- Entered with the buffers `B` locked, `m` returns with `B'` locked and nothing else
    changed that a caller has to give back. -/
def Runs {α : Type} (B B' : List Nat) (m : M α) : Prop :=
  ∀ s, s.bufs = B → wp m (fun _ t => Still s t ∧ t.bufs = B') (fun x => x.isPlain = true) s

/-! ## Rules -/

section rules

variable {α β : Type} {B B' B'' : List Nat}

theorem runs_pure (a : α) : Runs B B (pure a) := by
  intro s hs
  exact ⟨.refl s, hs⟩

theorem runs_bind {m : M α} {f : α → M β} (hm : Runs B B' m) (hf : ∀ a, Runs B' B'' (f a)) : Runs B B'' (m >>= f) := by
  intro s hs
  refine wp_seq (hm s hs) ?_
  intro a t ht
  refine wp_mono (hf a t ht.2) ?_
  intro b u hu
  exact ⟨ht.1.trans hu.1, hu.2⟩

theorem runs_throw {x : Panic} (hx : x.isPlain = true) : Runs B B' (throw x : M α) := by
  intro s _
  exact hx

theorem runs_if {c : Prop} [Decidable c] {m m' : M α} (h : Runs B B' m) (h' : Runs B B' m') :
    Runs B B' (if c then m else m') := by
  split
  · exact h
  · exact h'

theorem runs_getInode (ip : Idx) : Runs B B (getInode ip) := by
  intro s hs
  exact ⟨.refl s, hs⟩

theorem runs_setInode {ip : Idx} {f : Inode → Inode} (hr : ∀ i, (f i).ref = i.ref) (hl : ∀ i, (f i).lock = i.lock) :
    Runs B B (setInode ip f) := by
  intro s hs
  refine ⟨⟨rfl, rfl, rfl, rfl, ?_, ?_⟩, hs⟩
  · intro e
    show (upd s.inode ip (f (s.inode ip)) e).ref = _
    by_cases he : e = ip
    · rw [he, upd_same, hr]
    · rw [upd_ne _ _ he]
  · intro e
    show (upd s.inode ip (f (s.inode ip)) e).lock = _
    by_cases he : e = ip
    · rw [he, upd_same, hl]
    · rw [upd_ne _ _ he]

theorem runs_bread (b : Nat) : Runs B (b :: B) (bread b) := by
  intro s hs
  refine ⟨⟨rfl, rfl, rfl, rfl, fun _ => rfl, fun _ => rfl⟩, ?_⟩
  show b :: s.bufs = b :: B
  rw [hs]

theorem runs_brelse (b : Nat) : Runs (b :: B) B (brelse b) := by
  intro s hs
  refine ⟨⟨rfl, rfl, rfl, rfl, fun _ => rfl, fun _ => rfl⟩, ?_⟩
  show s.bufs.erase b = B
  rw [hs, List.erase_cons_head]

theorem runs_bdata (b : Nat) : Runs B B (bdata b) := by
  intro s hs
  exact ⟨.refl s, hs⟩

theorem runs_bput (b : Nat) (d : Block) : Runs B B (bput b d) := by
  intro s hs
  exact ⟨⟨rfl, rfl, rfl, rfl, fun _ => rfl, fun _ => rfl⟩, hs⟩

theorem runs_logWrite (b : Nat) : Runs B B (logWrite b) := by
  intro s hs
  unfold logWrite
  rw [wp_bind, wp_get]
  split
  · rename_i l hl
    refine ⟨⟨rfl, rfl, rfl, ?_, fun _ => rfl, fun _ => rfl⟩, hs⟩
    show l.outstanding = s.log.outstanding
    unfold Log.logWrite at hl
    repeat' split at hl
    all_goals first | (cases hl; rfl) | cases hl
  · exact rfl

end rules

/-! ## Blocks -/

section blocks

variable (sb : Superblock) {B : List Nat}

theorem runs_bzero (b : Nat) : Runs B B (bzero b) := by
  refine runs_bind (runs_bread b) ?_
  intro _
  refine runs_bind (runs_bput _ _) ?_
  intro _
  refine runs_bind (runs_logWrite _) ?_
  intro _
  exact runs_brelse b

theorem runs_ballocFrom (fuel b : Nat) : Runs B B (ballocFrom sb fuel b) := by
  induction fuel generalizing b with
  | zero => exact runs_pure 0
  | succ fuel ih =>
    refine runs_if (runs_bind (runs_bread _) ?_) (runs_pure 0)
    intro bp
    split
    · refine runs_bind (runs_bput _ _) ?_
      intro _
      refine runs_bind (runs_logWrite _) ?_
      intro _
      refine runs_bind (runs_brelse _) ?_
      intro _
      refine runs_bind (runs_bzero _) ?_
      intro _
      exact runs_pure _
    · refine runs_bind (runs_brelse _) ?_
      intro _
      exact ih _

theorem runs_balloc : Runs B B (balloc sb) := runs_ballocFrom sb _ _

theorem runs_bfree (b : Nat) : Runs B B (bfree sb b) := by
  refine runs_bind (runs_bread _) ?_
  intro bp
  refine runs_if (runs_bind (runs_bput _ _) ?_) (runs_throw rfl)
  intro _
  refine runs_bind (runs_logWrite _) ?_
  intro _
  exact runs_brelse _

theorem runs_iupdate (ip : Idx) : Runs B B (iupdate sb ip) := by
  refine runs_bind (runs_getInode ip) ?_
  intro i
  refine runs_bind (runs_bread _) ?_
  intro bp
  refine runs_bind (runs_bput _ _) ?_
  intro _
  refine runs_bind (runs_logWrite _) ?_
  intro _
  exact runs_brelse _

end blocks

/-! ## Content -/

section content

variable (sb : Superblock) {B : List Nat} (ip : Idx)

theorem runs_bmapAddr (k : Nat) : Runs B B (bmapAddr sb ip k) := by
  refine runs_bind (runs_getInode ip) ?_
  intro i
  refine runs_if (runs_bind (runs_balloc sb) ?_) (runs_pure _)
  intro addr
  refine runs_if (runs_pure 0) (runs_bind (runs_setInode (fun _ => rfl) (fun _ => rfl)) ?_)
  intro _
  exact runs_pure _

theorem runs_bmapEntry (ind j : Nat) : Runs B B (bmapEntry sb ind j) := by
  refine runs_bind (runs_bread ind) ?_
  intro bp
  refine runs_if (runs_bind (runs_balloc sb) ?_) (runs_bind (runs_brelse ind) fun _ => runs_pure _)
  intro addr
  refine runs_if (runs_bind (runs_brelse ind) fun _ => runs_pure _) (runs_bind (runs_bdata ind) ?_)
  intro bp
  refine runs_bind (runs_bput _ _) ?_
  intro _
  refine runs_bind (runs_logWrite _) ?_
  intro _
  exact runs_bind (runs_brelse ind) fun _ => runs_pure _

theorem runs_bmap (bn : Nat) : Runs B B (bmap sb ip bn) := by
  refine runs_if (runs_bmapAddr sb ip bn) (runs_if (runs_bind (runs_bmapAddr sb ip NDIRECT) ?_) (runs_throw rfl))
  intro addr
  exact runs_if (runs_pure 0) (runs_bmapEntry sb addr _)

theorem runs_itruncDirect (fuel i : Nat) : Runs B B (itruncDirect sb ip fuel i) := by
  induction fuel generalizing i with
  | zero => exact runs_pure ()
  | succ fuel ih =>
    refine runs_bind (runs_getInode ip) ?_
    intro d
    refine runs_if (ih _) (runs_bind (runs_bfree sb _) ?_)
    intro _
    exact runs_bind (runs_setInode (fun _ => rfl) (fun _ => rfl)) fun _ => ih _

theorem runs_itruncIndirect (a : Block) (fuel j : Nat) : Runs B B (itruncIndirect sb a fuel j) := by
  induction fuel generalizing j with
  | zero => exact runs_pure ()
  | succ fuel ih =>
    exact runs_if (ih _) (runs_bind (runs_bfree sb _) fun _ => ih _)

theorem runs_itrunc : Runs B B (itrunc sb ip) := by
  refine runs_bind (runs_itruncDirect sb ip _ _) ?_
  intro _
  refine runs_bind (runs_getInode ip) ?_
  intro i
  have hend : Runs B B (do setInode ip fun x => { x with size := 0 }; iupdate sb ip) :=
    runs_bind (runs_setInode (fun _ => rfl) (fun _ => rfl)) fun _ => runs_iupdate sb ip
  refine runs_if hend (runs_bind (runs_bread _) ?_)
  intro a
  refine runs_bind (runs_itruncIndirect sb a _ _) ?_
  intro _
  refine runs_bind (runs_brelse _) ?_
  intro _
  refine runs_bind (runs_bfree sb _) ?_
  intro _
  exact runs_bind (runs_setInode (fun _ => rfl) (fun _ => rfl)) fun _ => hend

theorem runs_readiFrom (dst : Nat → Bool) (n fuel tot off : Nat) (out : List UInt8) :
    Runs B B (readiFrom sb ip dst n fuel tot off out) := by
  induction fuel generalizing tot off out with
  | zero => exact runs_pure _
  | succ fuel ih =>
    refine runs_if (runs_bind (runs_bmap sb ip _) ?_) (runs_pure _)
    intro addr
    refine runs_if (runs_pure _) (runs_bind (runs_bread addr) ?_)
    intro bp
    refine runs_bind (runs_brelse addr) ?_
    intro _
    exact runs_if (runs_pure _) (ih _ _ _)

theorem runs_readi (dst : Nat → Bool) (off n : Nat) : Runs B B (readi sb ip dst off n) := by
  refine runs_bind (runs_getInode ip) ?_
  intro i
  exact runs_if (runs_pure _) (runs_readiFrom sb ip _ _ _ _ _ _)

theorem runs_writeiFrom (src : Nat → Option UInt8) (n fuel tot off : Nat) :
    Runs B B (writeiFrom sb ip src n fuel tot off) := by
  induction fuel generalizing tot off with
  | zero => exact runs_pure _
  | succ fuel ih =>
    refine runs_if (runs_bind (runs_bmap sb ip _) ?_) (runs_pure _)
    intro addr
    refine runs_if (runs_pure _) (runs_bind (runs_bread addr) ?_)
    intro bp
    refine runs_bind (runs_bput _ _) ?_
    intro _
    refine runs_if (runs_bind (runs_brelse addr) fun _ => runs_pure _) (runs_bind (runs_logWrite _) ?_)
    intro _
    exact runs_bind (runs_brelse addr) fun _ => ih _ _

theorem runs_writei (src : Nat → Option UInt8) (off n : Nat) : Runs B B (writei sb ip src off n) := by
  refine runs_bind (runs_getInode ip) ?_
  intro i
  refine runs_if (runs_pure _) (runs_if (runs_pure _) (runs_bind (runs_writeiFrom sb ip src _ _ _ _) ?_))
  rintro ⟨tot, off'⟩
  refine runs_bind (runs_setInode (fun _ => rfl) (fun _ => rfl)) ?_
  intro _
  exact runs_bind (runs_iupdate sb ip) fun _ => runs_pure _

end content

/-! ## Directories -/

section directories

variable (sb : Superblock) {B : List Nat} (dp : Idx)

theorem runs_freeEntry (fuel off : Nat) : Runs B B (freeEntry sb dp fuel off) := by
  induction fuel generalizing off with
  | zero => exact runs_pure _
  | succ fuel ih =>
    refine runs_bind (runs_getInode dp) ?_
    intro d
    refine runs_if (runs_bind (runs_readi sb dp _ _ _) ?_) (runs_pure _)
    rintro ⟨r, de⟩
    exact runs_if (runs_throw rfl) (runs_if (runs_pure _) (ih _))

theorem runs_isdirempty : Runs B B (isdirempty sb dp) := by
  have hloop : ∀ fuel off, Runs B B (isdiremptyFrom sb dp fuel off) := by
    intro fuel
    induction fuel with
    | zero => exact fun _ => runs_pure _
    | succ fuel ih =>
      intro off
      refine runs_bind (runs_getInode dp) ?_
      intro d
      refine runs_if (runs_bind (runs_readi sb dp _ _ _) ?_) (runs_pure _)
      rintro ⟨r, de⟩
      exact runs_if (runs_throw rfl) (runs_if (runs_pure _) (ih _))
  exact runs_bind (runs_getInode dp) fun d => hloop _ _

end directories

end Xv6.Fs
