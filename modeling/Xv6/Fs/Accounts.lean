/-
  Xv6.Fs.Accounts — what a call of fs.c owes. `Acc c s T L`: in the middle of a call the
  inode table counts the references `c.kept` that others have and, on top of them, those in
  `T`, which the call has taken; the call holds the locks `L` and the buffers `c.bufs`, and
  has left everything else in `c` as it is. Nothing is assumed about the disk. Every
  function of fs.c is given by how it changes `T` and `L`, on each of its ways out.
-/

import Xv6.Fs.Frame
import Xv6.Fs.Rep

namespace Xv6.Fs

open Lib

/-- What a call found, and what it has changed on purpose so far; `kept` counts the
    references to an entry that are not the call's own. -/
structure Call where
  out : Int
  bufs : List Nat
  lock : Idx → Bool
  file : Fin NFILE → File
  proc : Fin NPROC → Proc
  pipe : Nat → Pipe
  kept : Idx → Nat

structure Acc (c : Call) (s : St) (T L : List Idx) : Prop where
  file : s.file = c.file
  proc : s.proc = c.proc
  pipe : s.pipe = c.pipe
  out : s.log.outstanding = c.out
  bufs : s.bufs = c.bufs
  refs : ∀ e, (s.inode e).ref = c.kept e + T.count e
  locks : ∀ e, (s.inode e).lock = true ↔ c.lock e = true ∨ e ∈ L
  fresh : ∀ e ∈ L, c.lock e = false
  nodup : L.Nodup

/-- The entries that are referenced so often. -/
def used (kept : Idx → Nat) : Nat := (Finset.univ.filter fun e => kept e ≠ 0).card

/-- The table has `n` entries to spare, or `E` admits that `iget` finds none. -/
def Spare (E : Panic → Prop) (kept : Idx → Nat) (n : Nat) : Prop := used kept + n ≤ NINODE ∨ E .igetNoInodes

theorem spare_le {E : Panic → Prop} {kept : Idx → Nat} {m n : Nat} (h : Spare E kept n) (hm : m ≤ n) : Spare E kept m :=
  h.imp_left fun hn => Nat.le_trans (Nat.add_le_add_left hm _) hn

/-! ## Rules -/

section rules

variable {α : Type} {c : Call} {s t : St} {T T' L L' : List Idx} {ip : Idx} {E : Panic → Prop}

theorem acc_still (h : Acc c s T L) (hs : Still s t) (hb : t.bufs = c.bufs) : Acc c t T L where
  file := hs.file.trans h.file
  proc := hs.proc.trans h.proc
  pipe := hs.pipe.trans h.pipe
  out := hs.out.trans h.out
  bufs := hb
  refs e := (hs.ref e).trans (h.refs e)
  locks e := by rw [hs.lock e]; exact h.locks e
  fresh := h.fresh
  nodup := h.nodup

theorem acc_perm (h : Acc c s T L) (hT : T.Perm T') (hL : L.Perm L') : Acc c s T' L' where
  __ := h
  refs e := by rw [h.refs e, hT.count_eq]
  locks e := by rw [h.locks e, hL.mem_iff]
  fresh e he := h.fresh e (hL.mem_iff.mpr he)
  nodup := hL.nodup_iff.mp h.nodup

theorem acc_bread {b : Nat} {Q : Block → St → Prop} (h : Acc c s T L)
    (hq : ∀ d t, Acc { c with bufs := b :: c.bufs } t T L → Q d t) : wp (bread b) Q E s := by
  refine hq _ _ ⟨h.file, h.proc, h.pipe, h.out, ?_, h.refs, h.locks, h.fresh, h.nodup⟩
  show b :: s.bufs = b :: c.bufs
  rw [h.bufs]

theorem acc_brelse {b : Nat} {Q : Unit → St → Prop} (h : Acc { c with bufs := b :: c.bufs } s T L)
    (hq : ∀ t, Acc c t T L → Q () t) : wp (brelse b) Q E s := by
  refine hq _ ⟨h.file, h.proc, h.pipe, h.out, ?_, h.refs, h.locks, h.fresh, h.nodup⟩
  show s.bufs.erase b = c.bufs
  rw [h.bufs, List.erase_cons_head]

variable {i : Inode}

/-- One entry changes, and with it what the call has taken of it. -/
theorem acc_entry (h : Acc c s T L) (hr : i.ref = c.kept ip + T'.count ip) (hT : ∀ e, e ≠ ip → T'.count e = T.count e)
    (hl : i.lock = true ↔ c.lock ip = true ∨ ip ∈ L') (hL : ∀ e, e ≠ ip → (e ∈ L' ↔ e ∈ L))
    (hfresh : ∀ e ∈ L', c.lock e = false) (hnodup : L'.Nodup) : Acc c { s with inode := upd s.inode ip i } T' L' where
  __ := h
  refs := upd_forall (Q := fun e (x : Inode) => x.ref = c.kept e + T'.count e) hr
    fun e he => by rw [hT e he, h.refs e]
  locks := upd_forall (Q := fun e (x : Inode) => x.lock = true ↔ c.lock e = true ∨ e ∈ L') hl
    fun e he => by rw [hL e he, h.locks e]
  fresh := hfresh
  nodup := hnodup

/-- The call takes or drops references to one entry. -/
theorem acc_ref (h : Acc c s T L) (hr : i.ref = c.kept ip + T'.count ip) (hT : ∀ e, e ≠ ip → T'.count e = T.count e)
    (hl : i.lock = (s.inode ip).lock) : Acc c { s with inode := upd s.inode ip i } T' L :=
  acc_entry h hr hT (by rw [hl, h.locks ip]) (fun _ _ => Iff.rfl) h.fresh h.nodup

theorem acc_take (h : Acc c s T L) (hr : i.ref = (s.inode ip).ref + 1) (hl : i.lock = (s.inode ip).lock) :
    Acc c { s with inode := upd s.inode ip i } (ip :: T) L := by
  refine acc_ref h ?_ ?_ hl
  · rw [hr, h.refs ip, List.count_cons_self]
    omega
  · intro e he
    exact List.count_cons_of_ne (Ne.symm he)

theorem acc_lock (h : Acc c s T L) (hfree : (s.inode ip).lock = false) (hr : i.ref = (s.inode ip).ref)
    (hl : i.lock = true) :
    Acc c { s with inode := upd s.inode ip i } T (ip :: L) := by
  have hout := (h.locks ip).not.mp (by simp [hfree])
  refine acc_entry h (hr.trans (h.refs ip)) (fun _ _ => rfl) (by simp [hl]) (fun e he => by simp [he]) ?_ ?_
  · intro e he
    rcases List.mem_cons.mp he with rfl | he
    · simpa using (not_or.mp hout).1
    · exact h.fresh e he
  · exact List.nodup_cons.mpr ⟨(not_or.mp hout).2, h.nodup⟩

theorem acc_unlock (h : Acc c s T (ip :: L)) (hr : i.ref = (s.inode ip).ref) (hl : i.lock = false) :
    Acc c { s with inode := upd s.inode ip i } T L := by
  have h1 := h.fresh ip List.mem_cons_self
  have h2 := List.nodup_cons.mp h.nodup
  exact acc_entry h (hr.trans (h.refs ip)) (fun _ _ => rfl) (by simp [hl, h1, h2.1]) (fun e he => by simp [he])
    (fun e he => h.fresh e (.tail _ he)) h2.2

variable [Mild E]

theorem acc_runs {m : M α} {Q : α → St → Prop} (hm : ∀ B, Runs B B m) (h : Acc c s T L)
    (hq : ∀ a t, Acc c t T L → Q a t) : wp m Q E s := by
  refine wp_imp (hm c.bufs s h.bufs) ?_ Mild.plain
  intro a t ht
  exact hq a t (acc_still h ht.1 ht.2)

/-- An assignment to an inode that leaves its count and its lock alone. -/
theorem acc_setInode {f : Inode → Inode} {Q : Unit → St → Prop} (hr : ∀ i, (f i).ref = i.ref)
    (hl : ∀ i, (f i).lock = i.lock) (h : Acc c s T L) (hq : ∀ u t, Acc c t T L → Q u t) :
    wp (setInode ip f) Q E s :=
  acc_runs (fun _ => runs_setInode hr hl) h hq

end rules

/-! ## The inode table -/

section table

variable {sb : Superblock} {c : Call} {s : St} {T L : List Idx} {ip : Idx} {E : Panic → Prop}

/-- When every entry is referenced, the call's own references are to blame for the rest. -/
theorem used_full (h : Acc c s T L) (hfull : ∀ e, (s.inode e).ref ≠ 0) : NINODE ≤ used c.kept + T.length := by
  have hcover : (Finset.univ : Finset Idx) ⊆ (Finset.univ.filter fun e => c.kept e ≠ 0) ∪ T.toFinset := by
    intro e _
    rw [Finset.mem_union, Finset.mem_filter, List.mem_toFinset]
    by_cases hk : c.kept e = 0
    · refine .inr (List.count_pos_iff.mp (Nat.pos_of_ne_zero fun h0 => hfull e ?_))
      rw [h.refs e, hk, h0]
      rfl
    · exact .inl ⟨Finset.mem_univ e, hk⟩
  calc NINODE
    _ = (Finset.univ : Finset Idx).card := (Finset.card_fin NINODE).symm
    _ ≤ ((Finset.univ.filter fun e => c.kept e ≠ 0) ∪ T.toFinset).card := Finset.card_le_card hcover
    _ ≤ used c.kept + T.toFinset.card := Finset.card_union_le _ _
    _ ≤ used c.kept + T.length := Nat.add_le_add_left (List.toFinset_card_le T) _

theorem acc_iget {dev inum : Nat} {Q : Idx → St → Prop} (h : Acc c s T L) (hs : Spare E c.kept (T.length + 1))
    (hq : ∀ ip t, Acc c t (ip :: T) L → Q ip t) : wp (iget dev inum) Q E s := by
  unfold iget
  rw [wp_bind, wp_get]
  split
  · rename_i ip _
    exact hq ip _ (acc_take h rfl rfl)
  · split
    · rename_i ip hfree
      have h0 : (s.inode ip).ref = 0 := by simpa using (first_some hfree).1
      refine hq ip _ (acc_take h ?_ rfl)
      rw [h0]
      rfl
    · next hnone =>
      have hfull : ∀ e, (s.inode e).ref ≠ 0 := fun e => by simpa using first_none hnone e
      have := used_full h hfull
      rcases hs with hs | hs
      · omega
      · exact hs

theorem acc_idup {Q : Idx → St → Prop} (h : Acc c s T L) (hq : ∀ t, Acc c t (ip :: T) L → Q ip t) :
    wp (idup ip) Q E s :=
  hq _ (acc_take h rfl rfl)

variable {Q : Unit → St → Prop}

theorem acc_releasesleep (h : Acc c s T (ip :: L)) (hq : ∀ t, Acc c t T L → Q () t) : wp (releasesleep ip) Q E s :=
  hq _ (acc_unlock h rfl rfl)

variable [Mild E]

theorem acc_acquiresleep (h : Acc c s T L) (hq : ∀ t, Acc c t T (ip :: L) → Q () t) : wp (acquiresleep ip) Q E s := by
  refine wp_then (wp_if (fun _ => Mild.plain _ rfl) ?_)
  intro hl
  exact hq _ (acc_lock h (by simpa using hl) rfl rfl)

theorem acc_ilock (h : Acc c s T L) (hq : ∀ t, Acc c t T (ip :: L) → Q () t) : wp (ilock sb ip) Q E s := by
  refine wp_then (wp_if (fun _ => Mild.plain _ rfl) ?_)
  intro _
  refine wp_then (acc_acquiresleep h ?_)
  intro t ht
  refine acc_runs ?_ ht (fun _ => hq)
  intro B
  refine runs_if (runs_pure ()) (runs_bind (runs_bread _) ?_)
  intro bp
  refine runs_bind (runs_brelse _) ?_
  intro _
  exact runs_bind (runs_setInode (fun _ => rfl) (fun _ => rfl)) fun _ => runs_if (runs_throw rfl) (runs_pure ())

theorem acc_iunlock (h : Acc c s T (ip :: L)) (hq : ∀ t, Acc c t T L → Q () t) : wp (iunlock ip) Q E s := by
  refine wp_then (wp_if (fun _ => Mild.plain _ rfl) ?_)
  intro _
  exact acc_releasesleep h hq

theorem acc_iput (h : Acc c s (ip :: T) L) (hq : ∀ t, Acc c t T L → Q () t) : wp (iput sb ip) Q E s := by
  have hdrop : ∀ t, Acc c t (ip :: T) L → wp (setInode ip fun x => { x with ref := x.ref - 1 }) Q E t := by
    intro t ht
    refine hq _ (acc_ref ht ?_ ?_ rfl)
    · show (t.inode ip).ref - 1 = _
      rw [ht.refs ip, List.count_cons_self]
      omega
    · intro e he
      exact (List.count_cons_of_ne (Ne.symm he)).symm
  refine wp_then (wp_if ?_ (fun _ => hdrop s h))
  intro _
  refine wp_then (acc_acquiresleep h ?_)
  intro t ht
  refine wp_then (acc_runs (fun B => runs_itrunc sb ip) ht ?_)
  intro _ t ht
  refine wp_then (acc_setInode (fun _ => rfl) (fun _ => rfl) ht ?_)
  intro _ t ht
  refine wp_then (acc_runs (fun B => runs_iupdate sb ip) ht ?_)
  intro _ t ht
  refine wp_then (acc_setInode (fun _ => rfl) (fun _ => rfl) ht ?_)
  intro _ t ht
  exact wp_then (acc_releasesleep ht hdrop)

theorem acc_iunlockput (h : Acc c s (ip :: T) (ip :: L)) (hq : ∀ t, Acc c t T L → Q () t) :
    wp (iunlockput sb ip) Q E s := by
  exact wp_then (acc_iunlock h fun t ht => acc_iput ht hq)

theorem acc_ialloc {dev : Nat} {type : Int16} {Q : Option Idx → St → Prop} (h : Acc c s T L)
    (hs : Spare E c.kept (T.length + 1)) (hnone : ∀ t, Acc c t T L → Q none t)
    (hsome : ∀ ip t, Acc c t (ip :: T) L → Q (some ip) t) :
    wp (ialloc sb dev type) Q E s := by
  have hloop : ∀ fuel inum s, Acc c s T L → wp (iallocFrom sb dev type fuel inum) Q E s := by
    intro fuel
    induction fuel with
    | zero => exact fun _ s h => hnone s h
    | succ fuel ih =>
      intro inum s h
      refine wp_if ?_ (fun _ => hnone s h)
      intro _
      refine wp_then (acc_bread h ?_)
      intro bp t ht
      refine wp_if ?_ ?_
      · intro _
        refine wp_then (acc_runs (fun B => runs_bput _ _) ht ?_)
        intro _ t ht
        refine wp_then (acc_runs (fun B => runs_logWrite _) ht ?_)
        intro _ t ht
        refine wp_then (acc_brelse ht ?_)
        intro t ht
        exact wp_then (acc_iget ht hs hsome)
      · intro _
        exact wp_then (acc_brelse ht fun t ht => ih _ t ht)
  exact hloop _ _ s h

end table

/-! ## Directories and paths -/

section paths

variable {sb : Superblock} {c : Call} {s : St} {T L : List Idx} {dp ip : Idx} {name : Name} {E : Panic → Prop} [Mild E]

theorem acc_dirlookup {Q : Option (Idx × Nat) → St → Prop} (h : Acc c s T L) (hs : Spare E c.kept (T.length + 1))
    (hnone : ∀ t, Acc c t T L → Q none t)
    (hsome : ∀ ip off t, Acc c t (ip :: T) L → Q (some (ip, off)) t) : wp (dirlookup sb dp name) Q E s := by
  have hloop : ∀ fuel off s, Acc c s T L → wp (dirlookupFrom sb dp name fuel off) Q E s := by
    intro fuel
    induction fuel with
    | zero => exact fun _ s h => hnone s h
    | succ fuel ih =>
      intro off s h
      refine wp_then (wp_if ?_ (fun _ => hnone s h))
      intro _
      refine wp_then (acc_runs (fun B => runs_readi sb dp _ _ _) h ?_)
      rintro ⟨r, de⟩ t ht
      refine wp_if (fun _ => Mild.plain _ rfl) ?_
      intro _
      refine wp_if (fun _ => ih _ t ht) ?_
      intro _
      refine wp_if ?_ (fun _ => ih _ t ht)
      intro _
      exact wp_then (acc_iget ht hs fun ip u hu => hsome ip off u hu)
  exact wp_then (wp_if (fun _ => Mild.plain _ rfl) fun _ => hloop _ _ s h)

theorem acc_dirlink {inum : Nat} {Q : Int → St → Prop} (h : Acc c s T L) (hs : Spare E c.kept (T.length + 1))
    (hq : ∀ r t, Acc c t T L → Q r t) :
    wp (dirlink sb dp name inum) Q E s := by
  refine wp_then (acc_dirlookup h hs ?_ ?_)
  · intro t ht
    refine acc_runs ?_ ht hq
    intro B
    refine runs_bind (runs_getInode dp) ?_
    intro d
    refine runs_bind (runs_freeEntry sb dp _ _) ?_
    intro off
    exact runs_bind (runs_writei sb dp _ _ _) fun r => runs_if (runs_pure _) (runs_pure _)
  · intro ip off t ht
    show wp (iput sb ip >>= fun _ => pure (-1)) Q E t
    exact wp_then (acc_iput ht fun u hu => hq _ u hu)

variable {Q : Option (Idx × Name) → St → Prop} {cwd : Idx} {path : Name}

theorem acc_namexFrom {parent : Bool} {path : List Name} (h : Acc c s (ip :: T) L) (hs : Spare E c.kept (T.length + 2))
    (hnone : ∀ t, Acc c t T L → Q none t) (hsome : ∀ ip name t, Acc c t (ip :: T) L → Q (some (ip, name)) t) :
    wp (namexFrom sb parent ip path) Q E s := by
  induction path generalizing ip s with
  | nil =>
    refine wp_if ?_ (fun _ => hsome ip [] s h)
    intro _
    exact wp_then (acc_iput h hnone)
  | cons name rest ih =>
    refine wp_then (acc_ilock h ?_)
    intro t ht
    refine wp_then (wp_if ?_ ?_)
    · intro _
      exact wp_then (acc_iunlockput ht hnone)
    intro _
    refine wp_if ?_ ?_
    · intro _
      exact wp_then (acc_iunlock ht fun u hu => hsome ip name u hu)
    intro _
    refine wp_then (acc_dirlookup ht hs ?_ ?_)
    · intro u hu
      show wp (iunlockput sb ip >>= fun _ => pure none) Q E u
      exact wp_then (acc_iunlockput hu hnone)
    · intro next off u hu
      show wp (iunlockput sb ip >>= fun _ => namexFrom sb parent next rest) Q E u
      refine wp_then (acc_iunlockput (acc_perm hu (List.Perm.swap _ _ _) (List.Perm.refl _)) ?_)
      intro v hv
      exact ih hv

theorem acc_namex {parent : Bool} (h : Acc c s T L) (hs : Spare E c.kept (T.length + 2))
    (hnone : ∀ t, Acc c t T L → Q none t) (hsome : ∀ ip name t, Acc c t (ip :: T) L → Q (some (ip, name)) t) :
    wp (namex sb cwd path parent) Q E s := by
  refine wp_if ?_ ?_
  · intro _
    exact wp_then (acc_iget h (spare_le hs (by omega)) fun ip t ht => acc_namexFrom ht hs hnone hsome)
  · intro _
    exact wp_then (acc_idup h fun t ht => acc_namexFrom ht hs hnone hsome)

theorem acc_namei {Q : Option Idx → St → Prop} (h : Acc c s T L) (hs : Spare E c.kept (T.length + 2))
    (hnone : ∀ t, Acc c t T L → Q none t) (hsome : ∀ ip t, Acc c t (ip :: T) L → Q (some ip) t) :
    wp (namei sb cwd path) Q E s := by
  exact wp_then (acc_namex h hs hnone fun ip _ t ht => hsome ip t ht)

theorem acc_nameiparent (h : Acc c s T L) (hs : Spare E c.kept (T.length + 2)) (hnone : ∀ t, Acc c t T L → Q none t)
    (hsome : ∀ ip name t, Acc c t (ip :: T) L → Q (some (ip, name)) t) : wp (nameiparent sb cwd path) Q E s :=
  acc_namex h hs hnone hsome

end paths

/-! ## Transactions -/

section transactions

variable {c : Call} {s : St} {T L : List Idx} {E : Panic → Prop} [Mild E]

theorem acc_beginOp {Q : Unit → St → Prop} (h : Acc c s T L)
    (hq : ∀ t, Acc { c with out := c.out + 1 } t T L → Q () t) : wp beginOp Q E s := by
  unfold beginOp
  rw [wp_bind, wp_get]
  split
  · rename_i l hl
    refine hq _ ⟨h.file, h.proc, h.pipe, ?_, h.bufs, h.refs, h.locks, h.fresh, h.nodup⟩
    show l.outstanding = c.out + 1
    rw [← h.out]
    unfold Log.beginOp at hl
    repeat' split at hl
    all_goals first | (cases hl; rfl) | cases hl
  · exact Mild.plain _ rfl

theorem acc_endOp {Q : Unit → St → Prop} (h : Acc { c with out := c.out + 1 } s T L)
    (hq : ∀ t, Acc c t T L → Q () t) : wp endOp Q E s := by
  have hout : s.log.outstanding - 1 = c.out := by
    have : s.log.outstanding = c.out + 1 := h.out
    omega
  unfold endOp
  rw [wp_bind, wp_get]
  split
  · exact Mild.plain _ rfl
  rename_i l doCommit hl
  have hl' : l.outstanding = c.out := by
    rw [← hout]
    unfold Log.endOp at hl
    simp only at hl
    repeat' split at hl
    all_goals first | (cases hl; rfl) | cases hl
  refine wp_if ?_ ?_
  all_goals
    intro _
    exact hq _ ⟨h.file, h.proc, h.pipe, hl', h.bufs, h.refs, h.locks, h.fresh, h.nodup⟩

end transactions

/-! ## create and unlink -/

section entries

variable {sb : Superblock} {c : Call} {s : St} {T L : List Idx} {dp ip : Idx} {name : Name} {E : Panic → Prop} [Mild E]

variable {Q : Option Idx → St → Prop}

theorem acc_createFail (h : Acc c s (ip :: dp :: T) (ip :: dp :: L)) (hq : ∀ t, Acc c t T L → Q none t) :
    wp (createFail sb dp ip) Q E s := by
  refine wp_then (acc_setInode (fun _ => rfl) (fun _ => rfl) h ?_)
  intro _ t ht
  refine wp_then (acc_runs (fun B => runs_iupdate sb ip) ht ?_)
  intro _ t ht
  refine wp_then (acc_iunlockput ht ?_)
  intro t ht
  exact wp_then (acc_iunlockput ht hq)

theorem acc_linkDots {Q : Bool → St → Prop} (h : Acc c s T L) (hs : Spare E c.kept (T.length + 1))
    (hq : ∀ r t, Acc c t T L → Q r t) :
    wp (linkDots sb dp ip) Q E s := by
  unfold linkDots
  rw [wp_bind, wp_getInode, wp_bind]
  refine acc_dirlink h hs ?_
  intro r t ht
  refine wp_if (fun _ => hq _ t ht) ?_
  intro _
  rw [wp_bind, wp_getInode, wp_bind]
  exact acc_dirlink ht hs fun r u hu => hq _ u hu

theorem acc_createNew {type major minor : Int16} (h : Acc c s (dp :: T) (dp :: L)) (hs : Spare E c.kept (T.length + 3))
    (hnone : ∀ t, Acc c t T L → Q none t) (hsome : ∀ ip t, Acc c t (ip :: T) (ip :: L) → Q (some ip) t) :
    wp (createNew sb dp name type major minor) Q E s := by
  unfold createNew
  rw [wp_bind, wp_getInode, wp_bind]
  refine acc_ialloc h (spare_le hs (by simp)) ?_ ?_
  · intro t ht
    show wp (iunlockput sb dp >>= fun _ => pure none) Q E t
    exact wp_then (acc_iunlockput ht hnone)
  intro ip t ht
  -- from here on `ip` and `dp` are both held, and every way out lets go of what it must
  have hlink : ∀ t, Acc c t (ip :: dp :: T) (ip :: dp :: L) → wp (do
      let r ← dirlink sb dp name (← getInode ip).inum
      if r < 0 then createFail sb dp ip
      else do
        if type = T_DIR then do
          setInode dp fun x => { x with nlink := x.nlink + 1 }
          iupdate sb dp
        else pure ()
        iunlockput sb dp
        return some ip) Q E t := by
    intro t ht
    rw [wp_bind, wp_getInode, wp_bind]
    refine acc_dirlink ht hs ?_
    intro r t ht
    refine wp_if (fun _ => acc_createFail ht hnone) ?_
    intro _
    have hend : ∀ t, Acc c t (ip :: dp :: T) (ip :: dp :: L) →
        wp (iunlockput sb dp >>= fun _ => pure (some ip)) Q E t := by
      intro t ht
      refine wp_then (acc_iunlockput (acc_perm ht (List.Perm.swap _ _ _) (List.Perm.swap _ _ _)) ?_)
      intro u hu
      exact hsome ip u hu
    refine wp_if ?_ (fun _ => hend t ht)
    intro _
    refine wp_then (acc_setInode (fun _ => rfl) (fun _ => rfl) ht ?_)
    intro _ t ht
    exact wp_then (acc_runs (fun B => runs_iupdate sb dp) ht fun _ => hend)
  refine wp_then (acc_ilock ht ?_)
  intro t ht
  refine wp_then (acc_setInode (fun _ => rfl) (fun _ => rfl) ht ?_)
  intro _ t ht
  refine wp_then (acc_runs (fun B => runs_iupdate sb ip) ht ?_)
  intro _ t ht
  refine wp_if ?_ (fun _ => hlink t ht)
  intro _
  refine wp_then (acc_linkDots ht hs ?_)
  intro ok t ht
  exact wp_if (fun _ => acc_createFail ht hnone) fun _ => hlink t ht

theorem acc_create {cwd : Idx} {path : Name} {type major minor : Int16} (h : Acc c s T L)
    (hs : Spare E c.kept (T.length + 3)) (hnone : ∀ t, Acc c t T L → Q none t)
    (hsome : ∀ ip t, Acc c t (ip :: T) (ip :: L) → Q (some ip) t) :
    wp (create sb cwd path type major minor) Q E s := by
  refine wp_then (acc_nameiparent h (spare_le hs (by omega)) hnone ?_)
  intro dp name t ht
  refine wp_then (acc_ilock ht ?_)
  intro t ht
  refine wp_then (acc_dirlookup ht (spare_le hs (by simp)) (fun t ht => acc_createNew ht hs hnone hsome) ?_)
  intro ip off t ht
  refine wp_then (acc_iunlockput (acc_perm ht (List.Perm.swap _ _ _) (List.Perm.refl _)) ?_)
  intro t ht
  refine wp_then (acc_ilock ht ?_)
  intro t ht
  refine wp_then (wp_if (fun _ => hsome ip t ht) ?_)
  intro _
  exact wp_then (acc_iunlockput ht hnone)

theorem acc_unlinkFind {cwd : Idx} {path : Name} {Q : Option (Idx × Idx × Nat) → St → Prop} (h : Acc c s T L)
    (hs : Spare E c.kept (T.length + 3)) (hnone : ∀ t, Acc c t T L → Q none t)
    (hsome : ∀ dp ip off t, Acc c t (ip :: dp :: T) (ip :: dp :: L) → Q (some (dp, ip, off)) t) :
    wp (unlinkFind sb cwd path) Q E s := by
  refine wp_then (acc_nameiparent h (spare_le hs (by omega)) hnone ?_)
  intro dp name t ht
  refine wp_then (acc_ilock ht ?_)
  intro t ht
  refine wp_if ?_ ?_
  · intro _
    exact wp_then (acc_iunlockput ht hnone)
  intro _
  refine wp_then (acc_dirlookup ht (spare_le hs (by simp)) ?_ ?_)
  · intro t ht
    show wp (iunlockput sb dp >>= fun _ => pure none) Q E t
    exact wp_then (acc_iunlockput ht hnone)
  intro ip off t ht
  have hend : ∀ (empty : Bool) t, Acc c t (ip :: dp :: T) (ip :: dp :: L) → wp (if !empty then do
        iunlockput sb ip
        iunlockput sb dp
        return none
      else return some (dp, ip, off)) Q E t := by
    intro empty t ht
    refine wp_if ?_ (fun _ => hsome dp ip off t ht)
    intro _
    refine wp_then (acc_iunlockput ht ?_)
    intro t ht
    exact wp_then (acc_iunlockput ht hnone)
  refine wp_then (acc_ilock ht ?_)
  intro t ht
  refine wp_then (wp_if (fun _ => Mild.plain _ rfl) ?_)
  intro _
  refine wp_if ?_ (fun _ => hend true t ht)
  intro _
  exact wp_then (acc_runs (fun B => runs_isdirempty sb ip) ht hend)

theorem acc_unlinkRemove {off : Nat} {Q : Unit → St → Prop} (h : Acc c s (ip :: dp :: T) (ip :: dp :: L))
    (hq : ∀ t, Acc c t T L → Q () t) : wp (unlinkRemove sb dp ip off) Q E s := by
  refine wp_then (acc_runs (fun B => runs_writei sb dp _ _ _) h ?_)
  intro r t ht
  refine wp_if (fun _ => Mild.plain _ rfl) ?_
  intro _
  have hend : ∀ t, Acc c t (ip :: dp :: T) (ip :: dp :: L) → wp (do
      iunlockput sb dp
      setInode ip fun x => { x with nlink := x.nlink - 1 }
      iupdate sb ip
      iunlockput sb ip) Q E t := by
    intro t ht
    refine wp_then (acc_iunlockput (acc_perm ht (List.Perm.swap _ _ _) (List.Perm.swap _ _ _)) ?_)
    intro t ht
    refine wp_then (acc_setInode (fun _ => rfl) (fun _ => rfl) ht ?_)
    intro _ t ht
    exact wp_then (acc_runs (fun B => runs_iupdate sb ip) ht fun _ u hu => acc_iunlockput hu hq)
  refine wp_then (wp_if ?_ (fun _ => hend t ht))
  intro _
  refine wp_then (acc_setInode (fun _ => rfl) (fun _ => rfl) ht ?_)
  intro _ t ht
  exact wp_then (acc_runs (fun B => runs_iupdate sb dp) ht fun _ => hend)

end entries

end Xv6.Fs
