/-
  Xv6.Fs.Lone — the inode table under a process that works alone: each function finds the
  entry it left, so its effect on the table is known exactly (`setEntry`), and an operation
  that begins with an empty log ends with one.
-/

import Xv6.Fs.Sys
import Xv6.Fs.TableProofs

namespace Xv6.Fs

open Lib Vol

variable {sb : Superblock} {V : Vol} {t : St} {ip : Idx} {i : Nat} {E : Panic → Prop}

/-! ## Entries -/

/-- Entry `ip` of the table became `x`, nothing else changed. -/
def setEntry (t : St) (ip : Idx) (x : Inode) : St := { t with inode := upd t.inode ip x }

@[simp] theorem setEntry_same (t : St) (ip : Idx) (x : Inode) : (setEntry t ip x).inode ip = x := upd_same t.inode ip x

variable {e : Idx} {x : Inode} {j : Nat} {Q : Unit → St → Prop}

theorem setEntry_ne (t : St) (x : Inode) (h : e ≠ ip) : (setEntry t ip x).inode e = t.inode e := upd_ne _ _ h

@[simp] theorem setEntry_log (t : St) (ip : Idx) (x : Inode) : (setEntry t ip x).log = t.log := rfl

structure Beside (t u : St) (ip : Idx) : Prop where
  data : u.data = t.data
  home : u.home = t.home
  others : ∀ e, e ≠ ip → u.inode e = t.inode e

theorem Beside.trans {u v : St} (h : Beside t u ip) (h' : Beside u v ip) : Beside t v ip :=
  ⟨h'.data.trans h.data, h'.home.trans h.home, fun e he => (h'.others e he).trans (h.others e he)⟩

theorem beside_setEntry (t : St) (ip : Idx) (x : Inode) :
    Beside t (setEntry t ip x) ip := ⟨rfl, rfl, fun _ he => setEntry_ne t x he⟩

theorem rep_setEntry (h : Rep sb t V none) (hlt : x.inum < sb.ninodes ∧ x.dev = ROOTDEV)
    (huniq : ∀ e, e ≠ ip → 0 < (t.inode e).ref → (t.inode e).inum ≠ x.inum)
    (hmem : x.valid = true → x.toDinode = V.ino x.inum ∧ (V.ino x.inum).type ≠ 0) : Rep sb (setEntry t ip x) V none :=
  rep_entry h (fun e he => by cases he) (fun j hj => h.disk j hj fun e he => by cases he)
  (fun _ => hlt) (fun _ => huniq) fun _ => hmem

/-- `iget` of an inode that has an entry. -/
theorem iget_found (h : Rep sb t V none) (hr : 0 < (t.inode ip).ref) (hi : (t.inode ip).inum = i) {Q : Idx → St → Prop}
    (hq : Q ip (setEntry t ip { t.inode ip with ref := (t.inode ip).ref + 1 })) : wp (iget ROOTDEV i) Q E t := by
  unfold iget
  rw [wp_bind, wp_get]
  split
  · next e hf =>
    obtain ⟨h1, _, h3⟩ := of_decide_eq_true (first_some hf).1
    have he : e = ip := h.uniq e ip h1 hr (h3.trans hi.symm)
    rw [he]
    exact hq
  · next hf =>
    have := first_none hf ip
    rw [decide_eq_false_iff_not] at this
    exact absurd ⟨hr, (h.range ip hr).2, hi⟩ this

/-- What `iget` of inode `j` does: one more reference to its entry, or a free entry for it. -/
inductive Got (t : St) (j : Nat) : Idx → Inode → Prop
  | found (e : Idx) : 0 < (t.inode e).ref → (t.inode e).dev = ROOTDEV → (t.inode e).inum = j →
      Got t j e { t.inode e with ref := (t.inode e).ref + 1 }
  | fresh (e : Idx) : (t.inode e).ref = 0 →
    (∀ e', 0 < (t.inode e').ref → (t.inode e').dev = ROOTDEV → (t.inode e').inum ≠ j) →
      Got t j e { t.inode e with dev := ROOTDEV, inum := j, ref := 1, valid := false }

theorem iget_got (hfull : (∀ e, (t.inode e).ref ≠ 0) → E .igetNoInodes) {Q : Idx → St → Prop}
    (hq : ∀ e x, Got t j e x → Q e (setEntry t e x)) : wp (iget ROOTDEV j) Q E t := by
  unfold iget
  rw [wp_bind, wp_get]
  split
  · next e hf =>
    obtain ⟨h1, h2, h3⟩ := of_decide_eq_true (first_some hf).1
    exact hq e _ (.found e h1 h2 h3)
  next hno =>
  split
  · next e hf =>
    refine hq e _ (.fresh e (of_decide_eq_true (first_some hf).1) fun e' h1 h2 h3 => ?_)
    have := first_none hno e'
    rw [decide_eq_false_iff_not] at this
    exact this ⟨h1, h2, h3⟩
  · next hno =>
    refine hfull fun e he => ?_
    have := first_none hno e
    rw [decide_eq_false_iff_not] at this
    exact this he

theorem got_ref (h : Got t j ip x) :
    x.ref = (t.inode ip).ref + 1 ∧ x.inum = j ∧ x.dev = ROOTDEV ∧ x.lock = (t.inode ip).lock := by
  cases h with
  | found h1 h2 h3 => exact ⟨rfl, h3, h2, rfl⟩
  | fresh h1 h2 => exact ⟨by rw [h1]; rfl, rfl, rfl, rfl⟩

/-- `iput` gives back what `iget` took: the inode is not freed, for somebody else has it or
    it was not read in. -/
theorem iput_got (h : Got t j ip x) (hq : Q () (setEntry t ip { x with ref := (t.inode ip).ref })) :
    wp (iput sb ip) Q E (setEntry t ip x) := by
  have hkeep : ¬ (x.ref = 1 ∧ x.valid = true ∧ x.nlink = 0) := by
    cases h with
    | found h1 h2 h3 =>
      rintro ⟨h, _⟩
      simp only at h
      omega
    | fresh h1 h2 =>
      rintro ⟨_, h, _⟩
      cases h
  have href : (t.inode ip).ref = x.ref - 1 := by
    have := (got_ref h).1
    omega
  unfold iput
  rw [wp_bind, wp_getInode, setEntry_same, if_neg hkeep]
  rw [wp_setInode, setEntry_same, setEntry, upd_upd, ← href]
  exact hq

/-- Nothing is left of it but a free entry that has another inode's number. -/
theorem rep_ungot (hr : Rep sb t V none) (h : Got t j ip x) :
    Rep sb (setEntry t ip { x with ref := (t.inode ip).ref }) V none := by
  cases h with
  | found h1 h2 h3 =>
    have hsame : setEntry t ip { t.inode ip with ref := (t.inode ip).ref } = t := by
      unfold setEntry
      rw [upd_self]
    rw [hsame]
    exact hr
  | fresh h1 h2 =>
    have h0 : ¬ 0 < (t.inode ip).ref := by omega
    exact rep_entry hr (fun e he => by cases he) (fun i hi => hr.disk i hi fun e he => by cases he)
      (fun h => absurd h h0)
      (fun h => absurd h h0) fun h => absurd h h0

/-- The count and the lock of an entry are not on the disk. -/
theorem rep_keep (h : Rep sb t V none) (hr : 0 < (t.inode ip).ref) (ref : Int) (lock : Bool) :
    Rep sb (setEntry t ip { t.inode ip with ref := ref, lock := lock }) V none :=
  rep_setEntry h (h.range ip hr) (fun e he hre hn => he (h.uniq e ip hre hr hn))
    fun hv => ⟨h.mem ip hr hv, h.live ip (Option.some_ne_none _).symm hr hv⟩

theorem rep_more (h : Rep sb t V none) (hr : 0 < (t.inode ip).ref) :
    Rep sb (setEntry t ip { t.inode ip with ref := (t.inode ip).ref + 1 }) V none := rep_keep h hr _ _

/-- `iget` of one that has none. -/
theorem iget_fresh (hno : ∀ e, 0 < (t.inode e).ref → (t.inode e).inum ≠ i) (hfree : ∃ e, (t.inode e).ref = 0)
    {Q : Idx → St → Prop}
    (hq : ∀ e, (t.inode e).ref = 0 →
      Q e (setEntry t e { t.inode e with dev := ROOTDEV, inum := i, ref := 1, valid := false })) :
    wp (iget ROOTDEV i) Q E t := by
  unfold iget
  rw [wp_bind, wp_get]
  split
  · next e hf =>
    obtain ⟨h1, _, h3⟩ := of_decide_eq_true (first_some hf).1
    exact absurd h3 (hno e h1)
  split
  · next e hf => exact hq e (of_decide_eq_true (first_some hf).1)
  · next hf =>
    obtain ⟨e, he⟩ := hfree
    have := first_none hf e
    rw [decide_eq_false_iff_not] at this
    exact absurd he this

/-- `ilock` reads the inode in, if it is not yet. -/
theorem ilock_entry (h : Rep sb t V none) (hr : 0 < (t.inode ip).ref) (hi : (t.inode ip).inum = i)
    (hhang : (t.inode ip).lock = true → E .hang) (hfree : (V.ino i).type = 0 → E .ilockNoType)
    (hq : ∀ x : Inode, x.ref = (t.inode ip).ref → x.lock = true → x.inum = i → Rep sb (setEntry t ip x) V none →
      Loaded (setEntry t ip x) ip i → Q () (setEntry t ip x)) :
    wp (ilock sb ip) Q E t := by
  have hlt := (h.range ip hr).1
  have hdisk : getDinode (t.data (sb.IBLOCK (t.inode ip).inum)) (ioff (t.inode ip).inum) = V.ino i := by
    rw [h.disk _ hlt (fun e he => by cases he), hi]
  unfold ilock acquiresleep
  rw [wp_bind, wp_getInode, if_neg (by omega), wp_bind, wp_bind, wp_getInode]
  by_cases hl : (t.inode ip).lock = true
  · rw [if_pos hl]
    exact hhang hl
  rw [if_neg hl, wp_setInode]
  by_cases hv : (t.inode ip).valid = true
  · rw [if_pos hv]
    refine hq { t.inode ip with lock := true } rfl rfl hi (rep_keep h hr _ _) ?_
    refine ⟨?_, ?_, ?_⟩ <;> rw [setEntry_same]
    · exact hr
    · exact hv
    · exact hi
  · rw [if_neg hv, wp_bind, wp_bread, wp_bind, wp_brelse, St.withBufs_bufs, relse_cons]
    simp only [wp_bind, wp_setInode, upd_same, upd_upd, wp_ite, wp_throw, wp_pure]
    rw [hdisk]
    by_cases h0 : (V.ino i).type = 0
    · rw [if_pos h0]
      exact hfree h0
    rw [if_neg h0]
    refine hq { t.inode ip with toDinode := V.ino i, lock := true, valid := true } rfl rfl hi ?_ ?_
    · refine rep_setEntry h (h.range ip hr) (fun e he hre hn => he (h.uniq e ip hre hr hn)) fun _ => ?_
      rw [hi]
      exact ⟨rfl, h0⟩
    · refine ⟨?_, ?_, ?_⟩ <;> rw [setEntry_same]
      · exact hr
      · exact hi

/-- Nothing stops `ilock` on an allocated inode that nobody has locked. -/
theorem ilock_live (h : Rep sb t V none) (hr : 0 < (t.inode ip).ref) (hl : (t.inode ip).lock = false)
    (hi : (t.inode ip).inum = i) (hlive : Live sb V i)
    (hq : ∀ x : Inode, x.ref = (t.inode ip).ref → x.lock = true → x.inum = i → Rep sb (setEntry t ip x) V none →
      Loaded (setEntry t ip x) ip i → Q () (setEntry t ip x)) :
    wp (ilock sb ip) Q E t :=
  ilock_entry h hr hi (fun hl' => by rw [hl] at hl'; cases hl') (fun h0 => absurd h0 hlive.2) hq

theorem iunlock_held (hr : 0 < (t.inode ip).ref) (hl : (t.inode ip).lock = true)
    (hq : Q () (setEntry t ip { t.inode ip with lock := false })) : wp (iunlock ip) Q E t := by
  unfold iunlock releasesleep
  rw [wp_bind, wp_getInode, if_neg (by rw [hl]; simp only [Bool.true_eq_false, false_or]; omega)]
  exact hq

/-! ## Operations -/

/-- No operation runs, and every one that did is on the disk. -/
def idle : Log.LogSt := ⟨0, false, []⟩

theorem beginOp_idle (h : t.log = idle) (hq : Q () { t with log := ⟨1, false, []⟩ }) : wp beginOp Q E t := by
  unfold beginOp
  rw [wp_bind, wp_get, h]
  exact hq

/-- The blocks the only operation logged go to their homes. -/
theorem endOp_last (ho : t.log.outstanding = 1) (hc : t.log.committing = false)
    (hq : Q () { t with home := fun b => if b ∈ t.log.lh then t.data b else t.home b, log := idle }) :
    wp endOp Q E t := by
  have hend : Log.endOp t.log = .ok (⟨0, true, t.log.lh⟩, true) := by
    unfold Log.endOp
    rw [ho, hc]
    rfl
  unfold endOp
  rw [wp_bind, wp_get, hend]
  exact hq

/-! ## Boot -/

theorem mount_zero (disk : Nat → Block) :
    (mount disk).inode .zero = { noInode with dev := ROOTDEV, inum := ROOTINO, ref := 1 } := rfl

theorem mount_rest (disk : Nat → Block) (he : e ≠ .zero) :
    (mount disk).inode e = noInode := if_neg fun h0 => he (Fin.ext h0)

theorem mount_used {disk : Nat → Block} (he : 0 < ((mount disk).inode e).ref) : e = .zero := by
  by_contra hne
  rw [mount_rest disk hne] at he
  exact absurd he (by decide)

theorem mount_unread (disk : Nat → Block) (e : Idx) :
    ((mount disk).inode e).valid = false ∧ ((mount disk).inode e).lock = false := by
  by_cases he : e = .zero
  · rw [he]
    exact ⟨rfl, rfl⟩
  · rw [mount_rest disk he]
    exact ⟨rfl, rfl⟩

theorem rep_mount (hroot : ROOTINO < sb.ninodes) (disk : Nat → Block) :
    Rep sb (mount disk) (view sb (mount disk)) none := by
  refine rep_view (fun e _ hv => ?_) (fun e e' he he' => (mount_used he).trans (mount_used he').symm) fun e he => ?_
  · rw [(mount_unread disk e).1] at hv
    cases hv
  · rw [mount_used he]
    exact ⟨hroot, rfl⟩

end Xv6.Fs
