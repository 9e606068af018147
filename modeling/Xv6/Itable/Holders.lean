/-
  Xv6.Itable.Holders — who holds the references to inodes (`kernel/fs.c`: `iget`).

  An open file holds one, a process one to its current directory, and a call in progress
  those it has taken, such as a walk along a path. A call takes a reference with `iget`,
  `idup` or `ialloc` and gives it up with `iput`; in between it may pass it on to a file or
  to a current directory, or take it from there.

  In any interleaving of the calls of all processes, the entries in use are those that are
  held (`used_iff`), so `iget` finds no entry exactly if NINODE other inodes are held
  (`iget_none_iff`).
-/

import Xv6.Itable.ItableProofs

namespace Xv6.Itable

open Lib Fs

inductive Holder where
  | file (f : Fin NFILE)
  | cwd (p : Fin NPROC)
  | call (p : Fin NPROC)
  deriving DecidableEq

/-- The table, and the references to it with their holders. -/
structure Sys where
  table : St (Fin NPROC)
  refs : List (Holder × Slot)

inductive Act where
  | does (e : Ev (Fin NPROC))
  /-- A reference changes hands, as in `f->ip = ip` and `p->cwd = ip`. -/
  | pass (a b : Holder) (ip : Slot)

/-- The step is one that the process can make now. -/
def Enabled (s : St (Fin NPROC)) (e : Ev (Fin NPROC)) : Prop :=
  s.panicked = false ∧ (s.pc e.by = .idle ∨ match e with | .go _ => True | _ => False)

instance (s : St (Fin NPROC)) : ∀ e, Decidable (Enabled s e)
  | .go _ => inferInstanceAs (Decidable (_ ∧ (_ ∨ True)))
  | .iget .. | .idup .. | .ilock .. | .iunlock .. | .iput .. | .ialloc .. | .write .. | .iupdate .. =>
    inferInstanceAs (Decidable (_ ∧ (_ ∨ False)))

def Sys.after (x : Sys) : Ev (Fin NPROC) → List (Holder × Slot)
  | .iput p ip => x.refs.erase (.call p, ip)
  | e => (gains x.table e).toList.map (Holder.call e.by, ·) ++ x.refs

def Sys.step (ninodes : Nat) (x : Sys) : Act → Sys
  | .does e => if Enabled x.table e then ⟨Itable.step ninodes x.table e, x.after e⟩ else x
  | .pass a b ip => if (a, ip) ∈ x.refs then { x with refs := (b, ip) :: x.refs.erase (a, ip) } else x

def Sys.start (disk : Ino → Dinode) : Sys := ⟨iinit disk, []⟩

/-- Callers keep to `Meets`, and give up what they hold. -/
def Sys.Meets (x : Sys) : Act → Prop
  | .does e => Itable.Meets x.table e ∧ match e with | .iput p ip => (.call p, ip) ∈ x.refs | _ => True
  | .pass _ _ _ => True

instance (x : Sys) : ∀ a, Decidable (x.Meets a)
  | .pass .. => isTrue trivial
  | .does (.iput ..) => inferInstanceAs (Decidable (_ ∧ _))
  | .does (.iget ..) | .does (.idup ..) | .does (.ilock ..) | .does (.iunlock ..) | .does
    (.ialloc ..) | .does (.write ..)
  | .does (.iupdate ..) | .does (.go _) => inferInstanceAs (Decidable (_ ∧ True))

/-- Somebody holds the entry, or is in the `iput` that gives it up. -/
def Sys.Held (x : Sys) (ip : Slot) : Prop := ip ∈ x.refs.map Prod.snd ∨ ∃ p, (x.table.pc p).puts = some ip

instance (x : Sys) : DecidablePred x.Held := fun _ => inferInstanceAs (Decidable (_ ∨ _))

/-- The inodes that are held. -/
def Sys.inodes (x : Sys) : Finset Ino := (Finset.univ.filter x.Held).image x.table.ino

/-! ## The ledger is right -/

structure Tallies (x : Sys) : Prop where
  inv : Inv x.table
  live : ∀ ip, x.table.live ip = (x.refs.map Prod.snd).count ip

section

variable {n : Nat} {s : St (Fin NPROC)} {x : Sys}

theorem enabled_leaves {e : Ev (Fin NPROC)} (he : Enabled s e) : Leaves s (Itable.step n s e) e.by (s.lives e) := by
  unfold Itable.step
  rw [he.1, if_neg Bool.false_ne_true]
  cases e with
  | go p => exact go_leaves
  | _ =>
    simp only [he.2.resolve_right id, if_true]
    exact call_leaves _ (by simp)

theorem count_erase {a : Holder × Slot} {l : List (Holder × Slot)} (h : a ∈ l) (ip : Slot) :
    (l.map Prod.snd).count ip = ((l.erase a).map Prod.snd).count ip + if a.2 = ip then 1 else 0 := by
  rw [((List.perm_cons_erase h).map Prod.snd).count_eq, List.map_cons, List.count_cons]
  simp only [beq_iff_eq]

/-- A step that is made changes the references as it changes those that may be used. -/
theorem count_after {e : Ev (Fin NPROC)} (hown : match e with | .iput p ip => (.call p, ip) ∈ x.refs | _ => True)
    (h : ∀ ip, x.table.live ip = (x.refs.map Prod.snd).count ip) (ip : Slot) :
    x.table.lives e ip = ((x.after e).map Prod.snd).count ip := by
  have hgain : ∀ p (g : Option Slot), gained x.table.live g ip =
      ((g.toList.map (Holder.call p, ·) ++ x.refs).map Prod.snd).count ip := by
    intro p g
    cases g with
    | none => exact h ip
    | some j =>
      simp only [gained, Option.toList_some, List.map_cons, List.map_nil, List.singleton_append,
        List.count_cons, beq_iff_eq, ← h ip, upd]
      by_cases e : ip = j <;> simp [e, Ne.symm]
  cases e with
  | iput p j =>
    have hc := count_erase hown ip
    rw [← h ip] at hc
    simp only [St.lives, Sys.after, upd]
    by_cases e : ip = j
    · subst e
      rw [if_pos rfl] at hc ⊢
      omega
    · rw [if_neg e]
      rwa [if_neg (Ne.symm e)] at hc
  | iget p _ _ | go p => exact hgain p _
  | idup p j => exact hgain p (some j)
  | ilock p _ | iunlock p _ | ialloc p _ _ | write p _ _ | iupdate p _ => exact hgain p none

theorem tallies_step {a : Act} (hm : x.Meets a) (h : Tallies x) : Tallies (x.step n a) := by
  cases a with
  | pass a b ip =>
    simp only [Sys.step]
    split
    · next hin =>
      refine ⟨h.inv, fun j => ?_⟩
      rw [h.live j, count_erase hin, List.map_cons, List.count_cons]
      simp only [beq_iff_eq]
    · exact h
  | does e =>
    obtain ⟨hmeets, hown⟩ := hm
    simp only [Sys.step]
    split
    · next hen =>
      refine ⟨inv_step hmeets h.inv, fun ip => ?_⟩
      show (Itable.step n x.table e).live ip = _
      rw [(enabled_leaves hen).live]
      exact count_after hown h.live ip
    · exact h

theorem tallies_run (disk : Ino → Dinode) (as : List Act) (hm : Along (Sys.step n) Sys.Meets (Sys.start disk) as) :
    Tallies (run (Sys.step n) (Sys.start disk) as) :=
  run_inv (fun _ _ => tallies_step) as hm ⟨inv_iinit disk, fun _ => rfl⟩

/-! ## The entries in use -/

theorem used_iff (h : Tallies x) (ip : Slot) : 0 < x.table.ref ip ↔ x.Held ip := by
  have hcount : x.table.ref ip = x.table.live ip + total (putting ip) x.table.pc := (h.inv.entry ip).count
  have hput : 0 < total (putting ip) x.table.pc ↔ ∃ p, (x.table.pc p).puts = some ip := by
    rw [Nat.pos_iff_ne_zero, Ne, total_eq_zero, not_forall]
    simp only [putting, ite_eq_right_iff, Nat.one_ne_zero, imp_false, not_not]
  unfold Sys.Held
  rw [← hput, ← List.count_pos_iff, ← h.live ip, hcount]
  omega

theorem iget_eq_none (dev inum : Nat) :
    iget s dev inum = none ↔ (∀ ip, ¬ (0 < s.ref ip ∧ s.ino ip = (dev, inum))) ∧ ∀ ip, 0 < s.ref ip := by
  unfold iget first
  split
  · next ip hf =>
    refine iff_of_false (by simp) fun h => h.1 ip ?_
    simpa using List.find?_some hf
  · next hf =>
    have h1 : ∀ ip, ¬ (0 < s.ref ip ∧ s.ino ip = (dev, inum)) := by simpa using hf
    rw [and_iff_right h1]
    split
    · next ip hg =>
      have h0 : s.ref ip = 0 := by simpa using List.find?_some hg
      exact iff_of_false (by simp) fun h => absurd (h ip) (by omega)
    · next hg =>
      have h0 : ∀ ip, ¬ s.ref ip = 0 := by simpa using hg
      exact iff_of_true rfl fun ip => Nat.pos_of_ne_zero (h0 ip)

/-- Whatever the processes do and in whatever order: `iget` finds no entry exactly if the open
    files, the current directories and the calls in progress hold NINODE inodes and this is
    none of them. -/
theorem iget_none_iff (h : Tallies x) (dev inum : Nat) :
    iget x.table dev inum = none ↔ (dev, inum) ∉ x.inodes ∧ x.inodes.card = NINODE := by
  rw [iget_eq_none]
  simp only [used_iff h]
  refine and_congr ?_ ?_
  · simp [Sys.inodes]
  · have hinj : Set.InjOn x.table.ino (Finset.univ.filter x.Held : Finset Slot) := fun i hi j hj he =>
      h.inv.unique i j ((used_iff h i).mpr (Finset.mem_filter.mp hi).2)
        ((used_iff h j).mpr (Finset.mem_filter.mp hj).2) he
    have hall := Finset.card_filter_eq_iff (s := Finset.univ) (p := x.Held)
    rw [Finset.card_fin] at hall
    unfold Sys.inodes
    rw [Finset.card_image_of_injOn hinj, hall]
    exact ⟨fun h ip _ => h ip, fun h ip => h ip (Finset.mem_univ ip)⟩

end

end Xv6.Itable
