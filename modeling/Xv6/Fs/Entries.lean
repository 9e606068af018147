/-
  Xv6.Fs.Entries — running out of entries in the inode table (`kernel/fs.c`: `iget`).

  A call holds at most three entries of its own at a time: `link` the old inode and two
  directories of the second walk, `create` the parent, the new inode and what `dirlink`
  finds in it. The rest of the table is referenced by open files and current directories
  (`Balanced`), which NFILE and NPROC bound at more than NINODE, and by the calls of other
  processes (`Xv6.Itable.Holders`).
  - `entries_suffice`: if calls do not overlap, three free entries before each are enough;
    and if they do, in any interleaving `iget` panics exactly if NINODE other inodes are held.
  - `chain_panics`: fifty processes in fifty directories leave none, and the next `chdir`
    panics.
-/

import Xv6.Fs.Balance
import Xv6.Itable.Holders

namespace Xv6.Fs

open Lib

/-- The entries of the inode table that nobody references. -/
def freeEntries (s : St) : Nat := (Finset.univ.filter fun e => (s.inode e).ref = 0).card

def NotIget (x : Panic) : Prop := x ≠ .igetNoInodes

instance : Mild NotIget where
  plain x hx := by
    rintro rfl
    cases hx

section

variable {sb : Superblock} {s : St}

/-- The other entries are those the open files and current directories stand for. -/
theorem used_free (h : Balanced s) : used s.call.kept + freeEntries s = NINODE := by
  have hsame : (Finset.univ.filter fun e => s.call.kept e ≠ 0) = Finset.univ.filter fun e => ¬ (s.inode e).ref = 0 := by
    refine Finset.filter_congr fun e _ => ?_
    rw [h.refs e]
    exact Int.natCast_eq_zero.not.symm
  unfold used freeEntries
  rw [hsame, Nat.add_comm, Finset.card_filter_add_card_filter_not]
  exact Finset.card_fin NINODE

theorem spare_free (h : Balanced s) {n : Nat} (hn : n ≤ freeEntries s) : Spare NotIget s.call.kept n := by
  have := used_free h
  exact .inl (by omega)

/-- No call that finds three entries free runs out of them. -/
theorem iget_step {r : Except Panic St} {e : Ev} (h : Filed r) (hr : r ≠ .error .igetNoInodes)
    (hfree : ∀ s, r = .ok s → 3 ≤ freeEntries s) :
    step sb r e ≠ .error .igetNoInodes := by
  cases r with
  | error x => exact hr
  | ok s =>
    obtain ⟨hbal, htab⟩ := h
    have hact : wp (act sb e) (fun _ t => Done True s.call t) (Safe True NotIget) s :=
      books_act e (acc_call hbal.refs) (spare_free hbal (hfree s rfl)) (square_filed hbal htab)
    refine wp_outcome (P := fun r => r ≠ .error .igetNoInodes)
      (wp_imp hact (fun _ _ _ h => by cases h) fun x hx heq => ?_)
    exact hx trivial (Except.error.inj heq)

theorem iget_boot (disk : Nat → Block) : boot sb disk ≠ .error .igetNoInodes := by
  have hbal := balanced_mount disk
  have hfree : 1 ≤ freeEntries (mount disk) := by
    have hone : (⟨1, by decide⟩ : Idx) ∈ Finset.univ.filter fun e => ((mount disk).inode e).ref = 0 :=
      Finset.mem_filter.mpr ⟨Finset.mem_univ _, rfl⟩
    exact Finset.card_pos.mpr ⟨_, hone⟩
  have hrun : wp (ireclaim sb) (fun _ _ => True) NotIget (mount disk) :=
    acc_ireclaim (acc_call hbal.refs) (spare_free hbal hfree) fun _ _ => trivial
  refine wp_outcome (P := fun r => r ≠ .error .igetNoInodes)
    (wp_imp hrun (fun _ _ _ h => by cases h) fun x hx heq => ?_)
  exact hx (Except.error.inj heq)

end

/-- In every run in which each call finds three entries of the inode table free, no `iget`
    finds none. -/
theorem iget_run (sb : Superblock) (disk : Nat → Block) (es : List Ev)
    (h : ∀ n < es.length, ∀ s, run (step sb) (boot sb disk) (es.take n) = .ok s → 3 ≤ freeEntries s) :
    ∀ n, run (step sb) (boot sb disk) (es.take n) ≠ .error .igetNoInodes := by
  intro n
  induction n with
  | zero => exact iget_boot disk
  | succ n ih =>
    by_cases hn : n < es.length
    · rw [List.take_succ_eq_append_getElem hn, run_append]
      exact iget_step (run_keeps (fun _ _ => filed_step) _ (filed_boot sb disk)) ih (h n hn)
    · rw [List.take_of_length_le (by omega)]
      rwa [List.take_of_length_le (by omega)] at ih

def panicOf : Except Panic St → Option Panic
  | .ok _ => none
  | .error x => some x

/-! ## A disk with a chain of directories -/

namespace Chain

def sb : Superblock := ⟨80, 73, 64, 2, 6⟩

/-- Inodes 1 to 51 are directories of one block, the block 6 after the inode's number; the
    last has no subdirectory. -/
def dinode (i x : Nat) : UInt8 :=
  if i = 0 ∨ 51 < i then 0
  else if x = 0 then 1
  else if x = 6 then (if i < 51 then 2 else 1)
  else if x = 8 then (if i < 51 then 48 else 32)
  else if x = 12 then UInt8.ofNat (6 + i)
  else 0

/-- Directory `i` has the directory after it as `"d"`. -/
def entries (i : Nat) :
    List (Nat × Name) := [(i, dot), (max ROOTINO (i - 1), dotdot)] ++ if i < 51 then [(i + 1, [100])] else []

def disk (b : Nat) : Block :=
  Bytes.ofFn fun x =>
    if 2 ≤ b ∧ b < 6 then dinode (IPB * (b - 2) + x / 64) (x % 64)
    else if b = 6 then (if x < 7 then 255 else if x = 7 then 3 else 0)
    else if 7 ≤ b ∧ b < 58 then ((entries (b - 6)).flatMap fun e => mkDirent e.1 e.2).getD x 0
    else 0

theorem slot_lt (k : Nat) : k % NPROC < NPROC := Nat.mod_lt k (Nat.zero_lt_succ 63)

def proc (k : Nat) : Fin NPROC := ⟨k % NPROC, slot_lt k⟩

/-- `"d"` in user memory. -/
def down : User := fun k => if k = 0 then some 100 else some 0

/-- Each process makes a child, which goes one directory down. -/
def calls (n : Nat) :
    List Ev := (List.range n).flatMap fun k => [.fork (proc k) (proc (k + 1)) true, .chdir (proc (k + 1)) down]

/-- Fifty processes, each in a directory of its own, and no open file: the next one's
    `chdir` panics. -/
theorem chain_panics : panicOf (run (step sb) (boot sb disk) (calls 50)) = some .igetNoInodes := by decide +kernel

end Chain

/-- `iget` never panics in a run of calls one after the other each of which finds three entries
    of the inode table free. While calls overlap, in any interleaving, it finds no entry exactly
    if the open files, the current directories and the calls in progress of all processes hold
    NINODE inodes and the one it is asked for is none of them. -/
theorem entries_suffice (sb : Superblock) (disk : Nat → Block) (es : List Ev) (ninodes : Nat)
    (inodes : Itable.Ino → Dinode) (as : List Itable.Act) :
    ((∀ n < es.length, ∀ s, run (step sb) (boot sb disk) (es.take n) = .ok s → 3 ≤ freeEntries s) →
      ∀ n, run (step sb) (boot sb disk) (es.take n) ≠ .error .igetNoInodes) ∧
    (Along (Itable.Sys.step ninodes) Itable.Sys.Meets (Itable.Sys.start inodes) as →
      ∀ x, run (Itable.Sys.step ninodes) (Itable.Sys.start inodes) as = x → ∀ dev inum,
      (Itable.iget x.table dev inum = none ↔ (dev, inum) ∉ x.inodes ∧ x.inodes.card = NINODE)) := by
  refine ⟨iget_run sb disk es, fun hm x hx => ?_⟩
  rw [← hx]
  exact Itable.iget_none_iff (Itable.tallies_run inodes as hm)

theorem nfile_pos : 0 < NFILE := Nat.zero_lt_succ 99

theorem one_lt_ninode : 1 < NINODE := Nat.succ_lt_succ (Nat.zero_lt_succ 48)

/-- The first process sits in the root and has inode 2 open; its child walks from the root to
    inode 3, while it walks to inode 4 itself and is in the `iput` of the root. -/
def walks : List Itable.Act :=
  [.does (.iget initproc 1 1), .pass (.call initproc) (.cwd initproc) Idx.zero,
   .does (.iget initproc 1 2), .pass (.call initproc) (.file ⟨0, nfile_pos⟩) ⟨1, one_lt_ninode⟩,
   .does (.idup initproc Idx.zero), .does (.idup child Idx.zero),
   .does (.iget child 1 3), .does (.iget initproc 1 4), .does (.iput initproc Idx.zero)]

/-- A `fork` and a `chdir` down the chain; and two walks at once, which leave an entry for inode 5. -/
theorem entries_suffice_walks :
    run (step Chain.sb) (boot Chain.sb Chain.disk) ((Chain.calls 1).take 2) ≠ .error .igetNoInodes ∧
    (run (Itable.Sys.step 8) (Itable.Sys.start Itable.twoInodes) walks).inodes = {(1, 1), (1, 2), (1, 3), (1, 4)} ∧
    Itable.iget (run (Itable.Sys.step 8) (Itable.Sys.start Itable.twoInodes) walks).table 1 5 ≠ none := by
  obtain ⟨hcalls, htable⟩ := entries_suffice Chain.sb Chain.disk (Chain.calls 1) 8 Itable.twoInodes walks
  refine ⟨hcalls (fun n hn s hs => ?_) 2, by decide +kernel, ?_⟩
  · have hfree : ∀ n < 2, ∀ x ∈ (run (step Chain.sb) (boot Chain.sb Chain.disk) ((Chain.calls 1).take n)).toOption,
        3 ≤ freeEntries x := by
      decide +kernel
    exact hfree n hn s (by rw [hs]; rfl)
  · refine (htable (by decide +kernel) _ rfl 1 5).not.mpr fun h => ?_
    exact absurd h.2 (by decide +kernel)

end Xv6.Fs
