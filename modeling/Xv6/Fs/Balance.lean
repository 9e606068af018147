/-
  Xv6.Fs.Balance — the books of both tables over runs of any calls by any processes.
-/

import Xv6.Fs.FdCalls

namespace Xv6.Fs

open Lib

section calls

variable {sb : Superblock} {fb : Prop} {c : Call} {s : St} {p : Fin NPROC} {E : Panic → Prop}

/-! ## The machine -/

theorem books_by {m : M Unit} (h : Acc c s [] []) (hb : Square fb c)
    (hm : (c.proc p).live = true → wp m (fun _ t => Done fb c t) (Safe fb E) s) :
    wp (by_ p m) (fun _ t => Done fb c t) (Safe fb E) s := by
  unfold by_
  rw [wp_bind, wp_get, h.proc]
  exact wp_if hm fun _ => done_same h hb

/-- The same for a call whose result is of no interest. -/
theorem books_call {α : Type} {m : M α} (h : Acc c s [] []) (hb : Square fb c)
    (hm : (c.proc p).live = true → wp m (fun _ t => Done fb c t) (Safe fb E) s) :
    wp (by_ p (discard m)) (fun _ t => Done fb c t) (Safe fb E) s := by
  refine books_by h hb fun hp => ?_
  rw [wp_discard]
  exact hm hp

variable [Mild E]

/-- Every call of every process ends owing nothing, or stops. -/
theorem books_act (e : Ev) (h : Acc c s [] []) (hs : Spare E c.kept 3) (hb : Square fb c) :
    wp (act sb e) (fun _ t => Done fb c t) (Safe fb E) s := by
  have hs' : Spare (Safe fb E) c.kept 3 := spare_safe hs
  have hq : ∀ (_ : Int) t, Acc c t [] [] → Done fb c t := fun _ _ ht => done_same ht hb
  cases e with
  | «open» p path omode => exact books_call h hb fun hp => books_sysOpen h hs hb hp
  | mkdir p path | mknod p path major minor => exact books_call h hb fun _ => acc_sysMake h hs' hq
  | chdir p path => exact books_call h hb fun hp => books_sysChdir h hs hb hp
  | link p old new => exact books_call h hb fun _ => acc_sysLink h hs' hq
  | unlink p path => exact books_call h hb fun _ => acc_sysUnlink h hs' hq
  | close p fd => exact books_call h hb fun hp => books_sysClose h hb hp
  | dup p fd => exact books_call h hb fun hp => books_sysDup h hb hp
  | read p fd dst n ext => exact books_call h hb fun _ => books_sysRead h hb
  | write p fd src n ext => exact books_call h hb fun _ => books_sysWrite h hb
  | fstat p fd ok => exact books_call h hb fun _ => acc_sysFstat h hq
  | pipe p page ok => exact books_call h hb fun hp => books_sysPipe h hb hp
  | exec p path args table mem stack => exact books_call h hb fun _ => acc_sysExec h hs' hq
  | fork p q ok => exact books_by h hb fun hp => books_kfork h hb hp
  | exit p => exact books_by h hb fun hp => books_kexit h hb hp
  | evict b =>
    show Done fb c (if b ∈ s.log.lh then s else { s with data := upd s.data b (s.home b) })
    split
    · exact done_same h hb
    · exact done_same { h with } hb

theorem acc_ireclaimFrom {Q : Unit → St → Prop} (hs : Spare E c.kept 1) (hq : ∀ t, Acc c t [] [] → Q () t)
    (fuel : Nat) :
    ∀ inum {s}, Acc c s [] [] → wp (ireclaimFrom sb fuel inum) Q E s := by
  induction fuel with
  | zero => exact fun _ s h => hq s h
  | succ fuel ih =>
    intro inum s h
    refine wp_if ?_ (fun _ => hq s h)
    intro _
    refine wp_then (acc_bread h ?_)
    intro bp t ht
    refine wp_if ?_ ?_
    · intro _
      refine wp_then (acc_iget ht hs ?_)
      intro ip t ht
      refine wp_then (acc_brelse ht ?_)
      intro t ht
      refine wp_then (acc_beginOp ht ?_)
      intro t ht
      refine wp_then (acc_ilock ht ?_)
      intro t ht
      refine wp_then (acc_iunlock ht ?_)
      intro t ht
      refine wp_then (acc_iput ht ?_)
      intro t ht
      exact wp_then (acc_endOp ht fun t ht => ih _ ht)
    · intro _
      exact wp_then (acc_brelse ht fun t ht => ih _ ht)

theorem acc_ireclaim {Q : Unit → St → Prop} (h : Acc c s [] []) (hs : Spare E c.kept 1)
    (hq : ∀ t, Acc c t [] [] → Q () t) :
    wp (ireclaim sb) Q E s := acc_ireclaimFrom hs hq _ _ h

end calls

/-! ## The inode table -/

/-- Between two calls: an entry of the inode table is referenced by the open files and the
    current directories in it and by nobody else, and a file that is not open stands for
    nothing. -/
structure Balanced (s : St) : Prop where
  refs : ∀ e, (s.inode e).ref = held s.file s.proc e
  free : ∀ f, (s.file f).ref ≤ 0 → (s.file f).type = .none

/-- What `t` has kept of `s`: every transaction begun since is over, and every lock and
    buffer taken since given back. -/
structure Settled (s t : St) : Prop where
  out : t.log.outstanding = s.log.outstanding
  lock : ∀ e, (t.inode e).lock = (s.inode e).lock
  bufs : t.bufs = s.bufs

def St.call (s : St) : Call :=
  ⟨s.log.outstanding, s.bufs, fun e => (s.inode e).lock, s.file, s.proc, s.pipe, held s.file s.proc⟩

theorem acc_call {s : St} (h : ∀ e, (s.inode e).ref = held s.file s.proc e) : Acc s.call s [] [] where
  file := rfl
  proc := rfl
  pipe := rfl
  out := rfl
  bufs := rfl
  refs e := by
    rw [h e]
    exact (Int.add_zero _).symm
  locks e := by simp [St.call]
  fresh e he := by cases he
  nodup := List.nodup_nil

theorem balanced_done {fb : Prop} {s t : St} (h : Done fb s.call t) : Balanced t ∧ Settled s t := by
  obtain ⟨file, proc, pipe, kept, hacc, hb⟩ := h
  refine ⟨⟨?_, ?_⟩, ⟨hacc.out, ?_, hacc.bufs⟩⟩
  · intro e
    have hkept : kept e = held file proc e := hb.kept e
    rw [hacc.file, hacc.proc, hacc.refs e]
    show (kept e : Int) + 0 = held file proc e
    rw [hkept, Int.add_zero]
  · rw [hacc.file]
    exact hb.free
  · intro e
    have := hacc.locks e
    rw [Bool.eq_iff_iff, this]
    simp [St.call]

/-- The process `userinit` makes, and the slot its first child gets. -/
def initproc : Fin NPROC := ⟨0, Nat.zero_lt_succ 63⟩
def child : Fin NPROC := ⟨1, Nat.succ_lt_succ (Nat.zero_lt_succ 62)⟩

/-- `mount` has one process, in the root directory. -/
theorem balanced_mount (disk : Nat → Block) : Balanced (mount disk) := by
  refine ⟨?_, fun _ _ => rfl⟩
  intro e
  have hfile : total (fun x : File => (x.holds e).toNat) (mount disk).file = 0 := total_eq_zero.mpr fun _ => rfl
  have hproc : total (fun x : Proc => (x.holds e).toNat) (mount disk).proc = (decide (Idx.zero = e)).toNat := by
    unfold total
    rw [Finset.sum_eq_single initproc]
    · simp [mount, Proc.holds, initproc]
    · intro p _ hp
      have : ¬ p.1 = 0 := fun h0 => hp (Fin.ext h0)
      simp [mount, Proc.holds, this]
    · intro hp
      exact absurd (Finset.mem_univ _) hp
  unfold held
  rw [hfile, hproc]
  by_cases he : e.1 = 0
  · have : Idx.zero = e := Fin.ext he.symm
    simp [mount, he, this]
  · have : ¬ Idx.zero = e := fun h0 => he (by rw [← h0]; rfl)
    simp [mount, he, this, noInode]

theorem square_balanced {s : St} (h : Balanced s) : Square False s.call :=
  ⟨⟨fun _ => rfl, h.free, False.elim, False.elim⟩, False.elim⟩

theorem settled_boot (sb : Superblock) (disk : Nat → Block) (s : St) :
    boot sb disk = .ok s → Balanced s ∧ Settled (mount disk) s := by
  have hm := balanced_mount disk
  have hrun : wp (ireclaim sb) (fun _ t => Done False (mount disk).call t) NotFiles (mount disk) :=
    acc_ireclaim (acc_call hm.refs) (.inr rfl) fun t ht => done_same ht (square_balanced hm)
  refine wp_outcome (P := fun r => r = .ok s → Balanced s ∧ Settled (mount disk) s) (wp_imp hrun ?_ ?_)
  · intro _ t ht hs
    cases hs
    exact balanced_done ht
  · intro x _ hs
    cases hs

theorem settled_step (sb : Superblock) (s : St) (e : Ev) (t : St) (h : Balanced s) :
    step sb (.ok s) e = .ok t → Balanced t ∧ Settled s t := by
  refine wp_outcome (P := fun r => r = .ok t → Balanced t ∧ Settled s t)
    (wp_imp (books_act (E := NotFiles) e (acc_call h.refs) (.inr rfl) (square_balanced h)) ?_ ?_)
  · intro _ u hu ht
    cases ht
    exact balanced_done hu
  · intro x _ ht
    cases ht

theorem settled_run (sb : Superblock) (disk : Nat → Block) (es : List Ev) (s : St) :
    run (step sb) (boot sb disk) es = .ok s → Balanced s ∧ Settled (mount disk) s := by
  have hkeep : ∀ r e, (∀ s, r = .ok s → Balanced s ∧ Settled (mount disk) s) →
      ∀ s, step sb r e = .ok s → Balanced s ∧ Settled (mount disk) s := by
    intro r e h t ht
    cases r with
    | error x => cases ht
    | ok s =>
      obtain ⟨hb, hs⟩ := h s rfl
      obtain ⟨hb', ht'⟩ := settled_step sb s e t hb ht
      exact ⟨hb', ht'.out.trans hs.out, fun e => (ht'.lock e).trans (hs.lock e), ht'.bufs.trans hs.bufs⟩
  exact run_keeps hkeep es (fun s => settled_boot sb disk s) s

/-- Whatever the disk holds and whatever call is made, with whatever outcome, the call
    gives back what it took, and the inode table's books are in order after it, as they
    are after boot. -/
theorem calls_settled (sb : Superblock) :
    (∀ disk s, boot sb disk = .ok s → Balanced s ∧ Settled (mount disk) s) ∧
      ∀ s e t, Balanced s → step sb (.ok s) e = .ok t → Balanced t ∧ Settled s t :=
  ⟨settled_boot sb, settled_step sb⟩

namespace Tiny

def sb : Superblock := ⟨40, 35, 16, 2, 4⟩

def small (type : Int16) (size a : Nat) : Dinode := ⟨type, 0, 0, 1, size, fun k => if k.1 = 0 then a else 0⟩

def bitmap : Block := Bytes.ofFn fun x => if x = 0 then 127 else 0

/-- The root has the entries `l`, in block 5; inode 2 is a file of one block, the block `a`.
    Block 6 holds `d`. -/
def disk (l : List (Nat × Name)) (a : Nat) (d : Block) : Nat → Block := fun b =>
  if b = 2 then putDinode (putDinode Bytes.zero 64 (small T_DIR (DESIZE * l.length) 5)) 128 (small T_FILE 1024 a)
  else if b = 4 then bitmap
  else if b = 5 then Bytes.ofFn fun x => (l.flatMap fun e => mkDirent e.1 e.2).getD x 0
  else if b = 6 then d
  else Bytes.zero

/-- What `mkfs` puts into the root, and the file's name `"g"`. -/
def entries : List (Nat × Name) := [(1, dot), (1, dotdot), (2, [103])]

def str (l : Name) : User := fun x => (l ++ [0])[x]?

/-- The path `"/g"`. -/
abbrev file : User := str [47, 103]

/-- The file's block is `a`. -/
abbrev runs (a : Nat) (es : List Ev) : Except Panic St := run (step sb) (boot sb (disk entries a Bytes.zero)) es

def ends (P : St → Prop) [DecidablePred P] : Except Panic St → Bool
  | .ok s => decide (P s)
  | .error _ => false

theorem ends_ok {P : St → Prop} [DecidablePred P] {r : Except Panic St} (h : ends P r = true) :
    ∃ s, r = .ok s ∧ P s := by
  cases r with
  | error x => cases h
  | ok s => exact ⟨s, rfl, of_decide_eq_true h⟩

end Tiny

/-- `unlink("/g")` frees the file's inode in its transaction. -/
theorem calls_settled_unlink :
    ∃ s t, boot Tiny.sb (Tiny.disk Tiny.entries 6 Bytes.zero) = .ok s ∧ step Tiny.sb (.ok s)
      (.unlink initproc Tiny.file) = .ok t ∧
      (getDinode (t.data 2) 128).type = 0 ∧ Balanced t ∧ Settled s t := by
  obtain ⟨s, hs, hr⟩ : ∃ s, boot Tiny.sb (Tiny.disk Tiny.entries 6 Bytes.zero) = .ok s ∧
      Tiny.ends (fun t => (getDinode (t.data 2) 128).type = 0) (step Tiny.sb (.ok s) (.unlink initproc Tiny.file)) =
      true :=
    Tiny.ends_ok (by decide +kernel)
  obtain ⟨t, ht, hfree⟩ := Tiny.ends_ok hr
  exact ⟨s, t, hs, ht, hfree, (calls_settled _).2 _ _ _ ((calls_settled _).1 _ _ hs).1 ht⟩

/-! ## The file table -/

/-- Between two calls: a file is referenced once by each descriptor, one without a
    descriptor stands for nothing, and an end of a pipe is open while an open file stands
    for it, the page being in use as long as an end is open. -/
structure FileTable (s : St) : Prop where
  refs : ∀ f, (s.file f).ref = slots s.proc f
  free : ∀ f, (s.file f).ref = 0 → (s.file f).type = .none
  idle : Idle s.proc
  ends : Ends s.file s.pipe

def Filed : Except Panic St → Prop
  | .ok s => Balanced s ∧ FileTable s
  | .error x => NotFiles x

theorem filed_done {s t : St} (h : Done True s.call t) : Filed (.ok t) := by
  refine ⟨(balanced_done h).1, ?_⟩
  obtain ⟨file, proc, pipe, kept, hacc, hb⟩ := h
  refine ⟨?_, ?_, ?_, ?_⟩
  · intro f
    rw [hacc.file, hacc.proc]
    exact (hb.slots trivial f).trans (Int.add_zero _)
  · intro f hf
    rw [hacc.file] at hf ⊢
    exact hb.free f (le_of_eq hf)
  · rw [hacc.proc]
    exact hb.idle trivial
  · rw [hacc.file, hacc.pipe]
    exact hb.ends trivial

theorem square_filed {s : St} (hbal : Balanced s) (htab : FileTable s) : Square True s.call := by
  refine ⟨⟨fun _ => rfl, hbal.free, ?_, fun _ => htab.ends⟩, fun _ => htab.idle⟩
  intro _ f
  show (s.file f).ref = slots s.proc f + 0
  rw [htab.refs f, Int.add_zero]

theorem filed_step {sb : Superblock} {r : Except Panic St} {e : Ev} (h : Filed r) : Filed (step sb r e) := by
  cases r with
  | error x => exact h
  | ok s =>
    obtain ⟨hbal, htab⟩ := h
    exact wp_outcome (wp_imp (books_act (E := NotFiles) e (acc_call hbal.refs) (.inr rfl) (square_filed hbal htab))
      (fun _ _ => filed_done) fun x hx => hx trivial)

theorem filed_boot (sb : Superblock) (disk : Nat → Block) : Filed (boot sb disk) := by
  have hbal := balanced_mount disk
  have hno : ∀ f pi w, ¬ ((mount disk).file f).isEnd pi w := fun f pi w hx => absurd hx.1 (lt_irrefl _)
  have hshut : ∀ pi w, ((mount disk).pipe pi).isOpen w ≠ true := by
    intro pi w hw
    cases w <;> cases hw
  have htab : FileTable (mount disk) := by
    refine ⟨?_, fun _ _ => rfl, fun _ _ _ => rfl, ?_, ?_, ?_⟩
    · intro f
      have hslots : slots (mount disk).proc f = 0 := total_eq_zero.mpr fun p => total_eq_zero.mpr fun fd => rfl
      rw [hslots]
      rfl
    · exact fun pi => iff_of_false (by simp [mount]) fun ⟨w, hw⟩ => hshut pi w hw
    · exact fun pi w => iff_of_false (hshut pi w) fun ⟨f, hf⟩ => hno f pi w hf
    · exact fun pi w f g hf _ => absurd hf (hno f pi w)
  have hrun : wp (ireclaim sb) (fun _ t => Done True (mount disk).call t) NotFiles (mount disk) :=
    acc_ireclaim (acc_call hbal.refs) (.inr rfl) fun t ht => done_same ht (square_filed hbal htab)
  exact wp_outcome (wp_imp hrun (fun _ _ => filed_done) fun x hx => hx)

/-- Closing a file that stands for nothing touches nothing else. -/
theorem fileclose_none (sb : Superblock) {f : Fin NFILE} {u : St} (h1 : (u.file f).ref = 1)
    (h2 : (u.file f).type = .none) :
    fileclose sb f u = .ok ((), { u with file := upd u.file f (u.file f).closed }) := by
  refine wp_run ?_
  unfold fileclose
  show wp (if (u.file f).ref < 1 then _ else _) _ _ u
  rw [if_neg (by omega), if_neg (by omega)]
  show wp (if (u.file f).type = .pipe then _ else _) _ _ { u with file := upd u.file f (u.file f).closed }
  rw [if_neg (by rw [h2]; decide), if_neg (by rw [h2]; decide)]
  exact ⟨rfl, rfl⟩

/-- The file table's books are in order after any calls of any processes, and neither
    `filedup` nor `fileclose` panics nor is a pipe's page freed twice; closing a file that
    `filealloc` has just given, as the error paths do, touches that file only. -/
theorem file_table_books (sb : Superblock) (disk : Nat → Block) (es : List Ev) :
    (∀ s, run (step sb) (boot sb disk) es = .ok s → FileTable s ∧
      ∀ f t, filealloc s = .ok (some f, t) → ∀ u, u.file f = t.file f →
        fileclose sb f u = .ok ((), { u with file := upd u.file f (u.file f).closed })) ∧
      ∀ x, run (step sb) (boot sb disk) es = .error x → NotFiles x := by
  have hfiled : Filed (run (step sb) (boot sb disk) es) := run_keeps (fun _ _ => filed_step) es (filed_boot sb disk)
  constructor
  · intro s hs
    rw [hs] at hfiled
    refine ⟨hfiled.2, ?_⟩
    intro f t hf u hu
    have hres : wp filealloc (fun r t => ∀ f, r = some f → (t.file f).ref = 1 ∧ (t.file f).type = .none)
        (Safe False NotFiles) s := by
      refine books_filealloc (acc_call hfiled.1.refs) (square_balanced hfiled.1).toBooks (fun _ h => by cases h) ?_
      intro g file t htype hacc _ hg _ _ f hgf
      cases hgf
      rw [hacc.file]
      show (file g).ref = 1 ∧ (file g).type = .none
      exact ⟨by rw [hg], htype⟩
    have := wp_ok hres hf f rfl
    rw [← hu] at this
    exact fileclose_none sb this.1 this.2
  · intro x hx
    rw [hx] at hfiled
    exact hfiled

theorem file_table_books_pipe :
    ∃ s, run (step ⟨40, 35, 0, 2, 4⟩) (boot ⟨40, 35, 0, 2, 4⟩ fun _ => Bytes.zero)
        [.pipe initproc (some 7) true, .fork initproc child true, .exit child, .close initproc 0] = .ok s ∧
      s.pipe 7 = ⟨true, false, true⟩ ∧ FileTable s := by
  obtain ⟨s, hs, hpipe⟩ : ∃ s, run (step ⟨40, 35, 0, 2, 4⟩) (boot ⟨40, 35, 0, 2, 4⟩ fun _ => Bytes.zero)
        [.pipe initproc (some 7) true, .fork initproc child true, .exit child, .close initproc 0] = .ok s ∧
      s.pipe 7 = ⟨true, false, true⟩ := ⟨_, rfl, rfl⟩
  exact ⟨s, hs, hpipe, ((file_table_books _ _ _).1 s hs).1⟩

end Xv6.Fs
