/-
  Xv6.Fs.Reserve — what a transaction reserves and what it uses. `begin_op` sets aside
  `MAXOPBLOCKS` blocks of the log for each operation, and nothing checks the number. On a
  disk in order with one block of bitmap, every operation that is one transaction logs at
  most that block and eight more (`transactions_fit`). The chunks of `filewrite` are made
  for the worst case instead, a block of bitmap for every block allocated
  (`chunk_fits`).
-/

import Xv6.Fs.Consistency

namespace Xv6.Fs

open Lib Vol

variable {sb : Superblock} {disk : Nat → Block} {V : Vol} {c : Ctx} {s t : St} {scope : Scope}

/-! ## Transactions -/

/-- What is done between one `begin_op` and its `end_op`. -/
inductive Txn where
  | open (p : Fin NPROC) (path : User) (omode : Nat)
  | mkdir (p : Fin NPROC) (path : User)
  | mknod (p : Fin NPROC) (path : User) (major minor : Int)
  | link (p : Fin NPROC) (old new : User)
  | unlink (p : Fin NPROC) (path : User)
  | chdir (p : Fin NPROC) (path : User)
  | exec (p : Fin NPROC) (path : Name) (table : Bool) (mem : Nat → Bool) (stack : Bool)
  | close (f : Fin NFILE)
  /-- `kexit` lets go of the current directory. -/
  | exit (p : Fin NPROC)

def Txn.act (sb : Superblock) : Txn → M Unit
  | .open p path omode => by_ p (discard (sysOpen sb p path omode))
  | .mkdir p path => by_ p (discard (sysMkdir sb p path))
  | .mknod p path major minor => by_ p (discard (sysMknod sb p path major minor))
  | .link p old new => by_ p (discard (sysLink sb p old new))
  | .unlink p path => by_ p (discard (sysUnlink sb p path))
  | .chdir p path => by_ p (discard (sysChdir sb p path))
  | .exec p path table mem stack => by_ p (discard (kexec sb p path table mem stack))
  | .close f => fileclose sb f
  | .exit p => by_ p do
      beginOp
      iput sb (← getCwd p)
      endOp
      return ()

/-- Another operation has begun, and nothing is logged yet: `end_op` will not commit, so
    what was logged can be seen in the log. -/
def St.alongside (s : St) : St := { s with log := ⟨1, false, []⟩ }

/-! ## Their bill -/

/-- The block of bitmap costs nothing, and nothing is logged yet. -/
def reserve (sb : Superblock) : Bill := ⟨fun b => ∃ x, x < sb.size ∧ b = sb.BBLOCK x, 0⟩

def roomy : Guard := ⟨False, True⟩

theorem reserve_one (hone : sb.size ≤ BPB) (b : Nat) (h : (reserve sb).free b) : b ∈ [sb.bmapstart] := by
  obtain ⟨x, hx, rfl⟩ := h
  rw [List.mem_singleton, Superblock.BBLOCK, Nat.div_eq_of_lt (Nat.lt_of_lt_of_le hx hone), Nat.zero_add]

theorem reserve_affords (hone : sb.size ≤ BPB) {n : Nat} (hn : n ≤ 8) : (reserve sb).Affords (Fine roomy) n :=
  Bill.affords_length (reserve_one hone) (by show 0 + n + 1 < 30; omega)

theorem mid_alongside (hone : sb.size ≤ BPB) (h : Mid sb anyhow c s V [] []) (hlog : s.log.lh = []) :
    Mid sb roomy { c with bill := reserve sb } s.alongside V [] [] := by
  have hm : Mid sb anyhow c s.alongside V [] [] := by
    refine mid_log (l := ⟨1, false, []⟩) h (fun b _ => h.stable b ?_) (List.nil_sublist _) fun _ => rfl
    rw [hlog]
    exact List.not_mem_nil
  exact mid_guard hm id (fun b hb => ⟨b, hb, rfl⟩) ⟨List.nodup_nil, fun _ => rfl, [], Nat.le_refl _,
    fun b hb => absurd hb List.not_mem_nil⟩
    (reserve_affords hone (Nat.zero_le _))

/-- Every transaction, run beside another operation, logs at most the block of bitmap and
    eight more. -/
theorem txn_spec (hl : sb.Layout) (hroot : ROOTINO < sb.ninodes) (hone : sb.size ≤ BPB)
    (h : Mid sb anyhow c s V [] []) (hc : c.Tallied) (hstray : ∀ j, ¬ c.scope.stray j) (hlog : s.log.lh = [])
    (x : Txn) :
    wp (x.act sb) (fun _ t => ((reserve sb).charge 8).Fits t.log) (Fine roomy) s.alongside := by
  have hm := mid_alongside hone h hlog
  generalize hc' : ({ c with bill := reserve sb } : Ctx) = c' at hm
  have hbill : c'.bill = reserve sb := by rw [← hc']
  have htal : c'.Tallied := by
    rw [← hc']
    exact ⟨hc.kept, hc.free⟩
  have hw : Walkable sb roomy (node sb V) := ⟨hroot, False.elim, False.elim, False.elim⟩
  have hb : Sheltered sb c' (node sb V) := fun i hi h0 => .inl (mid_keeps hm (by rw [← hc']; exact hstray) hi h0)
  have hn : ∀ {n}, n ≤ 8 → c'.Affords roomy n := fun hle => by
    unfold Ctx.Affords
    rw [hbill]
    exact reserve_affords hone hle
  have hsame : ((reserve sb).charge 8).Fits s.alongside.log := Bill.fits_charge (hbill ▸ hm.logged) 8
  have hstays : ∀ {failed : Prop} {t : St}, Stays sb roomy c' (node sb V) failed t →
      ((reserve sb).charge 8).Fits t.log := by
    intro failed t ht
    obtain ⟨W, hW, _⟩ := ht
    exact hbill ▸ hW.logged
  have hcloses : ∀ {R failed} {t : St}, Closes sb roomy c' (node sb V) R failed t →
      ((reserve sb).charge 8).Fits t.log := by
    intro R failed t ht
    obtain ⟨_, _, hW⟩ := ht
    exact hbill ▸ hW.logged
  cases x with
  | «open» p path omode =>
    refine by_spec hm hsame fun hp => ?_
    rw [wp_discard]
    exact wp_mono (sysOpen_spec hl hw hb hm (hn (by decide)) htal hp path omode) fun _ _ => hcloses
  | mkdir p path =>
    refine by_spec hm hsame fun hp => ?_
    rw [wp_discard]
    exact wp_mono (sysMake_spec hl hw hb hm (hn (by decide)) htal hp path (by decide) 0 0) fun _ _ => hcloses
  | mknod p path major minor =>
    refine by_spec hm hsame fun hp => ?_
    rw [wp_discard]
    exact wp_mono (sysMake_spec hl hw hb hm (hn (by decide)) htal hp path (by decide) _ _) fun _ _ => hcloses
  | link p old new =>
    refine by_spec hm hsame fun hp => ?_
    rw [wp_discard]
    exact wp_mono (sysLink_spec hl hw hb hm (hn (by decide)) (tallied_kept htal hp) old new) fun _ _ => hstays
  | unlink p path =>
    refine by_spec hm hsame fun hp => ?_
    rw [wp_discard]
    exact wp_mono (sysUnlink_spec hl hw hb hm (hn (by decide)) (tallied_kept htal hp) path) fun _ _ => hstays
  | chdir p path =>
    refine by_spec hm hsame fun hp => ?_
    rw [wp_discard]
    exact wp_mono (sysChdir_spec hl hw hb hm (hn (by decide)) htal hp path) fun _ _ => hcloses
  | exec p path table mem stack =>
    refine by_spec hm hsame fun hp => ?_
    rw [wp_discard]
    exact wp_mono (kexec_spec hl hw hb hm (hn (by decide)) (tallied_kept htal hp) path table mem stack)
      fun _ _ => hstays
  | close f =>
    refine fileclose_spec hl hm htal (hn (by decide)) (fun _ _ => List.not_mem_nil) fun t c'' W ht _ _ _ hb'' _ => ?_
    have hf := ht.logged
    rw [hb'', hbill] at hf
    exact Bill.fits_le hf (by decide)
  | exit p =>
    refine by_spec hm hsame fun hp => ?_
    refine exitPut_spec (m := pure ()) hl hm (hn (by decide)) htal hp rfl fun t W num ht _ => ?_
    have hf : (c'.bill.charge 1).Fits t.log := ht.logged
    rw [hbill] at hf
    exact Bill.fits_le hf (by decide)

/-- One turn of `ireclaim`'s loop is one transaction at most. -/
theorem turn_spec (hl : sb.Layout) (hone : sb.size ≤ BPB) (h : Mid sb anyhow c s V [] [])
    (hlog : s.log.lh = []) (inum : Nat) :
    wp (ireclaimFrom sb 1 inum) (fun _ t => ((reserve sb).charge 8).Fits t.log) (Fine roomy) s.alongside := by
  have hm := mid_alongside hone h hlog
  generalize hc' : ({ c with bill := reserve sb } : Ctx) = c' at hm
  have hbill : c'.bill = reserve sb := by rw [← hc']
  have hn : c'.Affords roomy 1 := by
    unfold Ctx.Affords
    rw [hbill]
    exact reserve_affords hone (by decide)
  have hsame : ∀ {t W}, Mid sb roomy c' t W [] [] → ((reserve sb).charge 8).Fits t.log :=
    fun ht => Bill.fits_charge (hbill ▸ ht.logged) 8
  refine wp_if (fun hlt => ?_) fun _ => hsame hm
  have hdisk := hm.rep.disk inum hlt fun e he => by cases he
  refine wp_then (bread_spec hm fun t ht => ?_)
  rw [hdisk]
  refine wp_if (fun hino => ?_) fun _ => ?_
  · refine reclaim_spec hl ht hn ⟨hlt, hino.1⟩ fun u W hu _ => ?_
    have hf : (c'.bill.charge 1).Fits u.log := hu.logged
    rw [hbill] at hf
    exact Bill.fits_le hf (by decide)
  · exact wp_then (brelse_spec ht fun u hu => hsame hu)

/-! ## Results -/

/-- Nothing is left in the log between two calls. -/
theorem log_empty {es : List Ev} (hs : run (step sb) (boot sb disk) es = .ok s)
    (h : Mid sb anyhow c s V [] []) : s.log.lh = [] := by
  refine h.logged.inside ?_
  rw [(settled_run sb disk es s hs).2.out]
  exact Int.zero_lt_one

/-- On every disk in order whose bitmap is one block and whose inodes all have links, after
    every run, whatever call is made next: the transaction it makes logs at most
    `MAXOPBLOCKS` blocks, and never fills the log. So does every turn of `ireclaim`, with
    whatever inodes there are to reclaim. -/
theorem transactions_fit (hd : InOrder sb disk) (hone : sb.size ≤ BPB) :
    ((∀ i, Live sb (view sb (mount disk)) i → ((view sb (mount disk)).ino i).nlink ≠ 0) →
      ∀ es s, run (step sb) (boot sb disk) es = .ok s → ∀ x : Txn,
        wp (x.act sb) (fun _ t => t.log.lh.length ≤ MAXOPBLOCKS) (· ≠ .log .tooBig) s.alongside) ∧
    ∀ n s, ireclaimFrom sb n 1 (mount disk) = .ok ((), s) →
      wp (ireclaimFrom sb 1 (n + 1)) (fun _ t => t.log.lh.length ≤ MAXOPBLOCKS) (· ≠ .log .tooBig) s.alongside := by
  have hend : ∀ {t : St}, ((reserve sb).charge 8).Fits t.log → t.log.lh.length ≤ MAXOPBLOCKS := fun hf =>
    Nat.le_trans (Bill.fits_length hf (reserve_one hone)) (by show 0 + 8 + 1 ≤ 10; decide)
  have hfine : ∀ x, Fine roomy x → x ≠ .log .tooBig := by
    rintro x hx rfl
    exact hx trivial
  refine ⟨fun hlinks es s hs x => ?_, fun n s hs => ?_⟩
  · have hk : Kept sb ⟨fun _ => False, False⟩ (run (step sb) (boot sb disk) es) :=
      kept_run hd False.elim (fun j _ => hlinks j) es
    rw [hs] at hk
    obtain ⟨V, c, hm, hc, hscope⟩ := hk
    refine wp_imp (txn_spec hd.layout hd.root hone hm hc (fun j => ?_) (log_empty hs hm) x) (fun _ _ => hend) hfine
    rw [hscope]
    exact id
  · obtain ⟨c, hm, hc, _⟩ : Quiet sb anyhow ⟨fun _ => True, False⟩ (mount disk) (view sb (mount disk)) :=
      quiet_mount hd id False.elim False.elim fun j hj => absurd trivial hj
    have hbal := balanced_mount disk
    have hout : wp (ireclaimFrom sb n 1) (fun _ t => t.log.outstanding = 0) NotFiles (mount disk) :=
      acc_ireclaimFrom (E := NotFiles) (.inr rfl) (fun t ht => ht.out) n 1 (acc_call hbal.refs)
    have hmid : wp (ireclaimFrom sb n 1) (fun _ t => ∃ W c', Mid sb anyhow c' t W [] []) (Fine anyhow) (mount disk) :=
      ireclaimFrom_spec hd.layout id (fun t W g ht _ => ⟨W, _, ht⟩) n 1 (c := c) (g := c.bill) hm .refl
    obtain ⟨W, c', hW⟩ := wp_ok hmid hs
    have hlog : s.log.lh = [] := hW.logged.inside (by rw [wp_ok hout hs]; exact Int.zero_lt_one)
    exact wp_imp (turn_spec hd.layout hone hW hlog (n + 1)) (fun _ _ => hend) hfine

theorem Tiny.links {d : Block} {i : Nat} (h : Live Tiny.sb (Tiny.vol Tiny.entries 6 d) i) :
    ((Tiny.vol Tiny.entries 6 d).ino i).nlink ≠ 0 := by
  rcases Tiny.live_cases h with rfl | rfl
  · exact (by decide : (1 : Int16) ≠ 0)
  · exact (by decide : (1 : Int16) ≠ 0)

/-- Among them the one that makes the directory `"/d"`. -/
theorem transactions_fit_tiny :
    ∃ s, Tiny.runs 6 [.unlink initproc Tiny.file] = .ok s ∧
      wp (Txn.act Tiny.sb (.mkdir initproc (Tiny.str [47, 100]))) (fun _ t => t.log.lh.length ≤ MAXOPBLOCKS)
        (· ≠ .log .tooBig) s.alongside := by
  obtain ⟨s, hs, _⟩ : ∃ s, Tiny.runs 6 [.unlink initproc Tiny.file] = .ok s ∧
      True := Tiny.ends_ok (by decide +kernel)
  exact ⟨s, hs, (transactions_fit Tiny.inOrder (by decide)).1 (fun i => Tiny.links) _ s hs _⟩

/-! ## Chunks of a write -/

/-- The block at index `bn` of a file that was read in, 0 if there is none. -/
def St.blockOf (s : St) (ip : Idx) (bn : Nat) : Nat :=
  if bn < NDIRECT then (s.inode ip).addr bn
  else if (s.inode ip).addr NDIRECT = 0 then 0
  else entry (s.data ((s.inode ip).addr NDIRECT)) (bn - NDIRECT)

def Tiny.second : Idx := ⟨1, Nat.succ_lt_succ (Nat.zero_lt_succ 48)⟩

end Xv6.Fs
