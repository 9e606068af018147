/-
  Xv6.Fs.Undo — calls that fail. A call on names that returns -1 has undone whatever it
  did (`failed_calls_undone`). `open` has not: it makes a file before it looks for a free
  file and a free descriptor, and if there is none the new file stays
  (`open_leaves_file`); that is the only trace a failed `open` can leave
  (`failed_open_undone`).
-/

import Xv6.Fs.Reserve

namespace Xv6.Fs

open Lib Vol

variable {sb : Superblock} {disk : Nat → Block} {V W : Vol} {c : Ctx} {s t : St} {p : Fin NPROC}

/-- Nothing can be told from the inodes, the files and the processes: every inode has its
    type, link count and bytes, and what was open or a current directory still is. -/
structure Undone (sb : Superblock) (s t : St) : Prop where
  node : node sb (view sb t) = node sb (view sb s)
  file : t.file = s.file
  proc : t.proc = s.proc
  cwd : ∀ p, (s.proc p).live = true → (t.inode (s.proc p).cwd).inum = (s.inode (s.proc p).cwd).inum

theorem undone_mid (h : Mid sb anyhow c s V [] []) (ht : Mid sb anyhow (c.charge 8) t W [] []) (hc : c.Tallied)
    (hn : Fs.node sb W = Fs.node sb V) : Undone sb s t where
  node := by rw [view_node ht.rep ht.sound, view_node h.rep h.sound, hn]
  file := ht.file.trans h.file.symm
  proc := ht.proc.trans h.proc.symm
  cwd := fun p hp => by
    have hk : 0 < c.kept (s.proc p).cwd := by
      rw [h.proc] at hp ⊢
      exact tallied_kept hc hp
    exact (ht.num _ hk).trans (h.num _ hk).symm

/-- If the root is allocated and nothing strays, a call that fails changes no inode. -/
theorem fails_same {F : Nat → Node} (h : Mid sb anyhow c s V [] []) (hs : ∀ j, ¬ c.scope.stray j)
    (hroot : (Fs.node sb V ROOTINO).type ≠ 0) (hf : Fails sb c.Keeps (Fs.node sb V) F) :
    F = Fs.node sb V := by
  rcases hf with hf | ⟨h0, _⟩
  · exact sheds_none hf fun i => mid_keeps h hs
  · exact absurd h0 hroot

/-- After any run of a disk in order whose inodes all have links. -/
theorem quiet_run (hd : InOrder sb disk)
    (hlinks : ∀ i, Live sb (view sb (mount disk)) i → ((view sb (mount disk)).ino i).nlink ≠ 0) {es : List Ev}
    (hs : run (step sb) (boot sb disk) es = .ok s) :
    ∃ V c, Mid sb anyhow c s V [] [] ∧ c.Tallied ∧ (∀ j, ¬ c.scope.stray j) ∧ c.bill = .blank := by
  have hk : Kept sb ⟨fun _ => False, False⟩ (run (step sb) (boot sb disk) es) :=
    kept_run hd False.elim (fun j _ => hlinks j) es
  rw [hs] at hk
  obtain ⟨V, c, hm, hc, hscope⟩ := hk
  refine ⟨V, { c with bill := .blank }, mid_bill hm (fun _ _ => trivial) (Bill.fits_blank hm.logged) (.inl id),
    ⟨hc.kept, hc.free⟩, ?_, rfl⟩
  intro j
  show ¬ c.scope.stray j
  rw [hscope]
  exact id

/-! ## Calls on names -/

inductive NameCall where
  | link (old new : User)
  | unlink (path : User)
  | mkdir (path : User)
  | mknod (path : User) (major minor : Int)
  | chdir (path : User)

def NameCall.call (sb : Superblock) (p : Fin NPROC) : NameCall → M Int
  | .link old new => sysLink sb p old new
  | .unlink path => sysUnlink sb p path
  | .mkdir path => sysMkdir sb p path
  | .mknod path major minor => sysMknod sb p path major minor
  | .chdir path => sysChdir sb p path

theorem nameCall_spec (hl : sb.Layout) (hw : Walkable sb anyhow (node sb V)) (h : Mid sb anyhow c s V [] [])
    (hc : c.Tallied) (hbill : c.bill = .blank) (hp : (c.proc p).live = true) (x : NameCall) :
    wp (x.call sb p) (fun r t => Closes sb anyhow c (node sb V) (Fails sb c.Keeps (node sb V)) (r = -1) t)
      (Fine anyhow) s := by
  have hb : Sheltered sb c (node sb V) := fun _ _ _ => .inr (by rw [hbill]; trivial)
  have hn8 : c.Affords anyhow 8 := affords_open id _ _
  have hstays : ∀ (r : Int) (t : St), Stays sb anyhow c (node sb V) (r = -1) t →
      Closes sb anyhow c (node sb V) (Fails sb c.Keeps (node sb V)) (r = -1) t := fun _ _ => closes_stays hc fun _ => id
  cases x with
  | link old new => exact wp_mono (sysLink_spec hl hw hb h hn8 (tallied_kept hc hp) old new) hstays
  | unlink path => exact wp_mono (sysUnlink_spec hl hw hb h hn8 (tallied_kept hc hp) path) hstays
  | mkdir path => exact sysMake_spec hl hw hb h hn8 hc hp path (by decide) 0 0
  | mknod path major minor => exact sysMake_spec hl hw hb h hn8 hc hp path (by decide) _ _
  | chdir path => exact sysChdir_spec hl hw hb h hn8 hc hp path

/-- On a disk in order whose inodes all have links, after any run in which the root stayed
    allocated: whatever `link`, `unlink`, `mkdir`, `mknod` or `chdir` is called and fails,
    for whatever reason, every inode, open file and current directory is what it was. -/
theorem failed_calls_undone (hd : InOrder sb disk)
    (hlinks : ∀ i, Live sb (view sb (mount disk)) i → ((view sb (mount disk)).ino i).nlink ≠ 0) (es : List Ev) (s : St)
    (hs : run (step sb) (boot sb disk) es = .ok s) (hroot : ((view sb s).ino ROOTINO).type ≠ 0) (p : Fin NPROC)
    (hp : (s.proc p).live = true) (x : NameCall) (t : St) (ht : x.call sb p s = .ok (-1, t)) : Undone sb s t := by
  obtain ⟨V, c, hm, hc, hstray, hbill⟩ := quiet_run hd hlinks hs
  have hw : Walkable sb anyhow (node sb V) := ⟨hd.root, False.elim, False.elim, False.elim⟩
  rw [hm.proc] at hp
  obtain ⟨c', W, hend⟩ := wp_ok (nameCall_spec hd.layout hw hm hc hbill hp x) ht
  obtain ⟨hf, hc'⟩ := hend.undone rfl
  have hroot' : (node sb V ROOTINO).type ≠ 0 := by
    rw [← view_node hm.rep hm.sound]
    exact node_type_ne.mpr ⟨hd.root, hroot⟩
  exact undone_mid hm (hc' ▸ hend.mid) hc (fails_same hm hstray hroot' hf)

/-- A program that returns `r`, with a condition on the state then. -/
def Tiny.returns (m : M Int) (r : Int) (P : St → Prop) [DecidablePred P] (s : St) : Bool :=
  match m s with
  | .ok (a, t) => a == r && decide (P t)
  | .error _ => false

theorem Tiny.returns_ok {m : M Int} {r : Int} {P : St → Prop} [DecidablePred P] {s : St}
    (h : Tiny.returns m r P s = true) :
    ∃ t, m s = .ok (r, t) ∧ P t := by
  unfold Tiny.returns at h
  split at h
  · next a t hm =>
    obtain ⟨ha, ht⟩ := Bool.and_eq_true_iff.mp h
    exact ⟨t, by rw [hm, eq_of_beq ha], of_decide_eq_true ht⟩
  · cases h

/-- There is a `"/g"` already. -/
theorem failed_calls_undone_tiny :
    ∃ s t, Tiny.runs 6 [.open initproc Tiny.file O_RDWR] = .ok s ∧
      NameCall.call Tiny.sb initproc (.mkdir Tiny.file) s = .ok (-1, t) ∧ Undone Tiny.sb s t := by
  obtain ⟨s, hs, hroot, hp, hr⟩ : ∃ s, Tiny.runs 6 [.open initproc Tiny.file O_RDWR] = .ok s ∧
      ((view Tiny.sb s).ino ROOTINO).type ≠ 0 ∧ (s.proc initproc).live = true ∧
      Tiny.returns (NameCall.call Tiny.sb initproc (.mkdir Tiny.file)) (-1) (fun _ => True) s = true :=
    Tiny.ends_ok (by decide +kernel)
  obtain ⟨t, ht, _⟩ := Tiny.returns_ok hr
  exact ⟨s, t, hs, ht, failed_calls_undone Tiny.inOrder (fun _ => Tiny.links) _ s hs hroot initproc hp _ t ht⟩

/-! ## open -/

def St.Full (s : St) (p : Fin NPROC) : Prop := (∀ f, (s.file f).ref ≠ 0) ∨ ∀ fd, (s.proc p).ofile fd ≠ none

theorem live_same (hn : node sb (view sb t) = node sb (view sb s)) (i : Nat) :
    Live sb (view sb t) i ↔ Live sb (view sb s) i := by
  rw [← node_type_ne, ← node_type_ne, hn]

/-- Whether a file can be created is read off the blocks. -/
theorem creatable_view (h : Rep sb s V none) (hs : Sound sb V) (i : Nat) (path : Name) :
    Creatable sb (view sb s) i path ↔ Creatable sb V i path := by
  unfold Creatable
  rw [view_node h hs]
  refine exists_congr fun d => exists_congr fun name => and_congr_right fun hd => and_congr_right fun _ => ?_
  have hlive : Live sb V d := by
    refine node_type_ne.mp ?_
    rw [walkParent_dir hd]
    decide
  have hino : ∀ i < sb.ninodes, (view sb s).ino i = V.ino i := fun i hi => h.disk i hi fun e he => by cases he
  unfold Vacant
  rw [view_node h hs, entryFits_congr (view_slot h hs hlive) h.used]
  refine and_congr_left fun _ => exists_congr fun i => and_congr_right fun _ => and_congr_right fun hi => ?_
  rw [hino i hi]

/-- Opened to be created, the file at `path` could be made, and there is nothing to open it with. -/
def Leftover (sb : Superblock) (s : St) (p : Fin NPROC) (path : User) (omode : Nat) : Prop :=
  omode &&& O_CREATE ≠ 0 ∧
    (∃ name, argstr path = some name ∧ Creatable sb (view sb s) (origin s (s.proc p).cwd name) name) ∧ s.Full p

/-- How the `create` of a call that found `V` ends. -/
def CreateEnds (sb : Superblock) (c : Ctx) (V : Vol) (i : Nat) (path : Name) :
    Option Idx → St → Prop
  | none, v => ∃ W, Mid sb anyhow (c.charge 8) v W [] [] ∧ Fails sb c.Keeps (node sb V) (node sb W) ∧
    ¬ Creatable sb V i path
  | some ip, v => ∃ j W, Mid sb anyhow ((c.charge 7).pay (sb.IBLOCK j)) v W [(ip, j)] [ip] ∧
      (Sheds c.Keeps (node sb V) (node sb W) ∧ (node sb W j).type ≠ T_DIR ∧ ¬ Creatable sb V i path ∨
        Made sb c.Keeps (node sb V) T_FILE j (node sb W) ∧ Creatable sb V i path)

section open_

variable (hl : sb.Layout) (hw : Walkable sb anyhow (node sb V)) (h : Mid sb anyhow c s V [] [])
  (hc : c.Tallied) (hs : ∀ j, ¬ c.scope.stray j) (hroot : (node sb V ROOTINO).type ≠ 0)
  (hbill : c.bill = .blank) (hp : (c.proc p).live = true)

include hl hw h hc hs hroot hbill hp

/-- What is left by an `open` that fails is what its `create` made. -/
theorem sysOpen_undone (path : User) (omode : Nat) :
    wp (sysOpen sb p path omode) (fun r t => r = -1 → (Undone sb s t ↔ ¬ Leftover sb s p path omode))
      (Fine anyhow) s := by
  have hb : Sheltered sb c (node sb V) := fun _ _ _ => .inr (by rw [hbill]; trivial)
  have hn8 : c.Affords anyhow 8 := affords_open id _ _
  have hview : node sb (view sb s) = node sb V := view_node h.rep h.sound
  have hkept := tallied_kept hc hp
  have hall : KeepsAll sb c V := fun j hj h0 =>
    mid_keeps h hs (node_type_ne.mpr hj) (by rw [node_live hj]; exact h0)
  by_cases hcreate : omode &&& O_CREATE ≠ 0
  · unfold sysOpen
    split
    · next hpath =>
      refine fun _ => iff_of_true (undone_mid h (mid_charge h 8 hn8) hc rfl) fun hleft => ?_
      obtain ⟨_, ⟨name, hname, _⟩, _⟩ := hleft
      rw [hpath] at hname
      cases hname
    next name hpath =>
    have hleft : Leftover sb s p path omode ↔ Creatable sb V (c.origin (c.proc p).cwd name) name ∧ s.Full p := by
      unfold Leftover
      rw [hpath, h.proc]
      simp only [Option.some.injEq, exists_eq_left', creatable_view h.rep h.sound, mid_origin h hkept]
      exact and_iff_right hcreate
    refine wp_then (beginOp_spec h fun u hu => ?_)
    refine wp_then (mid_getCwd hu ?_)
    rw [if_pos hcreate, wp_bind]
    have hends : wp (create sb (c.proc p).cwd name T_FILE 0 0) (CreateEnds sb c V (c.origin (c.proc p).cwd name) name)
      (Fine anyhow) u :=
      create_spec hl hw hb hn8 hu .refl hkept (by decide) (fun v W hv hf hno => ⟨W, hv, hf, hno hall (by decide)⟩)
        (fun ip i v W hv hF hty hno => ⟨i, W, hv, .inl ⟨hF, hty, hno hall (by decide)⟩⟩)
        fun ip i v W hv hm hyes => ⟨i, W, hv, .inr ⟨hm, hyes hall (by decide)⟩⟩
    refine wp_mono hends fun r v hv => ?_
    cases r with
    | none =>
      obtain ⟨W, hW, hf, hno⟩ := hv
      exact wp_then (endOp_spec hW fun t ht _ =>
        iff_of_true (undone_mid h ht hc (fails_same h hs hroot hf)) fun hl => hno (hleft.mp hl).1)
    | some ip =>
      obtain ⟨i, W, hW, ⟨hF, hty, hno⟩ | ⟨hmade, hyes⟩⟩ := hv
      · refine wp_mono (openInode_spec (R := fun X => X = node sb V) hl hW hc h.bitmap hn8 (chg_calm (sheds_calm hF))
          (fun hd => absurd hd hty) fun _ W' hd => ?_) fun r t ht hr => ?_
        · exact sheds_none (hF.trans (sheds_drop hd)) fun i => mid_keeps h hs
        · obtain ⟨c', W', hend⟩ := ht
          obtain ⟨hn, hc'⟩ := hend.undone hr
          exact iff_of_true (undone_mid h (hc' ▸ hend.mid) hc hn) fun hl => hno (hleft.mp hl).1
      · obtain ⟨G, hG, hfree⟩ := hmade.was
        have hnew : ¬ Live sb (view sb s) i := by
          rw [← node_type_ne, hview, ← sheds_none hG fun i => mid_keeps h hs, hfree]
          exact fun hne => hne rfl
        refine wp_mono (openInode_spec (R := fun X => c.Full p ∧ X = node sb W) hl hW hc h.bitmap hn8 hmade.chg
          (fun hd => ?_)
          fun hwhy W' hd => ⟨?_, by rw [made_drop hmade hd]⟩) fun r t ht hr => ?_
        · rw [hmade.type] at hd
          exact absurd hd (by decide)
        · refine hwhy.resolve_left fun hdev => ?_
          rw [hmade.type] at hdev
          exact absurd hdev (by decide)
        · obtain ⟨c', W', hend⟩ := ht
          obtain ⟨⟨hfull, hn⟩, _⟩ := hend.undone hr
          refine iff_of_false (fun hun => hnew ((live_same hun.node i).mp ?_)) fun hno => hno (hleft.mpr ⟨hyes, ?_⟩)
          · rw [← node_type_ne, view_node hend.mid.rep hend.mid.sound, hn, hmade.type]
            decide
          · unfold St.Full
            rw [h.file, h.proc]
            exact hfull
  · refine wp_mono (sysOpen_spec hl hw hb h hn8 hc hp path omode) fun r t ht hr => ?_
    obtain ⟨c', W, hend⟩ := ht
    obtain ⟨hf, hc'⟩ := hend.undone hr
    refine iff_of_true (undone_mid h (hc' ▸ hend.mid) hc (fails_same h hs hroot ?_)) fun hl => hcreate hl.1
    exact hf.resolve_right fun hm => hcreate hm.1

end open_

/-- On a disk in order whose inodes all have links, after any run in which the root stayed
    allocated: an `open` that fails has changed nothing unless it was to create the file, the
    path leads to a directory that has not the name but a place for it, an inode is free, and
    no file or no descriptor is. -/
theorem failed_open_undone (hd : InOrder sb disk)
    (hlinks : ∀ i, Live sb (view sb (mount disk)) i → ((view sb (mount disk)).ino i).nlink ≠ 0) (es : List Ev) (s : St)
    (hs : run (step sb) (boot sb disk) es = .ok s) (hroot : ((view sb s).ino ROOTINO).type ≠ 0) (p : Fin NPROC)
    (hp : (s.proc p).live = true) (path : User) (omode : Nat) (t : St) (ht : sysOpen sb p path omode s = .ok (-1, t)) :
    Undone sb s t ↔ ¬ Leftover sb s p path omode := by
  obtain ⟨V, c, hm, hc, hstray, hbill⟩ := quiet_run hd hlinks hs
  have hw : Walkable sb anyhow (node sb V) := ⟨hd.root, False.elim, False.elim, False.elim⟩
  rw [hm.proc] at hp
  have hroot' : (node sb V ROOTINO).type ≠ 0 := by
    rw [← view_node hm.rep hm.sound]
    exact node_type_ne.mpr ⟨hd.root, hroot⟩
  exact wp_ok (sysOpen_undone hd.layout hw hm hc hstray hroot' hbill hp path omode) ht rfl

/-- Every descriptor of the process is `"/g"`. -/
def Tiny.descriptors : List Ev := .open initproc Tiny.file O_RDWR :: List.replicate 15 (.dup initproc 0)

/-- A file that is there is not created. -/
theorem creatable_walk {i : Nat} {path : Name} (h : Creatable sb V i path) :
    walk (node sb V) i (elems path) = none := by
  obtain ⟨d, name, hd, hno, _⟩ := h
  have hne : elems path ≠ [] := fun he => by
    rw [he] at hd
    cases hd
  rw [walk_parent _ _ hne, hd, Option.bind_some, hno, Option.map_none]

/-- `"/g"` is there: nothing is created. -/
theorem failed_open_undone_tiny :
    ∃ s t, Tiny.runs 6 Tiny.descriptors = .ok s ∧
      sysOpen Tiny.sb initproc Tiny.file (O_CREATE ||| O_RDWR) s = .ok (-1, t) ∧ Undone Tiny.sb s t := by
  obtain ⟨s, hs, hroot, hp, hthere, hr⟩ : ∃ s, Tiny.runs 6 Tiny.descriptors = .ok s ∧
      ((view Tiny.sb s).ino ROOTINO).type ≠ 0 ∧ (s.proc initproc).live = true ∧
      walk (node Tiny.sb (view Tiny.sb s)) ROOTINO (elems [47, 103]) ≠ none ∧
      Tiny.returns (sysOpen Tiny.sb initproc Tiny.file (O_CREATE ||| O_RDWR)) (-1) (fun _ => True) s = true :=
    Tiny.ends_ok (by decide +kernel)
  obtain ⟨t, ht, _⟩ := Tiny.returns_ok hr
  refine ⟨s, t, hs, ht, (failed_open_undone Tiny.inOrder (fun _ => Tiny.links) _ s hs hroot initproc hp _ _ t ht).mpr
    fun hleft => ?_⟩
  obtain ⟨_, ⟨name, hname, hcr⟩, _⟩ := hleft
  obtain rfl : [47, 103] = name := Option.some.inj hname
  exact hthere (creatable_walk hcr)

/-- Opened to be created, `"/h"` is there after the call has failed. -/
theorem open_leaves_file :
    InOrder Tiny.sb (Tiny.disk Tiny.entries 6 Bytes.zero) ∧
    ∃ s, Tiny.runs 6 Tiny.descriptors = .ok s ∧
      ∃ t, sysOpen Tiny.sb initproc (Tiny.str [47, 104]) (O_CREATE ||| O_RDWR) s = .ok (-1, t) ∧
        ¬ Live Tiny.sb (view Tiny.sb s) 3 ∧ Live Tiny.sb (view Tiny.sb t) 3 ∧ ¬ Undone Tiny.sb s t := by
  refine ⟨Tiny.inOrder, ?_⟩
  obtain ⟨s, hs, hnew, hr⟩ : ∃ s, Tiny.runs 6 Tiny.descriptors = .ok s ∧
      ((view Tiny.sb s).ino 3).type = 0 ∧
      Tiny.returns (sysOpen Tiny.sb initproc (Tiny.str [47, 104]) (O_CREATE ||| O_RDWR)) (-1)
        (fun t => ((view Tiny.sb t).ino 3).type ≠ 0) s = true := Tiny.ends_ok (by decide +kernel)
  obtain ⟨t, ht, hthere⟩ := Tiny.returns_ok hr
  have hlive : Live Tiny.sb (view Tiny.sb t) 3 := ⟨by decide, hthere⟩
  have hnot : ¬ Live Tiny.sb (view Tiny.sb s) 3 := fun h => h.2 hnew
  exact ⟨s, hs, t, ht, hnot, hlive, fun hun => hnot ((live_same hun.node 3).mp hlive)⟩

end Xv6.Fs
