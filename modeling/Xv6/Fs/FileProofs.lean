/-
  Xv6.Fs.FileProofs — kernel/file.c over `Mid`, and what holds when a call is over. A call
  begins and ends with no references and no locks of its own, the references kept are those
  of the open files and current directories, and what it did to the inodes is one `Chg`.
-/

import Xv6.Fs.Balance
import Xv6.Fs.LinkProofs

namespace Xv6.Fs

open Lib Vol

structure Ctx.Tallied (c : Ctx) : Prop where
  kept : ∀ e, c.kept e = held c.file c.proc e
  free : ∀ f, (c.file f).ref ≤ 0 → (c.file f).type = .none

/-- The context once `s` has other files and `kept` counts other references. -/
abbrev Ctx.moved (c : Ctx) (s : St) (file : Fin NFILE → File) (kept : Idx → Nat) : Ctx :=
  { c with file := file, kept := kept, num := fun e => (s.inode e).inum }

def After (sb : Superblock) (safe : Guard) (scope : Scope) (F : Nat → Node) (t : St) : Prop :=
  ∃ c V, Mid sb safe c t V [] [] ∧ c.Tallied ∧ c.scope = scope ∧ Chg sb F (node sb V)

/-- And if it was one transaction: it stayed on its bill, and one that failed leaves what
    the files and processes keep as it was, and the inodes as `R` says. -/
structure Ended (sb : Superblock) (safe : Guard) (c : Ctx) (F : Nat → Node) (R : (Nat → Node) → Prop)
    (failed : Prop) (t : St) (c' : Ctx)
    (V : Vol) : Prop where
  mid : Mid sb safe c' t V [] []
  tallied : c'.Tallied
  scope : c'.scope = c.scope
  chg : Chg sb F (node sb V)
  logged : (c.bill.charge 8).Fits t.log
  undone : failed → R (node sb V) ∧ c' = c.charge 8

def Closes (sb : Superblock) (safe : Guard) (c : Ctx) (F : Nat → Node) (R : (Nat → Node) → Prop)
    (failed : Prop) (t : St) : Prop :=
  ∃ c' V, Ended sb safe c F R failed t c' V

def Ctx.Full (c : Ctx) (p : Fin NPROC) : Prop := (∀ f, (c.file f).ref ≠ 0) ∨ ∀ fd, (c.proc p).ofile fd ≠ none

variable {sb : Superblock} {F G : Nat → Node} {V V' : Vol} {i : Nat} {safe : Guard} {c : Ctx} {s t : St}
  {T T' : List (Idx × Nat)} {L : List Idx} {ip : Idx} {p q : Fin NPROC} {f : Fin NFILE}

variable {R : (Nat → Node) → Prop} {failed : Prop}

theorem after_closes (h : Closes sb safe c F R failed t) : After sb safe c.scope F t := by
  obtain ⟨c', V', h⟩ := h
  exact ⟨c', V', h.mid, h.tallied, h.scope, h.chg⟩

theorem after_same (h : Mid sb safe c s V [] []) (hc : c.Tallied) : After sb safe c.scope (node sb V) s :=
  ⟨c, V, h, hc, rfl, chg_calm .refl⟩

theorem closes_stays (hc : c.Tallied) (hR : ∀ W, Fails sb c.Keeps F W → R W) (h : Stays sb safe c F failed t) :
    Closes sb safe c F R failed t := by
  obtain ⟨V', h1, h2, h3⟩ := h
  exact ⟨c.charge 8, V', h1, ⟨hc.kept, hc.free⟩, rfl, h2, h1.logged, fun h' => ⟨hR _ (h3 h'), rfl⟩⟩

theorem closes_fails (hc : c.Tallied) (h : Stays sb safe c F failed t) :
    Closes sb safe c F (Fails sb c.Keeps F) failed t :=
  closes_stays hc (fun _ => id) h

/-! ## Files and processes change -/

/-- References move between the call and what is kept. -/
theorem mid_move (h : Mid sb safe c s V T L) (T' : List (Idx × Nat)) (file : Fin NFILE → File) (kept : Idx → Nat)
    (hk : ∀ e, kept e + temps T' e = c.kept e + temps T e) (hT : ∀ p ∈ T', (s.inode p.1).inum = p.2)
    (hnew : ∀ e, 0 < kept e → 0 < c.kept e ∨ (s.inode e).valid = true)
    (hf : ∀ f, (file f).Inoded → 0 < kept (file f).ip ∧ (s.inode (file f).ip).valid = true ∧
      ((file f).type = .inode → (file f).writable = true → (s.inode (file f).ip).type ≠ T_DIR)) :
    Mid sb safe (c.moved s file kept) { s with file := file, proc := c.proc } V T' L := by
  refine mid_ctx (c.moved s file kept) h hk hT (fun _ _ => rfl) (fun e he => ?_) (fun _ => .inl) id rfl hf
  rcases hnew e he with hold | hv
  · rcases h.unread e hold with hv | hr
    · exact .inl hv
    · exact .inr ((h.num e hold).trans hr)
  · exact .inl hv

variable {E : Panic → Prop} {Q : Unit → St → Prop} {n : Nat} {type : Int16} {x : Proc}

/-- A file changes without coming to hold another inode. -/
theorem setFile_spec {g : File → File} (h : Mid sb safe c s V T L) (hc : c.Tallied)
    (hh : ∀ e, (g (c.file f)).holds e = (c.file f).holds e)
    (hfree : (g (c.file f)).ref ≤ 0 → (g (c.file f)).type = .none)
    (hino : (g (c.file f)).Inoded → (g (c.file f)).ip = (c.file f).ip ∧ (g (c.file f)).type = (c.file f).type ∧
      (g (c.file f)).writable = (c.file f).writable)
    (hq : ∀ t, Mid sb safe { c with file := upd c.file f (g (c.file f)) } t V T L →
      Ctx.Tallied { c with file := upd c.file f (g (c.file f)) } → Q () t)
    : wp (setFile f g) Q E s := by
  have hs : ({ s with file := upd s.file f (g (s.file f)) } : St) =
      { s with file := upd c.file f (g (c.file f)), proc := c.proc } := by
    rw [← h.file, ← h.proc]
  unfold setFile
  rw [wp_modify, hs]
  refine hq _ (mid_ctx { c with file := upd c.file f (g (c.file f)) } h (fun _ => rfl) h.inum h.num h.unread
    (fun _ => .inl) id rfl ?_)
    ⟨fun e => (hc.kept e).trans (held_file_same c.proc (hh e)), free_upd hfree hc.free⟩
  intro f'
  by_cases e : f' = f
  · subst e
    simp only [upd_same]
    intro hi
    obtain ⟨h1, h2, h3⟩ := hino hi
    have hi' : (c.file f').Inoded := by
      unfold File.Inoded at hi ⊢
      rwa [h2] at hi
    rw [h1, h2, h3]
    exact h.files f' hi'
  · simp only [upd_ne _ _ e]
    exact h.files f'

/-- A process changes without moving to another directory. -/
theorem setProc_spec {g : Proc → Proc} (h : Mid sb safe c s V T L) (hc : c.Tallied)
    (hh : ∀ e, (g (c.proc p)).holds e = (c.proc p).holds e)
    (hq : ∀ t, Mid sb safe { c with proc := upd c.proc p (g (c.proc p)) } t V T L →
      Ctx.Tallied { c with proc := upd c.proc p (g (c.proc p)) } → Q () t)
    : wp (setProc p g) Q E s := by
  have hs : ({ s with proc := upd s.proc p (g (s.proc p)) } : St) =
      { s with file := c.file, proc := upd c.proc p (g (c.proc p)) } := by
    rw [← h.file, ← h.proc]
  unfold setProc
  rw [wp_modify, hs]
  exact hq _ (mid_ctx { c with proc := upd c.proc p (g (c.proc p)) } h (fun _ => rfl) h.inum h.num h.unread
    (fun _ => .inl) id rfl h.files)
    ⟨fun e => (hc.kept e).trans (held_proc_same c.file (hh e)), hc.free⟩

theorem mid_pipe {pipe : Nat → Pipe} (h : Mid sb safe c s V T L) : Mid sb safe c { s with pipe := pipe } V T L :=
  mid_same h rfl rfl rfl rfl rfl rfl

theorem tallied_kept (hc : c.Tallied) (hp : (c.proc p).live = true) : 0 < c.kept (c.proc p).cwd := by
  rw [hc.kept]
  exact one_le_held hp

theorem not_inoded {x : File} (h : x.type = .none ∨ x.type = .pipe) : ¬ x.Inoded := by
  rcases h with h | h <;> simp [File.Inoded, h]

theorem inoded_held {file : Fin NFILE → File} (proc : Fin NPROC → Proc)
    (hfree : (file f).ref ≤ 0 → (file f).type = .none) (hi : (file f).Inoded) :
    1 ≤ held file proc (file f).ip := by
  have h1 := le_total (fun x : File => (x.holds (file f).ip).toNat) file f
  have hpos : 0 < (file f).ref := Int.not_le.mp fun hle => not_inoded (.inl (hfree hle)) hi
  have h2 : ((file f).holds (file f).ip).toNat = 1 := by
    unfold File.Inoded at hi
    simp [File.holds, hpos, hi]
  simp only [h2] at h1
  exact h1.trans (Nat.le_add_right _ _)

/-! ## kernel/file.c -/

theorem filealloc_spec {Q : Option (Fin NFILE) → St → Prop} (h : Mid sb safe c s V T L) (hc : c.Tallied)
    (hnone : (∀ f, (c.file f).ref ≠ 0) → Q none s)
    (hsome : ∀ f t, (c.file f).type = .none → (c.file f).ref = 0 →
      Mid sb safe { c with file := upd c.file f { c.file f with ref := 1 } } t V T L → Ctx.Tallied
        { c with file := upd c.file f { c.file f with ref := 1 } } → Q (some f) t)
    : wp filealloc Q E s := by
  unfold filealloc
  rw [wp_bind, wp_get]
  split
  · next f hf =>
    have h0 : (c.file f).ref = 0 := by
      rw [← h.file]
      exact of_decide_eq_true (first_some hf).1
    have hnt := hc.free f (by omega)
    rw [wp_bind]
    exact setFile_spec h hc (fun e => by simp [File.holds, hnt]) (fun _ => hnt)
      (fun hi => absurd hi (not_inoded (.inl hnt)))
      fun t ht htc => hsome f t hnt h0 ht htc
  · next hf =>
    refine hnone fun f h0 => ?_
    rw [← h.file] at h0
    exact absurd h0 (of_decide_eq_false (first_none hf f))

theorem fdalloc_spec {Q : Option (Fin NOFILE) → St → Prop} (h : Mid sb safe c s V T L) (hc : c.Tallied)
    (hnone : (∀ fd, (c.proc p).ofile fd ≠ none) → Q none s)
    (hsome : ∀ fd t, Mid sb safe { c with proc := upd c.proc p ((c.proc p).withFd fd (some f)) } t V T L →
      Ctx.Tallied { c with proc := upd c.proc p ((c.proc p).withFd fd (some f)) } → Q (some fd) t)
    : wp (fdalloc p f) Q E s := by
  unfold fdalloc
  rw [wp_bind, wp_get]
  split
  · next fd _ =>
    exact wp_then (setProc_spec h hc (fun _ => rfl) fun t ht htc => hsome fd t ht htc)
  · next hf =>
    refine hnone fun fd h0 => ?_
    rw [← h.proc] at h0
    exact absurd h0 (of_decide_eq_false (first_none hf fd))

theorem filedup_spec (h : Mid sb safe c s V T L) (hc : c.Tallied)
    (hq : ∀ t file, Mid sb safe { c with file := file } t V T L → Ctx.Tallied { c with file := file } → Q () t) :
    wp (filedup f) Q (Fine safe) s := by
  unfold filedup getFile
  rw [wp_bind, wp_bind, wp_get, h.file]
  refine wp_if (fun _ => trivial) fun hlt => ?_
  have hpos : 0 < (c.file f).ref := by omega
  have hpos' : 0 < (c.file f).ref + 1 := by omega
  refine setFile_spec h hc (fun e => by simp [File.holds, hpos, hpos']) (fun hle => ?_) (fun _ => ⟨rfl, rfl, rfl⟩)
    fun t ht htc => hq t _ ht htc
  have : (c.file f).ref + 1 ≤ 0 := hle
  omega

/-- The last descriptor goes: the reference to the inode becomes the call's. -/
theorem mid_close (h : Mid sb safe c s V T L) (hc : c.Tallied) (h1 : (c.file f).ref = 1)
    (hi : (c.file f).Inoded) :
    Mid sb safe (c.moved s (upd c.file f (c.file f).closed) (held (upd c.file f (c.file f).closed) c.proc))
      { s with file := upd c.file f (c.file f).closed, proc := c.proc } V
      (((c.file f).ip, (s.inode (c.file f).ip).inum) :: T) L ∧
    (c.moved s (upd c.file f (c.file f).closed) (held (upd c.file f (c.file f).closed) c.proc)).Tallied := by
  have hfree := free_upd (f := f) (x := (c.file f).closed) (fun _ => rfl) hc.free
  have hheld : ∀ e, held (upd c.file f (c.file f).closed) c.proc e + (if (c.file f).ip = e then 1 else 0) =
      c.kept e := by
    intro e
    have h2 := held_file c.file c.proc f (c.file f).closed e
    have h3 : ((c.file f).holds e).toNat = if (c.file f).ip = e then 1 else 0 := by
      unfold File.Inoded at hi
      by_cases he : (c.file f).ip = e <;> simp [File.holds, h1, hi, he]
    rw [closed_holds, h3, ← hc.kept e] at h2
    simpa using h2
  refine ⟨mid_move h _ _ _ (fun e => ?_) (fun p hp => ?_) (fun e he => .inl ?_) fun f' hi' => ?_, fun _ => rfl, hfree⟩
  · rw [temps_cons]
    dsimp only
    have := hheld e
    omega
  · rcases List.mem_cons.mp hp with rfl | hp
    · rfl
    · exact h.inum p hp
  · have := hheld e
    omega
  · by_cases e : f' = f
    · rw [e, upd_same] at hi'
      exact absurd hi' (not_inoded (.inl rfl))
    · have hpos := inoded_held c.proc (hfree f') hi'
      rw [upd_ne _ _ e] at hi' hpos ⊢
      exact ⟨hpos, (h.files f' hi').2⟩

theorem pipeclose_spec {pi : Nat} {w : Bool} (h : Mid sb safe c s V T L) (hq : ∀ t, Mid sb safe c t V T L → Q () t) :
    wp (pipeclose pi w) Q (Fine safe) s := by
  unfold pipeclose
  refine wp_if (fun _ => trivial) fun _ => ?_
  exact wp_if (fun _ => hq _ (mid_pipe h)) fun _ => hq _ (mid_pipe h)

theorem fileclose_spec (hl : sb.Layout) (h : Mid sb safe c s V T L) (hc : c.Tallied) (hn1 : c.Affords safe 1)
    (hL : (c.file f).Inoded → ∀ e, e ∉ L)
    (hq : ∀ t c' V', Mid sb safe c' t V' T L → c'.Tallied → c'.proc = c.proc → c'.scope = c.scope →
      c'.bill = c.bill.charge 1 → Calm (node sb V) (node sb V') → Q () t) :
    wp (fileclose sb f) Q (Fine safe) s := by
  have hq' : ∀ t file, Mid sb safe { c with file := file } t V T L → Ctx.Tallied { c with file := file } →
      Q () t := fun t file ht htc =>
    hq t _ V (mid_charge ht 1 hn1) ⟨htc.kept, htc.free⟩ rfl rfl rfl .refl
  unfold fileclose getFile
  rw [wp_bind, wp_bind, wp_get, h.file]
  refine wp_if (fun _ => trivial) fun h0 => wp_if (fun hmore => ?_) fun hlast => ?_
  · have hpos : 0 < (c.file f).ref := by omega
    have hmore' : 1 < (c.file f).ref := by omega
    refine setFile_spec h hc (fun e => by simp [File.holds, hpos, hmore']) (fun hle => ?_) (fun _ => ⟨rfl, rfl, rfl⟩)
      fun t ht htc => hq' t _ ht htc
    have : (c.file f).ref - 1 ≤ 0 := hle
    omega
  have h1 : (c.file f).ref = 1 := by omega
  by_cases hi : (c.file f).Inoded
  · obtain ⟨hm, hmc⟩ := mid_close h hc h1 hi
    have hs : ({ s with file := upd s.file f { s.file f with ref := 0, type := .none } } : St) =
        { s with file := upd c.file f (c.file f).closed, proc := c.proc } := by
      rw [← h.file, ← h.proc]
      rfl
    have hnp : (c.file f).type ≠ .pipe := fun e => not_inoded (.inr e) hi
    rw [wp_bind, setFile, wp_modify, hs, wp_ite, if_neg hnp, wp_ite,
      if_pos (show (c.file f).type = .inode ∨ (c.file f).type = .device from hi), wp_bind]
    refine beginOp_spec hm fun t ht => ?_
    refine wp_then (iput_spec hl (mid_pay ht hn1 (sb.IBLOCK (s.inode (c.file f).ip).inum))
      (fun hm' => absurd hm' (hL hi _))
      (fun _ _ => .inr (.inr rfl)) fun u W hu hd _ => ?_)
    refine endOp_spec hu fun v hv => ?_
    exact hq v _ W (mid_paid hv hm.bitmap hn1) ⟨hmc.kept, hmc.free⟩ rfl rfl rfl (calm_drop hd)
  · have hh : ∀ e, (c.file f).holds e = false := fun e => by
      unfold File.Inoded at hi
      simp [File.holds, hi]
    refine wp_then (setFile_spec h hc (fun e => ?_) (fun _ => rfl) (fun hx => absurd hx (not_inoded (.inl rfl)))
      fun t ht htc => ?_)
    · rw [hh e]
      simp [File.holds]
    · refine wp_if (fun _ => ?_) fun _ => ?_
      · exact pipeclose_spec ht fun u hu => hq' u _ hu htc
      · rw [if_neg (show ¬ ((c.file f).type = .inode ∨ (c.file f).type = .device) from hi)]
        exact hq' t _ ht htc

/-- Closing a file, and then another, where the room in the log is of no interest. -/
theorem close_spec (hl : sb.Layout) (hroom : ¬ safe.room) (h : Mid sb safe c s V [] []) (hc : c.Tallied)
    (hq : ∀ t c' V', Mid sb safe c' t V' [] [] → c'.Tallied → c'.proc = c.proc → c'.scope = c.scope →
      Calm (node sb V) (node sb V') → Q () t) : wp (fileclose sb f) Q (Fine safe) s :=
  fileclose_spec hl h hc (affords_open hroom _ _) (fun _ _ => List.not_mem_nil)
    fun t c' V' ht htc hp hs _ hcalm => hq t c' V' ht htc hp hs hcalm

theorem closeBoth_spec (hl : sb.Layout) (hroom : ¬ safe.room) (h : Mid sb safe c s V [] []) (hc : c.Tallied)
    {g : Fin NFILE} {α : Type} {r : α} {Q : α → St → Prop}
    (hq : ∀ t c' V', Mid sb safe c' t V' [] [] → c'.Tallied → c'.scope = c.scope →
      Calm (node sb V) (node sb V') → Q r t) :
    wp (do fileclose sb f; fileclose sb g; return r) Q (Fine safe) s := by
  refine wp_then (close_spec hl hroom h hc fun t c1 V1 ht htc _ hs1 hcalm1 => ?_)
  refine wp_then (close_spec hl hroom ht htc fun u c2 V2 hu huc _ hs2 hcalm2 => ?_)
  exact hq u c2 V2 hu huc (hs2.trans hs1) (hcalm1.trans hcalm2)

/-- A file that stands for nothing yet is given back. -/
theorem fileclose_fresh (h : Mid sb safe c s V T L) (hc : c.Tallied) (h1 : (c.file f).ref = 1)
    (h0 : (c.file f).type = .none)
    (hq : ∀ t, Mid sb safe { c with file := upd c.file f (c.file f).closed } t V T L →
      Ctx.Tallied { c with file := upd c.file f (c.file f).closed } → Q () t)
    : wp (fileclose sb f) Q E s := by
  unfold fileclose getFile
  rw [wp_bind, wp_bind, wp_get, wp_pure, h.file, if_neg (by omega), if_neg (by omega), wp_bind]
  refine setFile_spec h hc (fun e => ?_) (fun _ => rfl) (fun hx => absurd hx (not_inoded (.inl rfl))) fun t ht htc => ?_
  · simp [File.holds, h0]
  · rw [if_neg (by rw [h0]; decide), if_neg (by rw [h0]; decide)]
    exact hq t ht htc

theorem upd_given_back {file : Fin NFILE → File} (h0 : (file f).ref = 0) (hn : (file f).type = .none) :
    upd (upd file f { file f with ref := 1 }) f (upd file f { file f with ref := 1 } f).closed = file := by
  have hx : ({ file f with ref := 1 } : File).closed = file f := by
    unfold File.closed
    rw [← h0, ← hn]
  rw [upd_upd, upd_same, hx, upd_self]

/-! ## Contents of files -/

theorem calm_content (hfile : (node sb V i).type ≠ T_DIR) (hi : Live sb V i)
    (hother : ∀ j, j ≠ i → node sb V' j = node sb V j) (ht : (V'.ino i).type = (V.ino i).type)
    (hn : (V'.ino i).nlink = (V.ino i).nlink) : Calm (node sb V) (node sb V') := by
  have hi' : Live sb V' i := ⟨hi.1, by rw [ht]; exact hi.2⟩
  rw [node_upd hother]
  refine .single (.content (node_type_ne.mpr hi) hfile ?_ ?_)
  · rw [node_live hi', node_live hi]
    exact ht
  · rw [node_live hi', node_live hi]
    exact hn

theorem dirRange_content (h : DirRange sb (node sb V)) (hfile : (node sb V i).type ≠ T_DIR) (hi : Live sb V i)
    (hother : ∀ j, j ≠ i → node sb V' j = node sb V j) (ht : (V'.ino i).type = (V.ino i).type) :
    DirRange sb (node sb V') := by
  have hi' : Live sb V' i := ⟨hi.1, by rw [ht]; exact hi.2⟩
  rw [node_upd hother]
  refine dirRange_upd h fun hd => ?_
  rw [node_live hi', ht] at hd
  rw [node_live hi] at hfile
  exact absurd hd hfile

theorem trunc_spec (hl : sb.Layout) (h : Mid sb safe c s V T L) (hr : Ref c T ip i) (hL : ip ∈ L)
    (hI : c.bill.free (sb.IBLOCK i)) (hfile : (node sb V i).type ≠ T_DIR)
    (hq : ∀ t V', Mid sb safe c t V' T L → Calm (node sb V) (node sb V') → Q () t) :
    wp (itrunc sb ip) Q (Fine safe) s := by
  have hp := mid_loaded h hr hL
  have hi := loaded_live h.rep hp
  refine itrunc_spec hl h.rep hp hi h.sound
    (fun k hk => mid_logs h (h.bitmap _ (h.sound.range i k _ ⟨hi, rfl, hk⟩).2))
    (mid_logs h hI) h.logged fun t V' hrep ht hino he hlog => ?_
  have hother : ∀ j, j ≠ i → node sb V' j = node sb V j :=
    fun j hj => node_congr (he.ino j hj) fun _ => emptied_raw he hj
  have hty : (V'.ino i).type = (V.ino i).type := by rw [he.hdr]
  refine hq t V' (mid_put h hp hrep ht hino he.ino hty (emptied_sound he h.sound hi) (emptied_noLeak he)
    (fun j hj => emptied_holeFree he h.holes hj) (dirRange_content h.dirs hfile hi hother hty) hlog)
    (calm_content hfile hi hother hty (by rw [he.hdr]))

theorem write_spec (hl : sb.Layout) (h : Mid sb safe c s V T L) (hr : Ref c T ip i) (hL : ip ∈ L)
    (hb : c.bill = .blank) (hroom : ¬ safe.room) (hfile : (node sb V i).type ≠ T_DIR)
    {src : Nat → Option UInt8} {off : Nat} {Q : Int → St → Prop}
    (hq : ∀ r t V', Mid sb safe c t V' T L → Calm (node sb V) (node sb V') → Q r t) :
    wp (writei sb ip src off n) Q (Fine safe) s := by
  have hp := mid_loaded h hr hL
  have hi := loaded_live h.rep hp
  have hfile' : (V.ino i).type ≠ T_DIR := by
    rw [node_live hi] at hfile
    exact hfile
  have hwrite : wp (writei sb ip src off n) (fun r t => (r = -1 ∧ t = s) ∨ ∃ (m : Nat) (V' : Vol),
    r = m ∧ Filled sb s V ip i src off n m t V')
      (Fine safe) s :=
    writei_spec hl h.rep hp hi h.sound (.inr hfile') costs_any
    (room_any (fine_log_any hroom) (n := 6 * blocks _ _ + 1 + 0))
      (fun _ => .inl ⟨rfl, rfl⟩) fun m t V' _ hf _ => .inr ⟨m, V', rfl, hf⟩
  have hbill : wp (writei sb ip src off n) (fun _ t => (c.bill.charge ((off % BSIZE + n + 1) * (0 + 1))).Fits t.log)
    (fun _ => True) s :=
    writei_bill (fun _ _ => trivial) (fun b hb => .inl (h.bitmap b hb)) (.inl trivial) (by rw [hb]; trivial) h.logged
      (Nat.le_mul_of_pos_right _ (by decide))
  refine wp_imp (wp_and hwrite hbill) (fun r t hrt => ?_) fun _ hx => hx.1
  obtain ⟨⟨rfl, rfl⟩ | ⟨m, V', rfl, hf⟩, hlog⟩ := hrt
  · exact hq _ _ V h .refl
  have hother : ∀ j, j ≠ i → node sb V' j = node sb V j := fun j hj => filled_node hf hj
  have hty := filled_type hf i
  have hfits : c.bill.Fits t.log := by
    rw [hb]
    exact Bill.fits_blank hlog
  exact hq _ t V' (mid_filled h hp hf (dirRange_content h.dirs hfile hi hother hty) hfits)
    (calm_content hfile hi hother hty (by rw [hf.hdr]))

theorem read_spec (h : Mid sb safe c s V T L) (hr : Ref c T ip i) (hL : ip ∈ L) {dst : Nat → Bool} {off : Nat}
    {Q : Int × List UInt8 → St → Prop} (hq : ∀ r, Q r s) : wp (readi sb ip dst off n) Q E s := by
  have hp := mid_loaded h hr hL
  have hi := loaded_live h.rep hp
  exact wp_of_run (readi_eq h.rep hp hi h.sound (h.holes i hi) dst off n) (hq _)

/-! ## Descriptors -/

theorem argfd_spec {fd : Int} {Q : Option (Fin NOFILE × Fin NFILE) → St → Prop} (hq : ∀ r, Q r s) :
    wp (argfd p fd) Q E s := by
  unfold argfd
  split <;> exact hq _

/-- An open file on an inode may be locked and let go of again. -/
theorem inoded_ref (h : Mid sb safe c s V T L) (hi : (c.file f).Inoded) : Ref c T (c.file f).ip (c.num (c.file f).ip) :=
  .inr ⟨(h.files f hi).1, rfl⟩

theorem filestat_spec {ok : Bool} {Q : Int → St → Prop} (h : Mid sb safe c s V [] [])
    (hq : ∀ r t, Mid sb safe c t V [] [] → Q r t) :
    wp (filestat sb f ok) Q (Fine safe) s := by
  unfold filestat getFile
  rw [wp_bind, wp_bind, wp_get, h.file]
  refine wp_if (fun hi => ?_) fun _ => hq _ s h
  refine wp_then (ilock_spec h (inoded_ref h hi) fun t ht _ => ?_)
  exact wp_then (iunlock_spec ht fun u hu _ => hq _ u hu)

theorem off_spec {α : Type} {g : Unit → M α} {r : Int} {Q : α → St → Prop} (h : Mid sb safe c s V T L) (hc : c.Tallied)
    (hq : ∀ t off, Mid sb safe { c with file := upd c.file f { c.file f with off := off } } t V T L →
      Ctx.Tallied { c with file := upd c.file f { c.file f with off := off } } → wp (g ()) Q (Fine safe) t) :
    wp (if r > 0 then do
        let y ← setFile f fun x => { x with off := add32 x.off r.toNat }
        g y
      else g ()) Q (Fine safe) s := by
  refine wp_if (fun _ => ?_) fun _ => ?_
  · exact wp_then (setFile_spec h hc (fun _ => rfl) (fun hle => hc.free f hle) (fun _ => ⟨rfl, rfl, rfl⟩)
      fun t ht htc => hq t _ ht htc)
  · have hself : upd c.file f { c.file f with off := (c.file f).off } = c.file := upd_self _ _
    have := hq s (c.file f).off
    rw [hself] at this
    exact this h hc

theorem fileread_spec {dst : Nat → Bool} {n ext : Int} {Q : Int × List UInt8 → St → Prop}
    (h : Mid sb safe c s V [] []) (hc : c.Tallied)
    (hq : ∀ r t file, Mid sb safe { c with file := file } t V [] [] → Ctx.Tallied { c with file := file } → Q r t) :
    wp (fileread sb f dst n ext) Q (Fine safe) s := by
  have hsame : ∀ r, Q r s := fun r => hq r s c.file h hc
  unfold fileread getFile
  rw [wp_bind, wp_bind, wp_get, h.file]
  refine wp_if (fun _ => hsame _) fun _ => ?_
  split
  · exact hsame _
  · exact hsame _
  · next hty =>
    have hi : (c.file f).Inoded := .inl hty
    refine wp_then (ilock_spec h (inoded_ref h hi) fun t ht _ => ?_)
    refine wp_then (read_spec ht (inoded_ref ht hi) (.head _) fun r => ?_)
    refine off_spec ht hc fun u off hu huc => ?_
    exact wp_then (iunlock_spec hu fun v hv _ => hq _ v _ hv huc)
  · exact trivial

theorem filewriteFrom_spec (hl : sb.Layout) (hroom : ¬ safe.room) {src : User} {Q : Nat → St → Prop}
    (scope : Scope)
    (hq : ∀ r t c V', Mid sb safe c t V' [] [] → c.Tallied → c.scope = scope → Calm F (node sb V') → Q r t)
    (fuel : Nat) :
    ∀ {i c s V}, Mid sb safe c s V [] [] → c.Tallied → c.scope = scope → c.bill = .blank →
    (c.file f).type = .inode → (c.file f).writable = true →
      Calm F (node sb V) → wp (filewriteFrom sb f src n fuel i) Q (Fine safe) s := by
  induction fuel with
  | zero =>
    intro i c s V h hc hs _ _ _ hF
    exact hq _ s c V h hc hs hF
  | succ fuel ih =>
    intro i c s V h hc hs hb hty hwr hF
    have hi : (c.file f).Inoded := .inl hty
    refine wp_if (fun _ => ?_) fun _ => hq _ s c V h hc hs hF
    refine wp_then (beginOp_spec h fun t ht => ?_)
    unfold getFile
    rw [wp_bind, wp_bind, wp_get, wp_pure, ht.file, wp_bind]
    refine ilock_spec ht (inoded_ref ht hi) fun u hu _ => ?_
    have hr := inoded_ref (f := f) hu hi
    have hfile : (node sb V (c.num (c.file f).ip)).type ≠ T_DIR := by
      rw [← loaded_type hu.rep (mid_loaded hu hr (.head _))]
      exact (hu.files f hi).2.2 hty hwr
    refine wp_then (write_spec hl hu hr (.head _) hb hroom hfile fun r v V' hv hcalm => ?_)
    refine off_spec hv hc fun w off hw hwc => ?_
    refine wp_then (iunlock_spec hw fun x hx _ => ?_)
    refine wp_then (endOp_spec hx fun y hy => ?_)
    refine wp_if (fun _ => hq _ y _ V' hy hwc hs (hF.trans hcalm)) fun _ => ?_
    exact ih hy hwc hs hb (by simp only [upd_same]; exact hty) (by simp only [upd_same]; exact hwr) (hF.trans hcalm)

theorem filewrite_spec (hl : sb.Layout) (hroom : ¬ safe.room) {src : User} {n ext : Int}
    (h : Mid sb safe c s V [] []) (hc : c.Tallied) (hb : c.bill = .blank) :
    wp (filewrite sb f src n ext) (fun _ t => After sb safe c.scope (node sb V) t) (Fine safe) s := by
  have hsame : After sb safe c.scope (node sb V) s := after_same h hc
  unfold filewrite getFile
  rw [wp_bind, wp_bind, wp_get, h.file]
  refine wp_if (fun _ => hsame) fun hwr => ?_
  split
  · exact hsame
  · exact hsame
  · next hty =>
    rw [wp_bind]
    refine filewriteFrom_spec hl hroom c.scope (fun r t c' V' ht htc hs hF => ?_) _ h hc rfl hb hty
      (Bool.eq_true_of_not_eq_false hwr) .refl
    exact ⟨c', V', ht, htc, hs, chg_calm hF⟩
  · exact trivial

end Xv6.Fs
