/-
  Xv6.Fs.CallProofs — every system call over `Mid`.
-/

import Xv6.Fs.FileProofs

namespace Xv6.Fs

open Lib Vol

variable {sb : Superblock} {F : Nat → Node} {V V' : Vol} {i : Nat} {safe : Guard} {c : Ctx} {s : St}
  {T T' : List (Idx × Nat)} {L : List Idx} {ip : Idx} {p q : Fin NPROC} {f : Fin NFILE}
  {R : (Nat → Node) → Prop} {E : Panic → Prop} {Q : Unit → St → Prop} {type : Int16} {x : Proc}

/-! ## open -/

/-- A file that was just allocated comes to stand for the locked inode `i`. -/
theorem mid_open {x : File} (h : Mid sb safe c s V [(ip, i)] [ip]) (hc : c.Tallied)
    (h0 : (c.file f).type = .none) (hpos : 0 < x.ref) (hx : x.Inoded) (hip : x.ip = ip)
    (hwr : x.writable = true → (node sb V i).type ≠ T_DIR) :
    Mid sb safe (c.moved s (upd c.file f x) (held (upd c.file f x) c.proc))
      { s with file := upd c.file f x, proc := c.proc } V [] [ip] ∧
      (c.moved s (upd c.file f x) (held (upd c.file f x) c.proc)).Tallied := by
  have hv := (h.locked ip (.head _)).1
  have hp := mid_loaded h (.inl (.head _)) (.head _)
  have hfree := free_upd (f := f) (x := x) (fun hle => absurd hpos (not_lt.mpr hle)) hc.free
  have hheld : ∀ e, held (upd c.file f x) c.proc e = c.kept e + if ip = e then 1 else 0 := by
    intro e
    have h1 := held_file c.file c.proc f x e
    have h2 : (c.file f).holds e = false := by simp [File.holds, h0]
    have h3 : (x.holds e).toNat = if ip = e then 1 else 0 := by
      unfold File.Inoded at hx
      by_cases he : ip = e <;> simp [File.holds, hpos, hx, hip, he]
    rw [h2, h3, ← hc.kept e] at h1
    simpa using h1
  refine ⟨mid_move h _ _ _ (fun e => ?_) (fun p hp => absurd hp List.not_mem_nil) (fun e he => ?_) fun f' hi' => ?_,
    fun _ => rfl, hfree⟩
  · rw [temps_cons, hheld e]
    simp only [temps_nil]
    omega
  · by_cases e1 : ip = e
    · exact .inr (e1 ▸ hv)
    · rw [hheld e, if_neg e1] at he
      exact .inl he
  · have hpos' := inoded_held c.proc (hfree f') hi'
    refine ⟨hpos', ?_⟩
    by_cases e : f' = f
    · rw [e, upd_same, hip]
      refine ⟨hv, fun _ hw => ?_⟩
      rw [loaded_type h.rep hp]
      exact hwr hw
    · rw [upd_ne _ _ e] at hi' ⊢
      exact (h.files f' hi').2

/-- `sys_open` from the second assignment to the file on; the call found `c₀`. -/
theorem opened_spec (hl : sb.Layout) {c₀ : Ctx} {x : File} {fd : Int} {omode : Nat}
    (h : Mid sb safe c s V [(ip, i)] [ip]) (hc : c.Tallied) (hscope : c.scope = c₀.scope)
    (hbill : c.bill = (c₀.bill.charge 7).pay (sb.IBLOCK i)) (hF : Chg sb F (node sb V))
    (h0 : (c.file f).type = .none) (hpos : 0 < x.ref) (hx : x.type = .inode ∨ x.type = .device)
    (htype : (node sb V i).type = type) (hdir : (node sb V i).type = T_DIR → omode = O_RDONLY) (hfd : fd ≠ -1) :
    wp (do
      setFile f fun x => { x with
        ip := ip
        readable := omode &&& O_WRONLY = 0
        writable := omode &&& O_WRONLY ≠ 0 ∨ omode &&& O_RDWR ≠ 0 }
      if omode &&& O_TRUNC ≠ 0 ∧ type = T_FILE then itrunc sb ip else pure ()
      iunlock ip
      endOp
      return fd) (fun r t => Closes sb safe c₀ F R (r = -1) t) (Fine safe) { s with file := upd s.file f x } := by
  generalize hy : ({ x with
    ip := ip
    readable := omode &&& O_WRONLY = 0
    writable := omode &&& O_WRONLY ≠ 0 ∨ omode &&& O_RDWR ≠ 0 } : File) = y
  have hyw : y.writable = true → (node sb V i).type ≠ T_DIR := fun hw hd => by
    rw [← hy, hdir hd] at hw
    simp [O_RDONLY] at hw
  obtain ⟨hm, hmc⟩ := mid_open (x := y) h hc h0 (by rw [← hy]; exact hpos) (by rw [← hy]; exact hx) (by rw [← hy]) hyw
  have hs : ({ s with file := upd (upd s.file f x) f y } : St) = { s with file := upd c.file f y, proc := c.proc } := by
    rw [upd_upd, ← h.file, ← h.proc]
  have hv : (s.inode ip).inum = i := (mid_ref h (.inl (.head _))).2
  have hend : ∀ t V', Mid sb safe (c.moved s (upd c.file f y) (held (upd c.file f y) c.proc)) t V' [] [ip] →
      Chg sb F (node sb V') → wp (do iunlock ip; endOp; return fd) (fun r t => Closes sb safe c₀ F R (r = -1) t)
      (Fine safe) t := by
    intro t V' ht hchg
    refine wp_then (iunlock_spec ht fun u hu _ => ?_)
    refine wp_then (endOp_spec hu fun v hv => ⟨_, V', hv, hmc, hscope, hchg, ?_, fun hr => absurd hr hfd⟩)
    have hlog : c.bill.Fits v.log := hv.logged
    rw [hbill] at hlog
    exact Bill.fits_paid hlog
  unfold setFile
  simp only [wp_bind, wp_modify, upd_same, hy, hs]
  split
  · next hc =>
    have hr : Ref (c.moved s (upd c.file f y) (held (upd c.file f y) c.proc)) [] ip i :=
      .inr ⟨?_, hv⟩
    · rw [wp_bind]
      have hI : c.bill.free (sb.IBLOCK i) := by
        rw [hbill]
        exact .inr rfl
      refine trunc_spec hl hm hr (.head _) hI (by rw [htype, hc.2]; decide) fun t V' ht hcalm => ?_
      exact hend t V' ht (chg_then hF hcalm)
    · have := hm.locked ip (.head _)
      have h2 := hm.refs ip
      rw [temps_nil] at h2
      omega
  · exact hend _ V hm hF

/-- It fails for a device that is none, or for want of a file or a descriptor. -/
theorem openInode_spec (hl : sb.Layout) (h : Mid sb safe ((c.charge 7).pay (sb.IBLOCK i)) s V [(ip, i)] [ip])
    (hc : c.Tallied) (hbm : c.bill.Bitmap sb) (hn8 : c.Affords safe 8) (hF : Chg sb F (node sb V))
    {omode : Nat} (hdir : (node sb V i).type = T_DIR → omode = O_RDONLY)
    (hR : (node sb V i).type = T_DEVICE ∨ c.Full p → ∀ V', Drop sb c [] V V' i → R (node sb V')) :
    wp (openInode sb p ip omode) (fun r t => Closes sb safe c F R (r = -1) t) (Fine safe) s := by
  have hp := mid_loaded h (.inl (.head _)) (.head _)
  have hc' : ((c.charge 7).pay (sb.IBLOCK i)).Tallied := ⟨hc.kept, hc.free⟩
  have hput : ∀ {r : Int} {u : St}, ((node sb V i).type = T_DEVICE ∨ c.Full p) →
      Mid sb safe ((c.charge 7).pay (sb.IBLOCK i)) u V [(ip, i)] [ip] →
      wp (do iunlockput sb ip; endOp; return r) (fun r t => Closes sb safe c F R (r = -1) t) (Fine safe) u := by
    intro r u hwhy hu
    refine wp_then (iunlockput_spec hl hu (fun _ _ => .inr (.inr rfl)) fun v W hv hd _ => ?_)
    refine wp_then (endOp_spec (mid_paid (c := c.charge 7) hv hbm (affords_charged hn8 (by decide))) fun w hw => ?_)
    exact ⟨c.charge 8, W, hw, ⟨hc.kept, hc.free⟩, rfl, chg_then hF (calm_drop hd), hw.logged,
      fun _ => ⟨hR hwhy W hd, rfl⟩⟩
  unfold openInode
  refine wp_if (fun hdev => hput (.inl ?_) h) fun _ => ?_
  · rw [← loaded_type h.rep hp]
    exact hdev.1
  refine wp_then (filealloc_spec h hc' (fun hfull => hput (.inr (.inl hfull)) h) fun f t hnone hzero ht htc => ?_)
  refine wp_then (fdalloc_spec ht htc (fun hfull => ?_) fun fd u hu huc => ?_)
  · refine wp_then (fileclose_fresh ht htc (by simp only [upd_same]) (by simp only [upd_same]; exact hnone)
      fun u hu _ => ?_)
    exact hput (.inr (.inr hfull))
      ((congrArg (fun x => Mid sb safe { (c.charge 7).pay (sb.IBLOCK i) with file := x } u V [(ip, i)] [ip])
      (upd_given_back hzero hnone)).mp hu)
  have hfile : (u.file f).ref = 1 := by
    rw [hu.file]
    simp only [upd_same]
  have hfd : (fd.1 : Int) ≠ -1 := by omega
  refine wp_if (fun _ => ?_) fun _ => ?_
  · exact opened_spec hl hu huc rfl rfl hF (by simp only [upd_same]; exact hnone)
      (by simp only [hfile]; omega) (.inr rfl)
      (loaded_type h.rep hp).symm hdir hfd
  · exact opened_spec hl hu huc rfl rfl hF (by simp only [upd_same]; exact hnone)
      (by simp only [hfile]; omega) (.inl rfl)
      (loaded_type h.rep hp).symm hdir hfd

theorem made_drop {K : Nat → Prop} (hm : Made sb K F type i (node sb V)) (hd : Drop sb c [] V V' i) : V' = V := by
  refine hd.resolve_right fun ⟨hlive, h0, _⟩ => ?_
  have h1 : (V.ino i).nlink = 1 := by
    rw [← hm.nlink, node_live hlive]
  rw [h0] at h1
  exact absurd h1 (by decide)

/-- What is left by an `open` that fails: if it has made a file before it found no room in
    the tables, then that file. -/
def OpenFails (sb : Superblock) (c : Ctx) (p : Fin NPROC) (F : Nat → Node) (omode : Nat) (W : Nat → Node) : Prop :=
  Fails sb c.Keeps F W ∨ (omode &&& O_CREATE ≠ 0 ∧ c.Full p ∧ ∃ i, Made sb c.Keeps F T_FILE i W)

/-! ## Current directories -/

/-- A live process is to become `x`: what it holds now becomes the call's, and what it will
    hold must be the call's or kept already. The process itself changes later. -/
theorem mid_cwd (h : Mid sb safe c s V T L) (hc : c.Tallied)
    (hk : ∀ e, (x.holds e).toNat + temps T' e = ((c.proc p).holds e).toNat + temps T e)
    (hT : ∀ y ∈ T', (s.inode y.1).inum = y.2)
    (hnew : ∀ e, x.holds e = true → 0 < c.kept e ∨ (s.inode e).valid = true) :
    Mid sb safe (c.moved s c.file (held c.file (upd c.proc p x))) s V T' L := by
  have hheld : ∀ e, held c.file (upd c.proc p x) e + ((c.proc p).holds e).toNat =
      c.kept e + (x.holds e).toNat := fun e => by
    rw [hc.kept e]
    exact held_proc c.file c.proc p x e
  have hm := mid_move h T' c.file (held c.file (upd c.proc p x)) (fun e => ?_) hT (fun e he => ?_) fun f hi =>
    ⟨inoded_held _ (hc.free f) hi, (h.files f hi).2⟩
  · have hs : ({ s with file := c.file, proc := c.proc } : St) = s := by rw [← h.file, ← h.proc]
    rwa [hs] at hm
  · have h1 := hheld e
    have h2 := hk e
    omega
  · by_cases hx : x.holds e = true
    · exact hnew e hx
    · have h1 := hheld e
      rw [Bool.eq_false_iff.mpr hx] at h1
      refine .inl ?_
      simp only [Bool.toNat_false, Nat.add_zero] at h1
      omega

theorem setCwd_spec {g : Proc → Proc} (hx : g (c.proc p) = x) (hc : c.Tallied) (num : Idx → Nat) {b : Bill}
    (h : Mid sb safe ⟨c.file, c.proc, held c.file (upd c.proc p x), num, c.scope, b⟩ s V [] [])
    (hq : ∀ t c', Mid sb safe c' t V [] [] → c'.Tallied → c'.scope = c.scope → t.log = s.log → Q () t) :
    wp (setProc p g) Q E s := by
  have hs : ({ s with proc := upd s.proc p (g (s.proc p)) } : St) =
      { s with file := c.file, proc := upd c.proc p x } := by
    rw [← hx, show s.proc = c.proc from h.proc, ← (show s.file = c.file from h.file)]
  unfold setProc
  rw [wp_modify, hs]
  refine hq _ ⟨c.file, upd c.proc p x, held c.file (upd c.proc p x), num, c.scope, b⟩ ?_ ⟨fun _ => rfl, hc.free⟩ rfl rfl
  exact mid_ctx ⟨c.file, upd c.proc p x, held c.file (upd c.proc p x), num, c.scope, b⟩ h
    (fun _ => rfl) h.inum h.num h.unread
    (fun _ => .inl) id rfl h.files

/-! ## The calls on paths -/

theorem loadseg_spec (h : Mid sb safe c s V T L) (hr : Ref c T ip i) (hL : ip ∈ L) {offset sz : Nat}
    {Q : Bool → St → Prop} (hq : ∀ r, Q r s) (fuel : Nat) :
    ∀ n, wp (loadseg sb ip offset sz fuel n) Q E s := by
  induction fuel with
  | zero =>
    intro n
    exact hq _
  | succ fuel ih =>
    intro n
    refine wp_if (fun _ => ?_) fun _ => hq _
    exact wp_then (read_spec h hr hL fun r => wp_if (fun _ => hq _) fun _ => ih _)

theorem loadSegs_spec (h : Mid sb safe c s V T L) (hr : Ref c T ip i) (hL : ip ∈ L) {mem : Nat → Bool}
    {Q : Bool → St → Prop} (hq : ∀ r, Q r s) (fuel : Nat) :
    ∀ n off, wp (loadSegs sb ip mem fuel n off) Q E s := by
  induction fuel with
  | zero =>
    intro n off
    exact hq _
  | succ fuel ih =>
    intro n off
    refine wp_then (read_spec h hr hL fun r => ?_)
    obtain ⟨r, ph⟩ := r
    refine wp_if (fun _ => hq _) fun _ => ?_
    refine wp_if (fun _ => ih _ _) fun _ => ?_
    -- which parts of the file the header names plays no role
    generalize field ph 40 8 = memsz, field ph 32 8 = filesz, field ph 16 8 = vaddr, field ph 8 8 = off'
    refine wp_if (fun _ => hq _) fun _ => wp_if (fun _ => hq _) fun _ => ?_
    refine wp_if (fun _ => hq _) fun _ => wp_if (fun _ => hq _) fun _ => ?_
    generalize filesz % 4294967296 = sz
    refine wp_then (loadseg_spec h hr hL (fun r => ?_) _ _)
    exact wp_if (fun _ => ih _ _) fun _ => hq _

section paths

variable (hl : sb.Layout) (hw : Walkable sb safe (node sb V)) (hb : Sheltered sb c (node sb V))
  (h : Mid sb safe c s V [] []) (hn8 : c.Affords safe 8)

include hl hw hb h hn8

theorem kexec_spec (hcwd : 0 < c.kept (c.proc p).cwd) (path : Name) (table : Bool) (mem : Nat → Bool) (stack : Bool) :
    wp (kexec sb p path table mem stack) (fun r t => Stays sb safe c (node sb V) (r = -1) t) (Fine safe) s := by
  refine wp_then (beginOp_spec h fun t ht => ?_)
  refine wp_then (mid_getCwd ht ?_)
  refine wp_then (namei_spec hl (walk_sheds hw hb) ht .refl hcwd path (fun u W hu hF => endSame_spec hu hn8 hF)
    fun ip i u W hu hF => ?_)
  have hri : Ref c [(ip, i)] ip i := .inl (.head _)
  refine wp_then (ilock_spec hu hri fun v hv _ => ?_)
  refine wp_then (read_spec hv hri (.head _) fun r => ?_)
  have hend : ∀ ok : Bool, wp (do iunlockput sb ip; endOp; return if ok && stack then (0 : Int) else -1)
      (fun r t => Stays sb safe c (node sb V) (r = -1) t) (Fine safe) v := fun ok => putSame_spec hl hv hn8 hF
  refine wp_if (fun _ => hend false) fun _ => ?_
  exact wp_then (loadSegs_spec hv hri (.head _) hend _ _ _)

theorem sysExec_spec (hcwd : 0 < c.kept (c.proc p).cwd) (path : User) (args table : Bool) (mem : Nat → Bool)
    (stack : Bool) :
    wp (sysExec sb p path args table mem stack) (fun r t => Stays sb safe c (node sb V) (r = -1) t) (Fine safe) s := by
  have hsame : ∀ r : Int, Stays sb safe c (node sb V) (r = -1) s :=
    fun _ => ⟨V, mid_charge h 8 hn8, chg_calm .refl, fun _ => .inl .refl⟩
  unfold sysExec
  split
  · exact hsame _
  · exact wp_if (fun _ => kexec_spec hl hw hb h hn8 hcwd _ table mem stack) fun _ => hsame _

variable (hc : c.Tallied) (hp : (c.proc p).live = true)

include hc hp

theorem sysOpen_spec (path : User) (omode : Nat) :
    wp (sysOpen sb p path omode)
      (fun r t => Closes sb safe c (node sb V) (OpenFails sb c p (node sb V) omode) (r = -1) t) (Fine safe) s := by
  have hcwd := tallied_kept hc hp
  have hfails : ∀ W, Fails sb c.Keeps (node sb V) W → OpenFails sb c p (node sb V) omode W := fun _ => .inl
  unfold sysOpen
  split
  · exact closes_stays hc hfails ⟨V, mid_charge h 8 hn8, chg_calm .refl, fun _ => .inl .refl⟩
  next path _ =>
  refine wp_then (beginOp_spec h fun t ht => ?_)
  refine wp_then (mid_getCwd ht (wp_if (fun hcreate => ?_) fun _ => ?_))
  · rw [wp_bind]
    refine create_spec hl hw hb hn8 ht .refl hcwd (by decide) (fun u W hu hf _ => ?_) (fun ip i u W hu hF hfile _ => ?_)
      fun ip i u W hu hmade _ => ?_
    · exact wp_mono (end_spec hu (fails_chg hf) fun _ => hf) fun _ v hv => closes_stays hc hfails hv
    · refine openInode_spec hl hu hc h.bitmap hn8 (chg_calm (sheds_calm hF)) (fun hd => absurd hd hfile)
        fun _ W' hd => ?_
      exact .inl (.inl (hF.trans (sheds_drop hd)))
    · refine openInode_spec hl hu hc h.bitmap hn8 hmade.chg (fun hd => ?_) fun hwhy W' hd => ?_
      · rw [hmade.type] at hd
        exact absurd hd (by decide)
      · have hfull : c.Full p := by
          refine hwhy.resolve_left fun hdev => ?_
          rw [hmade.type] at hdev
          exact absurd hdev (by decide)
        rw [made_drop hmade hd]
        exact .inr ⟨hcreate, hfull, i, hmade⟩
  · refine wp_then (namei_spec hl (walk_sheds hw hb) ht .refl hcwd path (fun u W hu hF => ?_) fun ip i u W hu hF => ?_)
    · exact wp_mono (endSame_spec hu hn8 hF) fun _ v hv => closes_stays hc hfails hv
    have hri : Ref c [(ip, i)] ip i := .inl (.head _)
    refine wp_then (ilock_spec hu hri fun v hv _ => ?_)
    rw [wp_bind, wp_getInode, loaded_type hv.rep (mid_loaded hv hri (.head _))]
    refine wp_if (fun _ => wp_mono (putSame_spec hl hv hn8 hF) fun _ x hx => closes_stays hc hfails hx) fun hnot => ?_
    refine openInode_spec hl (mid_pay (mid_charge hv 7 (Bill.affords_le hn8 (by decide)))
      (affords_charged hn8 (by decide)) _) hc h.bitmap hn8 (chg_calm (sheds_calm hF))
      (fun hd => Decidable.by_contra fun hne => hnot ⟨hd, hne⟩) fun _ W' hd => ?_
    exact .inl (.inl (hF.trans (sheds_drop hd)))

theorem sysMake_spec (path : User) (htype : type ≠ 0) (major minor : Int16) :
    wp (sysMake sb p path type major minor)
      (fun r t => Closes sb safe c (node sb V) (Fails sb c.Keeps (node sb V)) (r = -1) t)
      (Fine safe) s := by
  refine wp_then (beginOp_spec h fun t ht => ?_)
  split
  · exact wp_mono (endSame_spec ht hn8 .refl) fun _ _ => closes_fails hc
  refine wp_then (mid_getCwd ht ?_)
  refine wp_then (create_spec hl hw hb hn8 ht .refl (tallied_kept hc hp) htype (fun u W hu hf _ => ?_)
    (fun ip i u W hu hF _ _ => ?_) fun ip i u W hu hmade _ => ?_)
  · exact wp_mono (end_spec hu (fails_chg hf) fun _ => hf) fun _ _ => closes_fails hc
  · exact wp_mono (putEnd_spec hl hu h.bitmap hn8 (chg_calm (sheds_calm hF)) fun _ => .inl hF) fun _ _ =>
      closes_fails hc
  · exact wp_mono (putEnd_spec hl hu h.bitmap hn8 hmade.chg fun h' => absurd h' (by decide)) fun _ _ => closes_fails hc

theorem sysChdir_spec (path : User) :
    wp (sysChdir sb p path) (fun r t => Closes sb safe c (node sb V) (Fails sb c.Keeps (node sb V)) (r = -1) t)
      (Fine safe) s := by
  refine wp_then (beginOp_spec h fun t ht => ?_)
  split
  · exact wp_mono (endSame_spec ht hn8 .refl) fun _ _ => closes_fails hc
  next path _ =>
  refine wp_then (mid_getCwd ht ?_)
  refine wp_then (namei_spec hl (walk_sheds hw hb) ht .refl (tallied_kept hc hp) path (fun u W hu hF => ?_)
    fun ip i u W hu hF => ?_)
  · exact wp_mono (endSame_spec hu hn8 hF) fun _ _ => closes_fails hc
  have hri : Ref c [(ip, i)] ip i := .inl (.head _)
  refine wp_then (ilock_spec hu hri fun v hv _ => ?_)
  refine wp_if (fun _ => wp_mono (putSame_spec hl hv hn8 hF) fun _ _ => closes_fails hc) fun _ => ?_
  -- while the new directory is locked it is read in, so it may be kept
  generalize hcwd : (c.proc p).cwd = cwd
  generalize hx : ({ c.proc p with cwd := ip } : Proc) = x
  have hxl : ∀ e, x.holds e = decide (ip = e) := fun e => by
    rw [← hx]
    simp [Proc.holds, hp]
  have hpl : ∀ e, (c.proc p).holds e = decide (cwd = e) := fun e => by simp [Proc.holds, hp, hcwd]
  have hm : Mid sb safe (c.moved v c.file (held c.file (upd c.proc p x))) v W
      [(cwd, (v.inode cwd).inum)] [ip] := by
    refine mid_cwd hv hc (fun e => ?_) (fun y hy => ?_) fun e he => ?_
    · rw [hxl, hpl, temps_cons, temps_cons]
      by_cases h1 : ip = e <;> by_cases h2 : cwd = e <;> simp [h1, h2]
    · rw [List.mem_singleton.mp hy]
    · rw [hxl] at he
      rw [← of_decide_eq_true he]
      exact .inr (hv.locked ip (.head _)).1
  refine wp_then (iunlock_spec hm fun w hw' _ => ?_)
  refine wp_then (mid_getCwd hw' ?_)
  rw [wp_bind]
  show wp (iput sb (c.proc p).cwd) _ _ w
  rw [hcwd]
  refine iput_spec hl (mid_pay hw' (Bill.affords_le hn8 (by decide)) (sb.IBLOCK (v.inode cwd).inum))
    (fun hm' => absurd hm' List.not_mem_nil)
    (fun _ _ => .inr (.inr rfl)) fun y W' hy hd _ => ?_
  rw [wp_bind]
  have hy8 : Mid sb safe ((c.moved v c.file (held c.file (upd c.proc p x))).charge 8) y W' [] [] :=
    mid_charge (mid_paid hy hw'.bitmap (Bill.affords_le hn8 (by decide))) 7 (Bill.affords_charge hn8 1 (by decide))
  refine endOp_spec hy8 fun z hz => ?_
  refine wp_then (setCwd_spec hx hc _ hz fun t c' ht htc hs hlog => ?_)
  refine ⟨c', W', ht, htc, hs, chg_calm ((sheds_calm hF).trans (calm_drop hd)), ?_, fun h' => absurd h' (by decide)⟩
  rw [hlog]
  exact hz.logged

end paths

/-! ## exit and fork -/

/-- `kexit`'s loop. -/
theorem closeFiles_spec (hl : sb.Layout) (hroom : ¬ safe.room) (scope : Scope)
    (hq : ∀ t c V', Mid sb safe c t V' [] [] → c.Tallied → c.scope = scope → (c.proc p).live = true →
      Calm F (node sb V') → Q () t)
    (fds : List (Fin NOFILE)) :
    ∀ {c s V}, Mid sb safe c s V [] [] → c.Tallied → c.scope = scope → (c.proc p).live = true → Calm F (node sb V) →
      wp (closeFiles sb p fds) Q (Fine safe) s := by
  induction fds with
  | nil =>
    intro c s V h hc hs hp hF
    exact hq s c V h hc hs hp hF
  | cons fd fds ih =>
    intro c s V h hc hs hp hF
    unfold closeFiles
    rw [wp_bind, wp_get]
    split
    · exact ih h hc hs hp hF
    refine wp_then (close_spec hl hroom h hc fun t c' V' ht htc hpr hst hcalm => ?_)
    refine wp_then (setProc_spec ht htc (fun _ => rfl) fun u hu huc => ?_)
    refine ih hu huc (hst.trans hs) ?_ (hF.trans hcalm)
    simp only [upd_same]
    rw [hpr]
    exact hp

/-- The transaction in which an exiting process lets go of its directory. -/
theorem exitPut_spec (hl : sb.Layout) (h : Mid sb safe c s V [] []) (hn1 : c.Affords safe 1) (hc : c.Tallied)
    (hp : (c.proc p).live = true) (hx : ({ c.proc p with live := false } : Proc) = x) {m : M Unit}
    (hq : ∀ t V' num, Mid sb safe ⟨c.file, c.proc, held c.file (upd c.proc p x), num, c.scope,
      c.bill.charge 1⟩ t V' [] [] → Calm (node sb V) (node sb V') → wp m Q (Fine safe) t)
    : wp (do beginOp; iput sb (← getCwd p); endOp; m) Q (Fine safe) s := by
  refine wp_then (beginOp_spec h fun u hu => ?_)
  refine wp_then (mid_getCwd hu ?_)
  generalize hcwd : (c.proc p).cwd = cwd
  have hxl : ∀ e, x.holds e = false := fun e => by
    rw [← hx]
    simp [Proc.holds]
  have hpl : ∀ e, (c.proc p).holds e = decide (cwd = e) := fun e => by simp [Proc.holds, hp, hcwd]
  have hm : Mid sb safe (c.moved u c.file (held c.file (upd c.proc p x))) u V
      [(cwd, (u.inode cwd).inum)] [] := by
    refine mid_cwd hu hc (fun e => ?_) (fun y hy => ?_) fun e he => ?_
    · rw [hxl, hpl, temps_cons]
      by_cases h2 : cwd = e <;> simp [h2]
    · rw [List.mem_singleton.mp hy]
    · rw [hxl] at he
      cases he
  refine wp_then (iput_spec hl (mid_pay hm hn1 (sb.IBLOCK (u.inode cwd).inum)) (fun hm' => absurd hm' List.not_mem_nil)
    (fun _ _ => .inr (.inr rfl)) fun y W hy hd _ => ?_)
  exact wp_then (endOp_spec (mid_paid hy hm.bitmap hn1) fun z hz => hq z W _ hz (calm_drop hd))

theorem kexit_spec (hl : sb.Layout) (hroom : ¬ safe.room) (h : Mid sb safe c s V [] []) (hc : c.Tallied)
    (hp : (c.proc p).live = true) :
    wp (kexit sb p) (fun _ t => After sb safe c.scope (node sb V) t) (Fine safe) s := by
  refine wp_if (fun _ => trivial) fun _ => ?_
  refine wp_then (closeFiles_spec hl hroom c.scope (fun t c' V' ht htc hs hp' hF => ?_) _ h hc rfl hp .refl)
  generalize hx : ({ c'.proc p with live := false } : Proc) = x
  refine exitPut_spec hl ht (affords_open hroom _ _) htc hp' hx fun z W num hz hcalm => ?_
  exact setCwd_spec hx htc num hz fun t c'' ht htc' hs' _ => ⟨c'', W, ht, htc', hs'.trans hs, chg_calm (hF.trans hcalm)⟩

/-- `kfork`'s loop. -/
theorem dupFiles_spec (hpq : p ≠ q) (scope : Scope) (x : Proc)
    (hq : ∀ t c, Mid sb safe c t V [] [] → c.Tallied → c.scope = scope → c.proc p = x →
      (c.proc q).live = false → Q () t)
    (fds : List (Fin NOFILE)) :
    ∀ {c s}, Mid sb safe c s V [] [] → c.Tallied → c.scope = scope → c.proc p = x → (c.proc q).live = false →
      wp (dupFiles p q fds) Q (Fine safe) s := by
  induction fds with
  | nil =>
    intro c s h hc hs hp hdead
    exact hq s c h hc hs hp hdead
  | cons fd fds ih =>
    intro c s h hc hs hp hdead
    unfold dupFiles
    rw [wp_bind, wp_get]
    split
    · exact ih h hc hs hp hdead
    refine wp_then (filedup_spec h hc fun t file ht htc => ?_)
    refine wp_then (setProc_spec ht htc (fun _ => rfl) fun u hu huc => ?_)
    refine ih hu huc hs ?_ ?_
    · simp only [upd_ne _ _ hpq]
      exact hp
    · simp only [upd_same]
      exact hdead

theorem kfork_spec {ok : Bool} (h : Mid sb safe c s V [] []) (hc : c.Tallied) (hp : (c.proc p).live = true) :
    wp (kfork p q ok) (fun _ t => After sb safe c.scope (node sb V) t) (Fine safe) s := by
  unfold kfork
  rw [wp_bind, wp_get, h.proc]
  refine wp_if (fun _ => after_same h hc) fun hnot => ?_
  have hdead : (c.proc q).live = false := Bool.eq_false_iff.mpr fun e => hnot (.inr e)
  have hpq : p ≠ q := fun e => by
    rw [e, hdead] at hp
    cases hp
  refine wp_then (dupFiles_spec hpq c.scope (c.proc p) (fun t c' ht htc hs hp' hdead' => ?_) _ h hc rfl rfl hdead)
  have hlive : (c'.proc p).live = true := by rw [hp']; exact hp
  refine wp_then (mid_getCwd ht ?_)
  generalize hcwd : (c'.proc p).cwd = cwd
  have hkept : 0 < c'.kept cwd := hcwd ▸ tallied_kept htc hlive
  refine wp_then (idup_spec ht (.inr ⟨hkept, rfl⟩) fun u hu => ?_)
  generalize hx : ({ c'.proc q with cwd := cwd, live := true } : Proc) = x
  have hxl : ∀ e, x.holds e = decide (cwd = e) := fun e => by
    rw [← hx]
    simp [Proc.holds]
  have hql : ∀ e, (c'.proc q).holds e = false := fun e => by simp [Proc.holds, hdead']
  refine setCwd_spec hx htc (fun e => (u.inode e).inum)
    (mid_cwd hu htc (fun e => ?_) (fun y hy => absurd hy List.not_mem_nil) fun e he => ?_)
    fun t c'' ht htc' hs' _ => ⟨c'', V, ht, htc', hs'.trans hs, chg_calm .refl⟩
  · rw [hxl, hql, temps_cons]
    by_cases h2 : cwd = e <;> simp [h2]
  · rw [hxl] at he
    rw [← of_decide_eq_true he]
    exact .inl hkept

/-! ## The other calls -/

theorem sysClose_spec (hl : sb.Layout) (hroom : ¬ safe.room) (h : Mid sb safe c s V [] []) (hc : c.Tallied) (fd : Int) :
    wp (sysClose sb p fd) (fun _ t => After sb safe c.scope (node sb V) t) (Fine safe) s := by
  refine wp_then (argfd_spec fun r => ?_)
  split
  · exact after_same h hc
  · refine wp_then (setProc_spec h hc (fun _ => rfl) fun t ht htc => ?_)
    rw [wp_bind]
    exact close_spec hl hroom ht htc fun u c' V' hu huc _ hs hcalm => ⟨c', V', hu, huc, hs, chg_calm hcalm⟩

theorem sysDup_spec (h : Mid sb safe c s V [] []) (hc : c.Tallied) (fd : Int) :
    wp (sysDup p fd) (fun _ t => After sb safe c.scope (node sb V) t) (Fine safe) s := by
  have hsame : After sb safe c.scope (node sb V) s := after_same h hc
  refine wp_then (argfd_spec fun r => ?_)
  split
  · exact hsame
  · refine wp_then (fdalloc_spec h hc (fun _ => hsame) fun fd' t ht htc => ?_)
    exact wp_then (filedup_spec ht htc fun u file hu huc => ⟨_, V, hu, huc, rfl, chg_calm .refl⟩)

theorem sysRead_spec (h : Mid sb safe c s V [] []) (hc : c.Tallied) (fd : Int) (dst : Nat → Bool) (n ext : Int) :
    wp (sysRead sb p fd dst n ext) (fun _ t => After sb safe c.scope (node sb V) t) (Fine safe) s := by
  refine wp_then (argfd_spec fun r => ?_)
  split
  · exact after_same h hc
  · exact fileread_spec h hc fun r t file ht htc => ⟨_, V, ht, htc, rfl, chg_calm .refl⟩

theorem sysWrite_spec (hl : sb.Layout) (hroom : ¬ safe.room) (h : Mid sb safe c s V [] []) (hc : c.Tallied)
    (hb : c.bill = .blank) (fd : Int) (src : User) (n ext : Int) :
    wp (sysWrite sb p fd src n ext) (fun _ t => After sb safe c.scope (node sb V) t) (Fine safe) s := by
  refine wp_then (argfd_spec fun r => ?_)
  split
  · exact after_same h hc
  · exact filewrite_spec hl hroom h hc hb

theorem sysFstat_spec (h : Mid sb safe c s V [] []) (hc : c.Tallied) (fd : Int) (ok : Bool) :
    wp (sysFstat sb p fd ok) (fun _ t => After sb safe c.scope (node sb V) t) (Fine safe) s := by
  refine wp_then (argfd_spec fun r => ?_)
  split
  · exact after_same h hc
  · exact filestat_spec h fun r t ht => ⟨c, V, ht, hc, rfl, chg_calm .refl⟩

/-- A file that stands for no inode comes to stand for the end of a pipe. -/
theorem pipeEnd_spec {g : File → File} (h : Mid sb safe c s V T L) (hc : c.Tallied) (hn : ¬ (c.file f).Inoded)
    (hg : (g (c.file f)).type = .pipe) (hpos : 0 < (g (c.file f)).ref)
    (hq : ∀ t, Mid sb safe { c with file := upd c.file f (g (c.file f)) } t V T L →
      Ctx.Tallied { c with file := upd c.file f (g (c.file f)) } → Q () t)
    : wp (setFile f g) Q E s := by
  refine setFile_spec h hc (fun e => ?_) (fun hle => ?_) (fun hi => ?_) hq
  · unfold File.Inoded at hn
    simp [File.holds, hg, hn]
  · omega
  · exact absurd hi (not_inoded (.inr hg))

theorem pipealloc_spec (hl : sb.Layout) (hroom : ¬ safe.room) (h : Mid sb safe c s V [] []) (hc : c.Tallied)
    (page : Option Nat) {Q : Option (Fin NFILE × Fin NFILE) → St → Prop}
    (hq : ∀ r t c' V', Mid sb safe c' t V' [] [] → c'.Tallied → c'.scope = c.scope →
      Calm (node sb V) (node sb V') → Q r t) :
    wp (pipealloc sb page) Q (Fine safe) s := by
  refine wp_then (filealloc_spec h hc (fun _ => hq _ s c V h hc rfl .refl) fun f0 t h0 _ ht htc => ?_)
  refine wp_then (filealloc_spec ht htc (fun _ => ?_) fun f1 u h1 _ hu huc => ?_)
  · rw [wp_bind]
    exact close_spec hl hroom ht htc fun v c' V' hv hvc _ hs hcalm => hq _ v c' V' hv hvc hs hcalm
  have hkalloc : ∀ {R : Option Nat → St → Prop}, (∀ r, R r u) → wp (kalloc page) R (Fine safe) u := by
    intro R hR
    unfold kalloc
    split
    · exact hR _
    · exact hR _
  refine wp_then (hkalloc fun r => ?_)
  split
  · exact closeBoth_spec hl hroom hu huc (hq none)
  · rw [wp_bind]
    unfold setPipe
    rw [wp_modify, wp_bind]
    generalize hfile : upd (upd c.file f0 { c.file f0 with ref := 1 }) f1 _ = file at hu huc
    have hf1 : (file f1).type = .none ∧ (file f1).ref = 1 := by
      rw [← hfile, upd_same]
      exact ⟨h1, rfl⟩
    have hf0 : (file f0).type = .none ∧ (file f0).ref = 1 := by
      by_cases e : f0 = f1
      · rw [e]
        exact hf1
      · rw [← hfile, upd_ne _ _ e, upd_same]
        exact ⟨h0, rfl⟩
    refine pipeEnd_spec (mid_pipe hu) huc (not_inoded (.inl hf0.1)) rfl (by simp only [hf0.2]; decide)
      fun v hv hvc => ?_
    refine wp_then (pipeEnd_spec hv hvc ?_ rfl ?_ fun w hw hwc => hq _ w _ V hw hwc rfl .refl)
    · by_cases e : f1 = f0
      · simp only [e, upd_same]
        exact not_inoded (.inr rfl)
      · simp only [upd_ne _ _ e]
        exact not_inoded (.inl hf1.1)
    · by_cases e : f1 = f0
      · simp only [e, upd_same, hf0.2]
        decide
      · simp only [upd_ne _ _ e, hf1.2]
        decide

theorem sysPipe_spec (hl : sb.Layout) (hroom : ¬ safe.room) (h : Mid sb safe c s V [] []) (hc : c.Tallied)
    (page : Option Nat) (ok : Bool) :
    wp (sysPipe sb p page ok) (fun _ t => After sb safe c.scope (node sb V) t) (Fine safe) s := by
  -- both ends are closed again
  have hclose : ∀ {rf wf : Fin NFILE} {r : Int} {u : St} {c' : Ctx} {W : Vol}, Mid sb safe c' u W [] [] →
    c'.Tallied → c'.scope = c.scope →
      Calm (node sb V) (node sb W) →
      wp (do fileclose sb rf; fileclose sb wf; return r) (fun _ t => After sb safe c.scope (node sb V) t)
      (Fine safe) u := by
    intro rf wf r u c' W hu huc hs hF
    refine closeBoth_spec hl hroom hu huc fun w c2 V2 hw hwc hs2 hcalm => ?_
    exact ⟨c2, V2, hw, hwc, hs2.trans hs, chg_calm (hF.trans hcalm)⟩
  refine wp_then (pipealloc_spec hl hroom h hc page fun r t c1 V1 ht htc hs hF => ?_)
  split
  · exact ⟨c1, V1, ht, htc, hs, chg_calm hF⟩
  refine wp_then (fdalloc_spec ht htc (fun _ => hclose ht htc hs hF) fun fd0 u hu huc => ?_)
  refine wp_then (fdalloc_spec hu huc (fun _ => ?_) fun fd1 v hv hvc => ?_)
  · exact wp_then (setProc_spec hu huc (fun _ => rfl) fun w hw hwc => hclose hw hwc hs hF)
  refine wp_if (fun _ => ⟨_, V1, hv, hvc, hs, chg_calm hF⟩) fun _ => ?_
  refine wp_then (setProc_spec hv hvc (fun _ => rfl) fun w hw hwc => ?_)
  exact wp_then (setProc_spec hw hwc (fun _ => rfl) fun x hx hxc => hclose hx hxc hs hF)

end Xv6.Fs
