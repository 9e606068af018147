/-
  Xv6.Bio.CacheProofs — the cache under the log is transparent, and its representation
  invariant (see `Xv6.Bio.Cache`, `Xv6.Bio.Moves`).
-/

import Xv6.Bio.Calls
import Mathlib.Algebra.BigOperators.Group.Finset.Piecewise

namespace Xv6.Bio

open Lib Log

variable {P : Type} {start : Nat} {d₀ : Disk} {s t : St P} {p : P} {i : Idx} {b : Nat}
  {c c' : Committer P} {u : Use} {r : Reg} {tail : Nat} {ph : Phase} {m m' : Micro}

/-! ## From `binit` -/

theorem fresh_init (d : Disk) : Fresh (init d : St P) := by
  have hnd : (List.finRange NBUF ++ []).Nodup := by rw [List.append_nil]; exact List.nodup_finRange NBUF
  have hring := Links.ring_foldl (List.finRange NBUF) Links.ring_empty hnd
  exact ⟨⟨_, hring, List.nodup_reverse.mpr (List.nodup_finRange NBUF),
    fun i => List.mem_reverse.mpr (List.mem_finRange i)⟩,
    fun _ => rfl, fun _ => .inl rfl, fun _ _ h => absurd rfl h, (fun _ h => by cases h),
    fun _ => rfl, fun _ _ => rfl, rfl, rfl, rfl,
    rfl, rfl⟩

/-! ## From one call of `commit` to the next -/

theorem quiet_commit (hq : Quiet start d₀ s) (hc : s.commit = some c)
    (hl : t.log.committing = s.log.committing ∧ t.log.outstanding = s.log.outstanding) (hp : t.pinning = s.pinning)
    (hcm : t.commit = some c') (hok : PcOk start d₀ t c') : Quiet start d₀ t := by
  obtain ⟨h1, h2, h3, -⟩ := hq.busy c hc
  refine ⟨fun hn => ?_, fun x hx => ?_⟩
  · rw [hcm] at hn; cases hn
  · rw [hcm] at hx
    cases hx
    exact ⟨hl.1.trans h1, hl.2.trans h2, hp.trans h3, hok⟩

theorem atBody_pc (h : AtBody start d₀ s c ph m) (x : Pc) : AtBody start d₀ s { c with pc := x } ph m :=
  ⟨h.legal, fun r => by cases r with | log => exact h.regs .log | home => exact h.regs .home,
    h.range, by cases ph <;> exact h.prog⟩

/-- A call that changes nobody's use of a buffer. -/
theorem keepRegs (h : AtBody start d₀ s c ph m) (hst : ∀ b r, stage ph b m' r = stage ph b m r) (hu : t.use = s.use)
    (hl : t.log.lh = s.log.lh) : ∀ r, due start t.log.lh ph m' r ≠ .idle →
      t.use c.p (c.reg r) = due start t.log.lh ph m' r := by
  intro r
  rw [hu, hl, due, hst]; exact h.regs r

theorem progress_keep (h : Progress start d₀ s c ph m) (hl : t.log.lh = s.log.lh)
    (hu : t.unpinned = s.unpinned) (hd : t.disk = s.disk) (hh : t.hist = s.hist) (hlate : m'.late = m.late)
    (h1 : m' ≠ .bwrite) (h2 : m' ≠ .bunpin) : Progress start d₀ t c' ph m' := by
  have hlog : logical d₀ t = logical d₀ s := logical_congr hh
  have hlogged : ∀ n, Logged start d₀ s n → Logged start d₀ t n := fun n h => by
    unfold Logged; rw [hl, hd, hlog]; exact h
  cases ph with
  | writeLog tail => exact ⟨hu.trans h.1, by rw [hlate]; exact hlogged _ h.2.1, fun e => absurd e h1⟩
  | writeHead => exact ⟨hu.trans h.1, by rw [hl]; exact hlogged _ h.2⟩
  | install tail => exact ⟨by rw [hl]; exact hlogged _ h.1, by rw [hlate]; exact hu.trans h.2.1, fun e => absurd e h2⟩
  | eraseHead => exact ⟨hl.trans h.1, hu.trans h.2⟩

theorem range_keep (h : InRange s ph m) (hm : m ≠ .test) (hl : t.log.lh = s.log.lh) (m' : Micro) : InRange t ph m' := by
  cases ph with
  | writeLog tail | install tail =>
    have hlt : tail < s.log.lh.length := by cases m <;> first | exact h | exact absurd rfl hm
    cases m' <;> simp only [InRange, hl] <;> omega
  | writeHead | eraseHead => trivial

theorem reg_setReg (c : Committer P) (i : Idx) (r : Reg) : (c.setReg i r).reg r = i ∧ (c.setReg i r).p = c.p ∧
    ∀ r', r' ≠ r → (c.setReg i r).reg r' = c.reg r' := by
  cases r with
  | log => exact ⟨rfl, rfl, fun r' h => by cases r' with | log => exact absurd rfl h | home => rfl⟩
  | home => exact ⟨rfl, rfl, fun r' h => by cases r' with | home => exact absurd rfl h | log => rfl⟩

/-- The buffer a call is for, when the calls before it were made. -/
theorem use_stage {u : Nat → Use} (h : AtBody start d₀ s c ph m)
    (hst : due start s.log.lh ph m r = u (blockOf start s.log.lh ph r)) (hn : u (blockOf start s.log.lh ph r) ≠ .idle) :
    s.use c.p (c.reg r) = u (blockOf start s.log.lh ph r) :=
  (h.regs r (by rw [hst]; exact hn)).trans hst

/-- The calls on one buffer that `commit` has already. -/
def Micro.on : Micro → Option Reg
  | .acquiresleep r | .fill r | .releasesleep r | .unref r => some r
  | _ => none

def Micro.before (b : Nat) : Micro → Use
  | .acquiresleep _ => .waiting b
  | .fill _ => .locked b
  | .releasesleep _ => .holding b false
  | .unref _ => .releasing b
  | _ => .idle

def Micro.after (b : Nat) : Micro → Use
  | .acquiresleep _ => .locked b
  | .fill _ => .holding b false
  | .releasesleep _ => .releasing b
  | _ => .idle

theorem stage_before (hr : m.on = some r) (b : Nat) : stage ph b m r = m.before b ∧ stage ph b m r ≠ .idle := by
  cases m <;> cases hr <;> cases r <;> exact ⟨rfl, Use.noConfusion⟩

theorem use_before (h : AtBody start d₀ s c ph m) (hr : m.on = some r) :
    s.use c.p (c.reg r) = m.before (blockOf start s.log.lh ph r) :=
  (h.regs r (stage_before hr _).2).trans (stage_before hr _).1

/-- The calls between which `commit` neither writes nor unpins. -/
theorem next_call (hleg : Legal ph m) (hr : m.on = some r) (hm' : m.next ph = .body ph m') (hne : m' ≠ .test) :
    Legal ph m' ∧ m'.late = m.late ∧ m' ≠ .bwrite ∧ m' ≠ .bunpin ∧
    (∀ b, stage ph b m' r ≠ .idle → m.after b = stage ph b m' r) ∧
    ∀ r' b, r' ≠ r → stage ph b m' r' ≠ .idle → stage ph b m r' = stage ph b m' r' := by
  cases m <;> cases hr <;> cases r <;> cases ph <;> first | exact absurd hleg id | cases hm'
  all_goals
    refine ⟨by trivial, rfl, Micro.noConfusion, Micro.noConfusion, fun b hs => ?_, fun r' b hr' hs => ?_⟩
    · rfl
    · cases r' <;> first | rfl | exact absurd rfl hr'

/-- `brelse` of the last buffer ends an iteration or a phase. -/
theorem ok_end (h : AtBody start d₀ s c ph (.unref r)) (hr : Rest s t)
    (hm' : ∀ m', (Micro.unref r).next ph = .body ph m' → m' = .test) :
    PcOk start d₀ t { c with pc := (Micro.unref r).next ph } := by
  have hl : t.log.lh = s.log.lh := by rw [hr.log]
  have hlog : logical d₀ t = logical d₀ s := logical_congr hr.hist
  have hlogged : ∀ n, Logged start d₀ s n → Logged start d₀ t n := fun n h => by
    unfold Logged; rw [hl, hr.disk, hlog]; exact h
  have hidle : ∀ {ph' r'}, due start t.log.lh ph' .test r' ≠ .idle → False := fun hs => hs rfl
  have hleg := h.legal
  have hp := h.prog
  have hrange := h.range
  cases ph with
  | writeLog tail =>
    cases r with
    | home => exact absurd (hm' _ rfl) Micro.noConfusion
    | log =>
      refine ⟨trivial, fun r' hs => (hidle hs).elim, ?_, hr.unpinned.trans hp.1, hlogged _ hp.2.1, Micro.noConfusion⟩
      have : tail < s.log.lh.length := hrange
      show tail + 1 ≤ t.log.lh.length
      rw [hl]; exact this
  | install tail =>
    cases r with
    | log => exact absurd (hm' _ rfl) Micro.noConfusion
    | home =>
      refine ⟨trivial, fun r' hs => (hidle hs).elim, ?_, by rw [hl]; exact hlogged _ hp.1,
        hr.unpinned.trans hp.2.1, Micro.noConfusion⟩
      have : tail < s.log.lh.length := hrange
      show tail + 1 ≤ t.log.lh.length
      rw [hl]; exact this
  | writeHead =>
    cases r with
    | home => exact absurd hleg id
    | log =>
      exact ⟨trivial, fun r' hs => (hidle hs).elim, Nat.zero_le _, by rw [hl]; exact hlogged _ hp.2,
        hr.unpinned.trans hp.1, Micro.noConfusion⟩
  | eraseHead =>
    cases r with
    | home => exact absurd hleg id
    | log => exact ⟨hl.trans hp.1, hr.unpinned.trans hp.2⟩

theorem ok_test (h : AtBody start d₀ s c ph .test) : PcOk start d₀ s { c with pc := testPc s.log.lh ph } := by
  have hidle : ∀ {ph' : Phase} {r'}, due start s.log.lh ph' .test r' ≠ .idle → False := fun hs => hs rfl
  have hidle' : ∀ {ph' : Phase} {r'}, due start s.log.lh ph' (.bget .log) r' ≠ .idle → False := fun hs => hs rfl
  have hp := h.prog
  have hrange := h.range
  cases ph with
  | writeLog tail =>
    have hle : tail ≤ s.log.lh.length := hrange
    simp only [testPc]
    split
    · rename_i hlt
      exact ⟨trivial, fun r' hs => (hidle' hs).elim, hlt, hp.1, hp.2.1, Micro.noConfusion⟩
    · rename_i hlt
      refine ⟨trivial, fun r' hs => (hidle hs).elim, trivial, hp.1, ?_⟩
      have : tail = s.log.lh.length := by omega
      exact this ▸ hp.2.1
  | install tail =>
    have hle : tail ≤ s.log.lh.length := hrange
    simp only [testPc]
    split
    · rename_i hlt
      exact ⟨trivial, fun r' hs => (hidle' hs).elim, hlt, hp.1, hp.2.1, Micro.noConfusion⟩
    · rename_i hlt
      have h1 : s.unpinned = tail := hp.2.1
      show s.unpinned = s.log.lh.length
      omega
  | writeHead | eraseHead => exact ⟨trivial, fun r' hs => (hidle' hs).elim, trivial, hp⟩

section

variable [Fintype P]

theorem inv_fresh (h : Fresh s) : Inv start s.disk s := by
  have hpin : pinned s = [] := by simp [pinned, h.log, h.pinning]
  have husers : ∀ i, users s.use i = 0 := fun i => total_eq_zero.mpr fun p => by rw [h.use]; rfl
  have hlogical : ∀ b, logical s.disk s b = s.disk b := fun b => by simp [logical, h.hist]
  refine ⟨⟨h.ring, ⟨h.dev, fun i j b h1 h2 => ?_, fun p i b hb => ?_⟩, fun i => ?_, fun p i => ?_, ?_, ?_⟩, ?_⟩
  · exact h.uniq i j (by rw [h1.1]; decide) (h1.1.trans h2.1.symm) (h1.2.trans h2.2.symm)
  · rw [h.use] at hb; cases hb
  · simp [h.refcnt, husers, pins, hpin]
  · rw [h.lock, h.use]; simp [Use.held]
  · refine ⟨by simp [h.log], by simp [h.log], by simp [h.log], fun p i hp => ?_⟩
    rw [h.pinning] at hp; cases hp
  · refine ⟨by simp [hpin], fun p i b k hu => ?_, fun i hv hd => .inl ?_, fun b _ _ => (hlogical b).symm⟩
    · rw [h.use] at hu; cases hu
    · rw [h.clean i hv hd]
      unfold want
      split
      · exact (hlogical _).symm
      · rfl
  · refine ⟨fun _ => ⟨by rw [h.log], h.unpinned⟩, fun c hc => ?_⟩
    rw [h.commit] at hc; cases hc

/-! ## The two buffers of `commit` -/

/-- Past its test a phase has a block to work on; it is a home block, the log's is not. -/
theorem home_block (hc : Core start d₀ s) (hr : InRange s ph m) (hm : m ≠ .test)
    (hph : ph ≠ .writeHead ∧ ph ≠ .eraseHead) :
    s.log.lh[ph.tail]? = some (blockOf start s.log.lh ph .home) ∧ Home start (blockOf start s.log.lh ph .home) := by
  have hlt : ph.tail < s.log.lh.length := by
    cases ph with
    | writeLog tail | install tail => cases m <;> first | exact hr | exact absurd rfl hm
    | writeHead => exact absurd rfl hph.1
    | eraseHead => exact absurd rfl hph.2
  have he : blockOf start s.log.lh ph .home = s.log.lh[ph.tail] := by
    simp [blockOf, List.getD_eq_getElem?_getD, List.getElem?_eq_getElem hlt]
  rw [he]
  exact ⟨List.getElem?_eq_getElem hlt, hc.listed.home _ (List.getElem_mem hlt)⟩

theorem log_block (hc : Core start d₀ s) (hr : InRange s ph m) (hm : m ≠ .test) :
    ¬ Home start (blockOf start s.log.lh ph .log) := by
  have hfit := hc.listed.fits
  have hlt : (∃ tail, (ph = .writeLog tail ∨ ph = .install tail) ∧ tail < s.log.lh.length) ∨
      ph.block start = start := by
    cases ph with
    | writeLog tail => exact .inl ⟨tail, .inl rfl, by cases m <;> first | exact hr | exact absurd rfl hm⟩
    | install tail => exact .inl ⟨tail, .inr rfl, by cases m <;> first | exact hr | exact absurd rfl hm⟩
    | writeHead | eraseHead => exact .inr rfl
  simp only [blockOf, Home]
  rcases hlt with ⟨tail, rfl | rfl, hlt⟩ | he
  · simp only [Phase.block]; omega
  · simp only [Phase.block]; omega
  · rw [he]; omega

/-- The two buffers, when both are in use, are different ones. -/
theorem reg_ne (hc : Core start d₀ s) (h : AtBody start d₀ s c ph m) {r' : Reg} (hne : r' ≠ r)
    (h1 : due start s.log.lh ph m r ≠ .idle) (h2 : due start s.log.lh ph m r' ≠ .idle) :
    c.reg r' ≠ c.reg r := by
  have hask : ∀ x, due start s.log.lh ph m x ≠ .idle → Caches (s.buf (c.reg x)) (blockOf start s.log.lh ph x) :=
    fun x hx => hc.ident.asked c.p _ _ (by rw [h.regs x hx]; exact (stage_block _ _ _ _).resolve_left hx)
  have hm : m ≠ .test := fun e => h1 (by rw [e]; rfl)
  have hph : ph ≠ .writeHead ∧ ph ≠ .eraseHead := by
    -- `write_head` has no home block
    have hl := h.legal
    have h3 : due start s.log.lh ph m .home ≠ .idle := by
      cases r <;> cases r' <;> first | assumption | exact absurd rfl hne
    constructor <;> rintro rfl <;> revert hl h3 <;> cases m <;> simp [Legal, due, stage]
      <;> rename_i x <;> cases x <;> simp
  have hblock : blockOf start s.log.lh ph .log ≠ blockOf start s.log.lh ph .home := fun e =>
    log_block hc h.range hm (e ▸ (home_block hc h.range hm hph).2)
  intro e
  have h5 : blockOf start s.log.lh ph r' = blockOf start s.log.lh ph r := by
    have h6 := hask r' h2
    rw [e] at h6
    exact h6.2.symm.trans (hask r h1).2
  cases r <;> cases r' <;> first | exact hne rfl | exact hblock h5 | exact hblock h5.symm

/-- A write to a home block leaves the log as it is. -/
theorem logged_home (hc : Core start d₀ s) {n b : Nat} {d : Block} (h : Logged start d₀ s n) (hb : Home start b)
    (hl : t.log.lh = s.log.lh) (hh : t.hist = s.hist) (hd : t.disk = upd s.disk b d) : Logged start d₀ t n := by
  intro k x hk hx
  rw [hl] at hx
  have hlt : k < s.log.lh.length := (List.getElem?_eq_some_iff.mp hx).1
  have hfit := hc.listed.fits
  have hne : start + k + 1 ≠ b := by
    unfold Home at hb; omega
  rw [hd, upd_ne _ _ hne, logical_congr hh]
  exact h k x hk hx

/-! ## Reference counts and pins -/

theorem users_eq (use : P → Idx → Use) (i : Idx) :
    users use i = (Finset.univ.filter fun p => use p i ≠ .idle).card := by
  rw [Finset.card_filter]
  refine Finset.sum_congr rfl fun p _ => ?_
  dsimp only
  cases use p i <;> rfl

/-- A pinned buffer is not given to another block. -/
theorem bget_keeps (hc : Core start d₀ s) (hb : b ∈ pinned s) (hi : Caches (s.buf i) b) {dev b' : Nat} {j : Idx}
    (h : bget s dev b' = .ok (j, t)) : Caches (t.buf i) b ∧ (t.buf i).valid = (s.buf i).valid := by
  unfold bget at h
  split at h
  · cases h
    have := buf_refcnt s.buf j ((s.buf j).refcnt + 1) i
    exact ⟨⟨this.1.trans hi.1, this.2.1.trans hi.2⟩, this.2.2.1⟩
  split at h
  · rename_i hz
    cases h
    have hz' : (s.buf j).refcnt = 0 := by simpa using List.find?_some hz
    have hij : i ≠ j := by
      intro e
      have := (free_buf hc hz').2
      rw [← e] at this
      simp [pins, hi.1, hi.2, hb] at this
    simp only [setBuf, upd_ne _ _ hij]
    exact ⟨hi, trivial⟩
  · cases h

end

variable [DecidableEq P]

theorem regs_next (h : AtBody start d₀ s c ph m) (r : Reg) (hp : c'.p = c.p)
    (hreg : ∀ r', r' ≠ r → c'.reg r' = c.reg r') (huse : t.use = upd2 s.use c.p (c'.reg r) u)
    (hl : t.log.lh = s.log.lh) (hu : due start s.log.lh ph m' r ≠ .idle → u = due start s.log.lh ph m' r)
    (ho : ∀ r', r' ≠ r → due start s.log.lh ph m' r' ≠ .idle → due start s.log.lh ph m r' =
      due start s.log.lh ph m' r' ∧ c.reg r' ≠ c'.reg r) :
    ∀ r', due start t.log.lh ph m' r' ≠ .idle →
      t.use c'.p (c'.reg r') = due start t.log.lh ph m' r' := by
  intro r' hs
  rw [hl] at hs ⊢
  rw [huse, hp]
  by_cases e : r' = r
  · rw [e] at hs ⊢
    rw [upd2_same]; exact hu hs
  · obtain ⟨h1, h2⟩ := ho r' e hs
    rw [hreg r' e, upd2_ne _ _ fun hh => h2 hh.2, ← h1]
    exact h.regs r' (h1 ▸ hs)

variable (start d₀) in
theorem micro_call (hr : m.on = some r) (ht : micro start s c ph m = .ok (some (t, c'))) :
    c' = c ∧ ∃ b, Call start d₀ s t c.p (c.reg r) (m.before b) (m.after b) := by
  cases m <;> cases hr <;> simp only [micro, Except.ok.injEq, Option.map_eq_some_iff] at ht <;> obtain ⟨u, hu, he⟩ :=
    ht <;> cases he
  · exact ⟨rfl, callAcquire_ok start d₀ hu⟩
  · exact ⟨rfl, callFill_ok start d₀ hu⟩
  · exact ⟨rfl, callRelease_ok start d₀ hu⟩
  · exact ⟨rfl, callUnref_ok start d₀ hu⟩

variable [Fintype P]

/-! ## Steps of `commit` -/

theorem ok_bget (hc : Core start d₀ s) (h : AtBody start d₀ s c ph (.bget r))
    (ht : callBget s c.p (blockOf start s.log.lh ph r) = .ok (some (i, t))) :
    AtBody start d₀ t (c.setReg i r) ph (.acquiresleep r) := by
  obtain ⟨hidle, -, he, -, hr⟩ := callBget_ok hc ht
  obtain ⟨h1, h2, h3⟩ := reg_setReg c i r
  have hl : t.log.lh = s.log.lh := by rw [hr.log]
  refine ⟨?_, regs_next h r h2 h3 (by rw [h1]; exact he) hl (fun _ => ?_) (fun r' hr' hs => ⟨?_, ?_⟩),
    range_keep h.range Micro.noConfusion hl _,
    progress_keep h.prog hl hr.unpinned hr.disk hr.hist rfl Micro.noConfusion Micro.noConfusion⟩
  · have := h.legal
    cases ph <;> cases r <;> exact this
  · cases r <;> rfl
  · cases r <;> cases r' <;> first | rfl | exact absurd rfl hr'
  · -- the other buffer is in use, this one was not
    rw [h1]
    intro e
    have hs' : due start s.log.lh ph (.bget r) r' ≠ .idle := by
      cases r <;> cases r' <;> first | exact hs | exact absurd rfl hr'
    have h4 := h.regs r' hs'
    rw [e, hidle] at h4
    exact hs' h4.symm

theorem ok_call (hc : Core start d₀ s) (h : AtBody start d₀ s c ph m) (hr : m.on = some r)
    (ht : micro start s c ph m = .ok (some (t, c))) (hm' : m.next ph = .body ph m') (hne : m' ≠ .test) :
    AtBody start d₀ t c ph m' := by
  obtain ⟨-, b, hcall⟩ := micro_call start d₀ hr ht
  have hu := use_before h hr
  obtain ⟨hleg, hlate, h1, h2, hthis, hother⟩ := next_call h.legal hr hm' hne
  have hl : t.log.lh = s.log.lh := by rw [hcall.rest.log]
  refine ⟨hleg, regs_next h r rfl (fun _ _ => rfl) hcall.use hl ?_ (fun r' hr' hs => ⟨hother r' _ hr' hs, ?_⟩),
    range_keep h.range (fun e => by rw [e] at hr; cases hr) hl _,
    progress_keep h.prog hl hcall.rest.unpinned hcall.rest.disk hcall.rest.hist hlate h1 h2⟩
  · have hb : b = blockOf start s.log.lh ph r := by
      rw [hcall.was] at hu
      cases m <;> cases hr <;> cases hu <;> rfl
    rw [hb]
    exact hthis _
  · exact reg_ne hc h hr' (stage_before hr _).2 (by rw [due, hother r' _ hr' hs]; exact hs)

/-- New contents for the log's own buffer, in `write_log` and `write_head`. -/
theorem ok_copyLog (hc : Core start d₀ s) (h : AtBody start d₀ s c ph .copy)
    (hph : ∀ tail, ph ≠ .install tail) (d : Block)
    (hd : ∀ tail, ph = .writeLog tail → d = logical d₀ s (s.log.lh.getD tail 0)) :
    (∀ x, Move start d₀ s
      { setUse (setData s c.lbuf d) c.p c.lbuf (.holding (s.buf c.lbuf).blockno true) with commit := x }) ∧
    AtBody start d₀ (setUse (setData s c.lbuf d) c.p c.lbuf (.holding (s.buf c.lbuf).blockno true)) c ph .bwrite := by
  have hu : s.use c.p c.lbuf = .holding (blockOf start s.log.lh ph .log) false :=
    use_stage (u := (.holding · false)) (r := .log) h rfl Use.noConfusion
  have hb := (hc.ident.asked _ _ _ (by rw [hu]; rfl)).2
  rw [hb]
  refine ⟨fun x => .put c.p c.lbuf _ false true d x hu (.inl rfl), ?_, ?_, ?_, ?_⟩
  · have := h.legal
    cases ph <;> exact this
  · refine regs_next h .log rfl (fun _ _ => rfl) rfl rfl (fun _ => ?_) (fun r' hr' hs => ⟨?_, ?_⟩)
    · cases ph <;> first | rfl | exact absurd rfl (hph _)
    · cases r' <;> first | rfl | exact absurd rfl hr'
    · refine reg_ne hc h hr' Use.noConfusion ?_
      cases r' <;> first | exact hs | exact absurd rfl hr'
  · exact range_keep h.range Micro.noConfusion rfl _
  · have hp := h.prog
    cases ph with
    | writeLog tail =>
      refine ⟨hp.1, hp.2.1, fun _ => ?_⟩
      simp only [setUse, setData, setBuf, upd_same]
      exact hd tail rfl
    | install tail => exact absurd rfl (hph tail)
    | writeHead | eraseHead => exact hp

/-- `install_trans` copies the logged contents over the home block's, which are the same. -/
theorem ok_copyHome (hc : Core start d₀ s) (h : AtBody start d₀ s c (.install tail) .copy) :
    (∀ x, Move start d₀ s { setData s c.dbuf (s.buf c.lbuf).data with commit := x }) ∧
    AtBody start d₀ (setData s c.dbuf (s.buf c.lbuf).data) c (.install tail) .bwrite := by
  have hlog := use_stage (u := (.holding · false)) (r := .log) h rfl Use.noConfusion
  have hhome := use_stage (u := (.holding · false)) (r := .home) h rfl Use.noConfusion
  have ⟨hget, hh⟩ := home_block hc h.range Micro.noConfusion ⟨Phase.noConfusion, Phase.noConfusion⟩
  have hlt : tail < s.log.lh.length := h.range
  have hdata : (s.buf c.lbuf).data = logical d₀ s (blockOf start s.log.lh (.install tail) .home) := by
    rw [show (s.buf c.lbuf).data = _ from clean_data hc hlog, want, if_neg (log_block hc h.range Micro.noConfusion)]
    exact h.prog.1 tail _ hlt hget
  refine ⟨fun x => ?_, h.legal, keepRegs h (fun _ r => by cases r <;> rfl) rfl rfl, h.range,
    h.prog.1, h.prog.2.1, Micro.noConfusion⟩
  have hm : Move start d₀ s _ := .put c.p c.dbuf _ false false (s.buf c.lbuf).data x hhome (.inr ⟨hh, hdata⟩)
  rw [upd2_eq (show s.use c.p c.dbuf = _ from hhome)] at hm
  exact hm

section

variable (hc : Core start d₀ s)

include hc

/-- `install_trans` writes the home block. -/
theorem ok_writeHome (h : AtBody start d₀ s c (.install tail) .bwrite) :
    (∀ x, Move start d₀ s { bwrite s c.dbuf with commit := x }) ∧ AtBody start d₀ (bwrite s c.dbuf) c
    (.install tail) .bunpin := by
  have hhome := use_stage (u := (.holding · false)) (r := .home) h rfl Use.noConfusion
  have hu : s.use c.p c.dbuf = .holding (blockOf start s.log.lh (.install tail) .home) false := hhome
  have hb := (hc.ident.asked _ _ _ (by rw [hu]; rfl)).2
  have ⟨hget, hh⟩ := home_block hc h.range Micro.noConfusion ⟨Phase.noConfusion, Phase.noConfusion⟩
  have hdata : (s.buf c.dbuf).data = logical d₀ s (blockOf start s.log.lh (.install tail) .home) := by
    have := clean_data hc hu
    rwa [want, if_pos hh] at this
  refine ⟨fun x => ?_, h.legal, keepRegs h (fun _ r => by cases r <;> rfl) rfl rfl, h.range,
    ?_, h.prog.2.1, fun _ => ?_⟩
  · have hm : Move start d₀ s _ := .bwrite c.p c.dbuf _ false x hu (fun _ => rfl)
    rw [upd2_eq hu] at hm
    exact hm
  · exact logged_home hc h.prog.1 hh rfl rfl (by rw [← hb]; rfl)
  · show upd s.disk (s.buf c.dbuf).blockno _ (blockOf start s.log.lh (.install tail) .home) = _
    rw [hb, upd_same]
    exact hdata

/-- `write_log` and `write_head` write the log's own block. -/
theorem ok_writeLog (h : AtBody start d₀ s c ph .bwrite) (hph : ∀ tail, ph ≠ .install tail)
    (hm' : Micro.next ph .bwrite = .body ph m') :
    (∀ x, Move start d₀ s
      { setUse (bwrite s c.lbuf) c.p c.lbuf (.holding (s.buf c.lbuf).blockno false) with commit := x }) ∧
    AtBody start d₀ (setUse (bwrite s c.lbuf) c.p c.lbuf (.holding (s.buf c.lbuf).blockno false)) c ph m' := by
  have hst : ∀ b, stage ph b .bwrite .log = .holding b true :=
    fun b => by cases ph <;> first | rfl | exact absurd rfl (hph _)
  have hu : s.use c.p c.lbuf = .holding (blockOf start s.log.lh ph .log) true :=
    use_stage (u := (.holding · true)) (r := .log) h (hst _) Use.noConfusion
  have hb := (hc.ident.asked _ _ _ (by rw [hu]; rfl)).2
  have hnot := log_block hc h.range Micro.noConfusion
  have hp := h.prog
  rw [hb]
  refine ⟨fun x => .bwrite c.p c.lbuf _ true x hu fun hh => absurd hh hnot, ?_, ?_,
    range_keep h.range Micro.noConfusion rfl _, ?_⟩
  · cases ph <;> cases hm' <;> trivial
  · refine regs_next h .log rfl (fun _ _ => rfl) rfl rfl (fun hs => ?_) (fun r' hr' hs => ?_)
    · cases ph <;> cases hm' <;> rfl
    · have he : due start s.log.lh ph .bwrite r' = due start s.log.lh ph m' r' := by
        cases r' with
        | log => exact absurd rfl hr'
        | home => cases ph <;> cases hm' <;> rfl
      exact ⟨he, reg_ne hc h hr' (by rw [due, hst]; exact Use.noConfusion) (by rw [he]; exact hs)⟩
  · cases ph with
    | writeLog tail =>
      cases hm'
      refine ⟨hp.1, fun k x hk hx => ?_, Micro.noConfusion⟩
      show upd s.disk (s.buf c.lbuf).blockno _ (start + k + 1) = logical d₀ s x
      rw [hb]
      by_cases hkt : k = tail
      · have hx' : s.log.lh.getD tail 0 = x := by
          rw [hkt] at hx
          rw [List.getD_eq_getElem?_getD, show s.log.lh[tail]? = some x from hx]; rfl
        rw [hkt, show start + tail + 1 = blockOf start s.log.lh (.writeLog tail) .log from rfl,
          upd_same, hp.2.2 rfl, hx']
      · have hne : start + k + 1 ≠ blockOf start s.log.lh (.writeLog tail) .log := by
          simp only [blockOf, Phase.block]; omega
        rw [upd_ne _ _ hne]
        have : k < tail + Micro.late (.releasesleep .home) := hk
        exact hp.2.1 k x (by simp only [Micro.late] at this ⊢; omega) hx
    | install tail => exact absurd rfl (hph tail)
    | writeHead =>
      cases hm'
      refine ⟨hp.1, fun k x hk hx => ?_⟩
      show upd s.disk (s.buf c.lbuf).blockno _ (start + k + 1) = logical d₀ s x
      rw [hb, upd_ne _ _ (by simp only [blockOf, Phase.block]; omega)]
      exact hp.2 k x hk hx
    | eraseHead => cases hm'; exact hp

theorem ok_bunpin (hq : s.pinning = none) (h : AtBody start d₀ s c (.install tail) .bunpin) :
    (∀ x, Move start d₀ s { bunpin s c.dbuf with unpinned := s.unpinned + 1, commit := x }) ∧
    AtBody start d₀ { bunpin s c.dbuf with unpinned := s.unpinned + 1 } c (.install tail) (.releasesleep .log) := by
  have hhome := use_stage (u := (.holding · false)) (r := .home) h rfl Use.noConfusion
  have hb := hc.ident.asked _ _ _ (show (s.use c.p c.dbuf).block = _ by rw [show s.use c.p c.dbuf = _ from hhome]; rfl)
  have ⟨hget, hh⟩ := home_block hc h.range Micro.noConfusion ⟨Phase.noConfusion, Phase.noConfusion⟩
  have hun : s.unpinned = tail := h.prog.2.1
  refine ⟨fun x => .unpin c.dbuf _ x hb (by rw [hun]; exact hget) hq (h.prog.2.2 rfl), h.legal,
    keepRegs h (fun _ r => by cases r <;> rfl) rfl rfl, h.range, h.prog.1, ?_, Micro.noConfusion⟩
  show s.unpinned + 1 = tail + 1
  rw [hun]

end

/-- One call of `commit` is one move, and leaves it where its program says. -/
theorem micro_ok {c' : Committer P} (hc : Core start d₀ s) (hq : s.pinning = none)
    (h : AtBody start d₀ s c ph m) (hm : m ≠ .test) (ht : micro start s c ph m = .ok (some (t, c'))) :
    (∀ x, Move start d₀ s { t with commit := x }) ∧ PcOk start d₀ t { c' with pc := m.next ph } ∧ t.log = s.log ∧
    t.pinning = s.pinning := by
  cases m with
  | test => exact absurd rfl hm
  | bget r =>
    simp only [micro] at ht
    split at ht
    · rename_i hb
      cases ht
      have hcall := callBget_ok hc hb
      exact ⟨hcall.move, atBody_pc (ok_bget hc h hb) _, hcall.rest.log, hcall.rest.pinning⟩
    · cases ht
    · cases ht
  | copy =>
    cases ph with
    | writeLog tail =>
      cases ht
      have hhome := use_stage (u := (.holding · false)) (r := .home) h rfl Use.noConfusion
      have hdata : (s.buf c.dbuf).data = logical d₀ s (s.log.lh.getD tail 0) := by
        rw [show (s.buf c.dbuf).data = _ from clean_data hc hhome, want,
          if_pos (home_block hc h.range Micro.noConfusion ⟨Phase.noConfusion, Phase.noConfusion⟩).2]
        rfl
      obtain ⟨h1, h2⟩ := ok_copyLog hc h (fun _ => Phase.noConfusion) (s.buf c.dbuf).data
        fun tail' e => by cases e; exact hdata
      exact ⟨h1, atBody_pc h2 _, rfl, rfl⟩
    | install tail =>
      cases ht
      obtain ⟨h1, h2⟩ := ok_copyHome hc h
      exact ⟨h1, atBody_pc h2 _, rfl, rfl⟩
    | writeHead | eraseHead =>
      cases ht
      obtain ⟨h1, h2⟩ := ok_copyLog hc h (fun _ => Phase.noConfusion) (putHead (s.buf c.lbuf).data s.log.lh)
        fun _ => Phase.noConfusion
      exact ⟨h1, atBody_pc h2 _, rfl, rfl⟩
  | bwrite =>
    cases ph with
    | install tail =>
      cases ht
      obtain ⟨h1, h2⟩ := ok_writeHome hc h
      exact ⟨h1, atBody_pc h2 _, rfl, rfl⟩
    | _ =>
      cases ht
      obtain ⟨h1, h2⟩ := ok_writeLog hc h (fun _ => Phase.noConfusion) rfl
      exact ⟨h1, atBody_pc h2 _, rfl, rfl⟩
  | bunpin =>
    have hleg := h.legal
    cases ph with
    | install tail =>
      cases ht
      obtain ⟨h1, h2⟩ := ok_bunpin hc hq h
      exact ⟨h1, atBody_pc h2 _, rfl, rfl⟩
    | _ => exact absurd hleg id
  | acquiresleep r | fill r | releasesleep r =>
    obtain ⟨rfl, b, hcall⟩ := micro_call start d₀ rfl ht
    refine ⟨hcall.move, ?_, hcall.rest.log, hcall.rest.pinning⟩
    cases ph <;> cases r <;> exact atBody_pc (ok_call hc h rfl ht rfl Micro.noConfusion) _
  | unref r =>
    obtain ⟨rfl, b, hcall⟩ := micro_call start d₀ rfl ht
    refine ⟨hcall.move, ?_, hcall.rest.log, hcall.rest.pinning⟩
    cases ph with
    | writeLog tail =>
      cases r with
      | home => exact atBody_pc (ok_call hc h rfl ht rfl Micro.noConfusion) _
      | log => exact ok_end h hcall.rest fun m' e => by cases e
    | install tail =>
      cases r with
      | log => exact atBody_pc (ok_call hc h rfl ht rfl Micro.noConfusion) _
      | home => exact ok_end h hcall.rest fun m' e => by cases e
    | writeHead | eraseHead => exact ok_end h hcall.rest fun m' e => by cases r <;> cases e

/-- One step of `commit`. -/
theorem inv_commit (h : Inv start d₀ s) (hcm : s.commit = some c) : Inv start d₀ (commitStep start s c) := by
  obtain ⟨h1, h2, h3, hok⟩ := h.quiet.busy c hcm
  -- a step that only moves the program counter
  have hctl : ∀ {c' : Committer P}, PcOk start d₀ s c' → Inv start d₀ { s with commit := some c' } := fun {c'} hp =>
    ⟨core_move h.core (.ctl s.log (some c') rfl),
      quiet_commit h.quiet hcm ⟨rfl, rfl⟩ rfl rfl (pcOk_frame hp rfl rfl rfl rfl rfl fun _ _ => rfl)⟩
  unfold commitStep
  split
  · rename_i hpc
    simp only [PcOk, hpc] at hok
    refine hctl ?_
    by_cases hl : s.log.lh.length > 0
    · simp only [if_pos hl]
      exact ⟨trivial, fun r hs => absurd rfl hs, Nat.zero_le _, hok, fun k b hk _ => absurd hk (by simp [Micro.late]),
        Micro.noConfusion⟩
    · simp only [if_neg hl]
      exact ⟨List.length_eq_zero_iff.mp (by omega), hok⟩
  · rename_i ph hpc
    simp only [PcOk, hpc] at hok
    exact hctl (ok_test hok)
  · rename_i ph m hm hpc
    simp only [PcOk, hpc] at hok
    split
    · rename_i t c' ht
      obtain ⟨hmove, hp, hlog, hpin⟩ := micro_ok h.core h3 hok hm ht
      exact ⟨core_move h.core (hmove _),
        quiet_commit h.quiet hcm ⟨by rw [hlog], by rw [hlog]⟩ hpin rfl
        (pcOk_frame hp rfl rfl rfl rfl rfl fun _ _ => rfl)⟩
    · exact h
    · exact inv_panic h _
  · rename_i hpc
    simp only [PcOk, hpc] at hok
    refine ⟨core_move h.core (.clear _ hok h3), quiet_commit h.quiet hcm ⟨rfl, rfl⟩ rfl rfl ?_⟩
    exact ⟨trivial, fun r hs => absurd rfl hs, trivial, rfl, rfl⟩
  · rename_i hpc
    simp only [PcOk, hpc] at hok
    exact ⟨core_move h.core (.ctl _ none rfl), fun _ => ⟨rfl, hok.2⟩, fun c hc => by cases hc⟩

theorem inv_step (s : St P) (e : Ev P) (h : Inv start d₀ s) : Inv start d₀ (step start s e) := by
  unfold step
  split
  · exact h
  cases e with
  | bget p b => exact inv_bget h p b
  | acquiresleep p i => exact inv_acquire h p i
  | fill p i => exact inv_fill h p i
  | modify p i d => exact inv_modify h p i d
  | logWrite p i => exact inv_logWrite h p i
  | listed => exact inv_listed h
  | releasesleep p i => exact inv_release h p i
  | unref p i => exact inv_unref h p i
  | beginOp => exact inv_beginOp h
  | endOp p => exact inv_endOp h p
  | commit =>
    simp only [raw]
    split
    · exact inv_commit h ‹_›
    · exact h

variable (start) in
theorem inv_run (h : Fresh s) (es : List (Ev P)) : Inv start s.disk (run (step start) s es) :=
  run_keeps inv_step es (inv_fresh h)

/-! ## Transparency -/

/-- A process whose `bread(b)` returned and that has not changed the buffer sees what was
    most recently logged for `b`, or the contents `d₀` of the initial disk if nothing was; a
    block that is pinned stays in the cache, whatever `bget` recycles. -/
structure Transparent (start : Nat) (d₀ : Disk) (s : St P) : Prop where
  latest : ∀ p i b, s.use p i = .holding b false → Home start b →
    Caches (s.buf i) b ∧ (s.buf i).data = (lastPut s.hist b).getD (d₀ b)
  kept : ∀ b ∈ pinned s, ∃ i, Caches (s.buf i) b ∧ (s.buf i).valid = true ∧
    ∀ dev b' j t, bget s dev b' = .ok (j, t) → Caches (t.buf i) b ∧ (t.buf i).valid = true

/-- The cache under the log is transparent in every state of every run. -/
theorem bread_latest (start : Nat) (s₀ : St P) (h : Fresh s₀) (es : List (Ev P)) :
    Transparent start s₀.disk (run (step start) s₀ es) := by
  have hi := inv_run start h es
  generalize run (step start) s₀ es = s at hi ⊢
  refine ⟨fun p i b hu hh => ?_, fun b hb => ?_⟩
  · refine ⟨hi.core.ident.asked p i b (by rw [hu]; rfl), ?_⟩
    rw [clean_data hi.core hu, want, if_pos hh, logical, putAll_apply]
  · obtain ⟨i, h1, h2⟩ := hi.core.data.cached b hb
    refine ⟨i, h1, h2, fun dev b' j t ht => ?_⟩
    obtain ⟨h3, h4⟩ := bget_keeps hi.core hb h1 ht
    exact ⟨h3, h4.trans h2⟩

/-! ## The representation -/

/-- The list through the head is a ring of all buffers, no two buffers cache one block,
    each `refcnt` counts the processes that hold, wait for or are still releasing the buffer
    and the pin of its block, and the log lists no block twice. -/
structure Repr (s : St P) : Prop where
  ring : ∃ l, s.ring.Ring l ∧ l.Nodup ∧ ∀ i, i ∈ l
  inverse : ∀ n, s.ring.prev (s.ring.next n) = n ∧ s.ring.next (s.ring.prev n) = n
  uniq : ∀ i j, (s.buf i).dev ≠ 0 → (s.buf i).dev = (s.buf j).dev → (s.buf i).blockno = (s.buf j).blockno → i = j
  refcnt : ∀ i, (s.buf i).refcnt = ((Finset.univ.filter fun p => s.use p i ≠ .idle).card : Int) +
    if (s.buf i).dev = ROOTDEV ∧ (s.buf i).blockno ∈ pinned s then 1 else 0
  nodup : s.log.lh.Nodup
  nonneg : ∀ i, 0 ≤ (s.buf i).refcnt

theorem cache_repr (start : Nat) (s₀ : St P) (h : Fresh s₀) (es : List (Ev P)) : Repr (run (step start) s₀ es) := by
  have hi := (inv_run start h es).core
  generalize run (step start) s₀ es = s at hi ⊢
  have hcount := hi.count
  refine ⟨hi.ring, fun n => ?_, fun i j h1 h2 h3 => ?_, fun i => ?_, hi.listed.nodup, fun i => ?_⟩
  · obtain ⟨l, hl, -, hall⟩ := hi.ring
    exact Links.ring_inverse hl hall n
  · have hd : (s.buf i).dev = ROOTDEV := (hi.ident.dev i).resolve_left h1
    exact hi.ident.uniq i j _ ⟨hd, rfl⟩ ⟨h2 ▸ hd, h3.symm⟩
  · rw [← users_eq, hcount i]
    unfold pins
    split <;> rfl
  · have := hcount i
    omega

/-- The first buffer `bget` hands out. -/
def buf0 : Idx := ⟨0, Nat.zero_lt_succ 29⟩

/-- One process reads block 0, changes it and calls `log_write`, which has done `bpin`. -/
def pinEvs : List (Ev Unit) :=
  [.beginOp, .bget () 0, .acquiresleep () buf0, .fill () buf0, .modify () buf0 Bytes.zero, .logWrite () buf0]

/-- The block is listed, the operation ends, and `commit` runs up to its `bunpin`. -/
def unpinEvs : List (Ev Unit) :=
  pinEvs ++ [.listed, .releasesleep () buf0, .unref () buf0, .endOp ()] ++ List.replicate 33 .commit

theorem bread_latest_init : Fresh (init (fun _ => Bytes.zero) : St Unit) ∧
    Transparent 2 (init (fun _ => Bytes.zero) : St Unit).disk (run (step 2) (init fun _ => Bytes.zero) pinEvs) :=
  ⟨fresh_init _, bread_latest 2 _ (fresh_init _) pinEvs⟩

theorem cache_repr_init : Fresh (init (fun _ => Bytes.zero) : St Unit) ∧
    Repr (run (step 2) (init (fun _ => Bytes.zero) : St Unit) unpinEvs) :=
  ⟨fresh_init _, cache_repr 2 _ (fresh_init _) unpinEvs⟩

/-- A `refcnt` as the number of processes that hold or wait for the buffer, plus one if its
    block is listed. -/
def CountsListed (s : St Unit) (i : Idx) : Prop :=
  (s.buf i).refcnt = (if (s.use () i).held ∨ s.use () i = .waiting (s.buf i).blockno then 1 else 0) +
    if (s.buf i).blockno ∈ s.log.lh then 1 else 0

instance (s : St Unit) (i : Idx) : Decidable (CountsListed s i) := inferInstanceAs (Decidable (_ = _))

/-- Between `bpin` and `log.lh.n++` the pin is counted and the block not listed; after
    `bunpin` the block is still listed and its pin is gone. -/
theorem listed_is_not_pinned :
    ¬ CountsListed (run (step 2) (init fun _ => Bytes.zero) pinEvs) buf0 ∧
    ¬ CountsListed (run (step 2) (init fun _ => Bytes.zero) unpinEvs) buf0 := by
  decide +kernel

end Xv6.Bio
