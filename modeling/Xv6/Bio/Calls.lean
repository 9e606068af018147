/-
  Xv6.Bio.Calls — the invariant of the cache under the log and its commit, and that the calls
  of the processes other than the committing one keep it (see `Xv6.Bio.Cache`,
  `Xv6.Bio.Moves`).
-/

import Xv6.Bio.MovesProofs

namespace Xv6.Bio

open Lib Log

variable {P : Type} [DecidableEq P]

/-! ## Where `commit` is, and what it knows -/

/-- How far `commit` is with each of its buffers when it makes call `m`. -/
def stage (ph : Phase) (b : Nat) : Micro → Reg → Use
  | .test, _ => .idle
  | .bget .log, _ => .idle
  | .acquiresleep .log, .log => .waiting b
  | .fill .log, .log => .locked b
  | .acquiresleep .log, .home => .idle
  | .fill .log, .home => .idle
  | .bget .home, .log => .holding b false
  | .acquiresleep .home, .log => .holding b false
  | .fill .home, .log => .holding b false
  | .bget .home, .home => .idle
  | .acquiresleep .home, .home => .waiting b
  | .fill .home, .home => .locked b
  | .copy, .log => .holding b false
  | .bwrite, .log => .holding b (match ph with | .install _ => false | _ => true)
  | .bunpin, .log => .holding b false
  | .copy, .home => (match ph with | .writeLog _ | .install _ => .holding b false | _ => .idle)
  | .bwrite, .home => (match ph with | .writeLog _ | .install _ => .holding b false | _ => .idle)
  | .bunpin, .home => .holding b false
  | .releasesleep .log, .log => .holding b false
  | .unref .log, .log => .releasing b
  | .releasesleep .log, .home => (match ph with | .install _ => .holding b false | _ => .idle)
  | .unref .log, .home => (match ph with | .install _ => .holding b false | _ => .idle)
  | .releasesleep .home, .log => (match ph with | .writeLog _ => .holding b false | _ => .idle)
  | .unref .home, .log => (match ph with | .writeLog _ => .holding b false | _ => .idle)
  | .releasesleep .home, .home => .holding b false
  | .unref .home, .home => .releasing b

def Legal : Phase → Micro → Prop
  | .writeLog _, .bunpin => False
  | .writeLog _, _ => True
  | .install _, _ => True
  | _, .bget .home | _, .acquiresleep .home | _, .fill .home | _, .bunpin | _, .releasesleep .home | _,
    .unref .home => False
  | _, _ => True

/-- The calls after the disk write (and the `bunpin`). -/
def Micro.late : Micro → Nat
  | .releasesleep _ | .unref _ => 1
  | _ => 0

theorem stage_block (ph : Phase) (b : Nat) (m : Micro) (r : Reg) :
    stage ph b m r = .idle ∨ (stage ph b m r).block = some b := by
  unfold stage
  split <;> first | exact .inl rfl | exact .inr rfl | (split <;> first | exact .inl rfl | exact .inr rfl)

variable (start : Nat) (d₀ : Disk)

def Logged (s : St P) (n : Nat) : Prop :=
  ∀ t b, t < n → s.log.lh[t]? = some b → s.disk (start + t + 1) = logical d₀ s b

def Progress (s : St P) (c : Committer P) : Phase → Micro → Prop
  | .writeLog tail, m => s.unpinned = 0 ∧ Logged start d₀ s (tail + m.late) ∧
      (m = .bwrite → (s.buf c.lbuf).data = logical d₀ s (s.log.lh.getD tail 0))
  | .writeHead, _ => s.unpinned = 0 ∧ Logged start d₀ s s.log.lh.length
  | .install tail, m => Logged start d₀ s s.log.lh.length ∧ s.unpinned = tail + m.late ∧
      (m = .bunpin → s.disk (s.log.lh.getD tail 0) = logical d₀ s (s.log.lh.getD tail 0))
  | .eraseHead, _ => s.log.lh = [] ∧ s.unpinned = 0

def InRange (s : St P) : Phase → Micro → Prop
  | .writeLog tail, .test | .install tail, .test => tail ≤ s.log.lh.length
  | .writeLog tail, _ | .install tail, _ => tail < s.log.lh.length
  | _, _ => True

/-- What `commit` has of its buffer `r`. -/
abbrev due (lh : List Nat) (ph : Phase) (m : Micro) (r : Reg) : Use := stage ph (blockOf start lh ph r) m r

structure AtBody (s : St P) (c : Committer P) (ph : Phase) (m : Micro) : Prop where
  legal : Legal ph m
  regs : ∀ r, due start s.log.lh ph m r ≠ .idle → s.use c.p (c.reg r) = due start s.log.lh ph m r
  range : InRange s ph m
  prog : Progress start d₀ s c ph m

def PcOk (s : St P) (c : Committer P) : Prop :=
  match c.pc with
  | .start => s.unpinned = 0
  | .body ph m => AtBody start d₀ s c ph m
  | .clear => s.unpinned = s.log.lh.length
  | .fin => s.log.lh = [] ∧ s.unpinned = 0

structure Quiet (s : St P) : Prop where
  idle : s.commit = none → s.log.committing = false ∧ s.unpinned = 0
  busy : ∀ c, s.commit = some c → s.log.committing = true ∧ s.log.outstanding = 0 ∧ s.pinning = none ∧ PcOk start d₀ s c

structure Inv [Fintype P] (s : St P) : Prop where
  core : Core start d₀ s
  quiet : Quiet start d₀ s

/-! ## What a call does -/

structure Rest (s t : St P) : Prop where
  disk : t.disk = s.disk
  log : t.log = s.log
  hist : t.hist = s.hist
  unpinned : t.unpinned = s.unpinned
  pinning : t.pinning = s.pinning
  commit : t.commit = s.commit
  panic : t.panic = s.panic

section Calls

variable {s t : St P} {p : P} {i : Idx} {b : Nat}

/-- A call of `p` on buffer `i`, which it has as far as `u` and then as far as `u'`. -/
structure Call (s t : St P) (p : P) (i : Idx) (u u' : Use) : Prop where
  was : s.use p i = u
  move : ∀ c, Move start d₀ s { t with commit := c }
  use : t.use = upd2 s.use p i u'
  /-- Only who holds the buffer changes its contents. -/
  data : ∀ j, (t.buf j).data = (s.buf j).data ∨ j = i ∧ u.held = true
  rest : Rest s t

theorem callAcquire_ok (h : callAcquire s p i = some t) : ∃ b, Call start d₀ s t p i (.waiting b) (.locked b) := by
  unfold callAcquire at h
  split at h
  · rename_i b' hu hl
    cases h
    exact ⟨b', hu, fun c => .acquire p i b' c hu hl, rfl, fun _ => .inl rfl, ⟨rfl, rfl, rfl, rfl, rfl, rfl, rfl⟩⟩
  · cases h

theorem callFill_ok (h : callFill s p i = some t) : ∃ b, Call start d₀ s t p i (.locked b) (.holding b false) := by
  unfold callFill at h
  split at h
  · rename_i b' hu
    cases h
    unfold fill
    split
    · rename_i hv
      exact ⟨b', hu, fun c => .keep p i b' c hu hv, rfl, fun _ => .inl rfl, ⟨rfl, rfl, rfl, rfl, rfl, rfl, rfl⟩⟩
    · rename_i hv
      refine ⟨b', hu, fun c => .fill p i b' c hu (by simpa using hv), rfl, fun j => ?_,
        ⟨rfl, rfl, rfl, rfl, rfl, rfl, rfl⟩⟩
      by_cases hj : j = i
      · exact .inr ⟨hj, rfl⟩
      · exact .inl (congrArg Buf.data (upd_ne _ _ hj))
  · cases h

theorem callRelease_ok (h : callRelease s p i = some t) :
    ∃ b, Call start d₀ s t p i (.holding b false) (.releasing b) := by
  unfold callRelease at h
  split at h
  · rename_i b' hu
    cases h
    exact ⟨b', hu, fun c => .release p i b' c hu, rfl, fun _ => .inl rfl, ⟨rfl, rfl, rfl, rfl, rfl, rfl, rfl⟩⟩
  · cases h

theorem callUnref_ok (h : callUnref s p i = some t) : ∃ b, Call start d₀ s t p i (.releasing b) .idle := by
  unfold callUnref at h
  split at h
  · rename_i b' hu
    cases h
    unfold unref
    dsimp only
    split
    · exact ⟨b', hu, fun c => .unref p i b' _ c hu (.inr rfl), rfl, fun j => .inl (buf_refcnt s.buf i _ j).2.2.2,
        ⟨rfl, rfl, rfl, rfl, rfl, rfl, rfl⟩⟩
    · exact ⟨b', hu, fun c => .unref p i b' _ c hu (.inl rfl), rfl, fun j => .inl (buf_refcnt s.buf i _ j).2.2.2,
        ⟨rfl, rfl, rfl, rfl, rfl, rfl, rfl⟩⟩
  · cases h

variable {start d₀} [Fintype P]

omit [DecidableEq P] in
theorem recent_all (hc : Core start d₀ s) (j : Idx) : j ∈ recent s := by
  obtain ⟨l, h1, h2, h3⟩ := hc.ring
  have hlen : l.length ≤ NBUF := by simpa using h2.length_le_card
  unfold recent
  rw [Links.walk_next h1 hlen]
  exact h3 j

theorem callBget_ok (hc : Core start d₀ s) (h : callBget s p b = .ok (some (i, t))) :
    Call start d₀ s t p i .idle (.waiting b) := by
  unfold callBget at h
  cases hb : bget s ROOTDEV b with
  | error e => rw [hb] at h; cases h
  | ok x =>
    obtain ⟨i', t'⟩ := x
    rw [hb] at h
    simp only [Except.ok.injEq] at h
    split at h
    · rename_i hidle
      cases h
      unfold bget at hb
      split at hb
      · rename_i hf
        cases hb
        have hcache : Caches (s.buf i) b := by simpa [Caches] using List.find?_some hf
        exact ⟨hidle, fun c => .hit p i b c hcache hidle, rfl, fun j => .inl (buf_refcnt s.buf i _ j).2.2.2,
          ⟨rfl, rfl, rfl, rfl, rfl, rfl, rfl⟩⟩
      · rename_i hf
        split at hb
        · rename_i hz
          cases hb
          have hz' : (s.buf i).refcnt = 0 := by simpa using List.find?_some hz
          have hno : ∀ j, ¬ Caches (s.buf j) b := fun j hj =>
            absurd (List.find?_eq_none.mp hf j (recent_all hc j)) (by simpa [Caches] using hj)
          refine ⟨hidle, fun c => .recycle p i b c hno hz', rfl, fun j => .inl ?_, ⟨rfl, rfl, rfl, rfl, rfl, rfl, rfl⟩⟩
          by_cases hj : j = i
          · simp only [setUse, setBuf, hj, upd_same]
          · simp only [setUse, setBuf, upd_ne _ _ hj]
        · cases hb
    · cases h

/-! ## Steps of the other processes -/

variable {c : Committer P}

omit [DecidableEq P] [Fintype P] in
/-- What `commit` knows depends only on what no other process changes meanwhile. -/
theorem pcOk_frame (h : PcOk start d₀ s c) (hl : t.log.lh = s.log.lh) (hu : t.unpinned = s.unpinned)
    (hd : t.disk = s.disk) (hh : t.hist = s.hist) (huse : t.use c.p = s.use c.p)
    (hdata : ∀ i, (s.use c.p i).held = true → (t.buf i).data = (s.buf i).data) : PcOk start d₀ t c := by
  have hlog : logical d₀ t = logical d₀ s := logical_congr hh
  have hlogged : ∀ n, Logged start d₀ s n → Logged start d₀ t n := fun n h => by
    unfold Logged; rw [hl, hd, hlog]; exact h
  unfold PcOk at h ⊢
  split
  · rename_i hpc; simp only [hpc] at h; rw [hu]; exact h
  · rename_i ph m hpc
    simp only [hpc] at h
    refine ⟨h.legal, fun r => ?_, ?_, ?_⟩
    · rw [hl, huse]; exact h.regs r
    · have := h.range
      unfold InRange at this ⊢
      rw [hl]; exact this
    · have hp := h.prog
      cases ph with
      | writeLog tail =>
        obtain ⟨h1, h2, h3⟩ := hp
        refine ⟨hu.trans h1, hlogged _ h2, fun hm => ?_⟩
        have hheld : (s.use c.p c.lbuf).held = true := by
          have h4 := h.regs .log
          rw [hm] at h4
          have h5 : s.use c.p c.lbuf = _ := h4 (by exact Use.noConfusion)
          rw [h5]; rfl
        rw [hdata _ hheld, hl, hlog]; exact h3 hm
      | writeHead =>
        obtain ⟨h1, h2⟩ := hp
        exact ⟨hu.trans h1, hl ▸ hlogged _ h2⟩
      | install tail =>
        obtain ⟨h1, h2, h3⟩ := hp
        refine ⟨hl ▸ hlogged _ h1, hu.trans h2, fun hm => ?_⟩
        rw [hl, hd, hlog]; exact h3 hm
      | eraseHead =>
        obtain ⟨h1, h2⟩ := hp
        exact ⟨hl.trans h1, hu.trans h2⟩
  · rename_i hpc; simp only [hpc] at h; rw [hu, hl]; exact h
  · rename_i hpc; simp only [hpc] at h; rw [hu, hl]; exact h

omit [DecidableEq P] [Fintype P] in
theorem client_ne (hp : client s p) (hc : s.commit = some c) : c.p ≠ p := hp c hc

variable {u : Use} {c' : Committer P} {r : Reg} {tail : Nat}

omit [Fintype P] in
theorem use_other (hne : c.p ≠ p) : upd2 s.use p i u c.p = s.use c.p := by
  funext j; exact upd2_ne _ _ fun h => hne h.1

omit [Fintype P] in
/-- A step by a process other than the committer. -/
theorem quiet_call (hq : Quiet start d₀ s) (hr : Rest s t) (hp : client s p) (he : t.use = upd2 s.use p i u)
    (hd : ∀ q, q ≠ p → ∀ j, (s.use q j).held = true → (t.buf j).data = (s.buf j).data) : Quiet start d₀ t := by
  refine ⟨fun hc => ?_, fun c hc => ?_⟩
  · rw [hr.log, hr.unpinned]; exact hq.idle (hr.commit ▸ hc)
  · rw [hr.commit] at hc
    obtain ⟨h1, h2, h3, h4⟩ := hq.busy c hc
    have hne := client_ne hp hc
    rw [hr.log, hr.pinning]
    exact ⟨h1, h2, h3, pcOk_frame h4 (by rw [hr.log]) hr.unpinned hr.disk hr.hist
      (by rw [he]; exact use_other hne) (hd c.p hne)⟩

omit [DecidableEq P] in
/-- A buffer another process holds is not the one `p` holds. -/
theorem held_ne (hc : Core start d₀ s) (hp : (s.use p i).held = true) {q : P} (hq : q ≠ p) {j : Idx}
    (hj : (s.use q j).held = true) : j ≠ i := fun e => hq (held_unique hc hj (e ▸ hp))

section

variable (h : Inv start d₀ s)

include h

theorem inv_panic (x : Panic) : Inv start d₀ { s with panic := some x } := by
  refine ⟨core_move h.core (.panic x), h.quiet.idle, fun c hc => ?_⟩
  obtain ⟨h1, h2, h3, h4⟩ := h.quiet.busy c hc
  exact ⟨h1, h2, h3, pcOk_frame h4 rfl rfl rfl rfl rfl fun _ _ => rfl⟩

theorem inv_called {u u' : Use} (hp : client s p) (hcall : Call start d₀ s t p i u u') : Inv start d₀ t := by
  refine ⟨core_move h.core (hcall.move t.commit), quiet_call h.quiet hcall.rest hp hcall.use fun q hq j hj => ?_⟩
  refine (hcall.data j).resolve_right fun ⟨e, hheld⟩ => ?_
  exact held_ne h.core (by rw [hcall.was]; exact hheld) hq hj e

theorem inv_bget (p : P) (b : Nat) : Inv start d₀ (raw start s (.bget p b)) := by
  simp only [raw]
  split
  · rename_i hp
    split
    · rename_i i t ht
      exact inv_called h hp.1 (callBget_ok h.core ht)
    · exact h
    · exact inv_panic h _
  · exact h

/-- The calls a client makes on a buffer it uses. -/
theorem inv_call (hp : client s p) {o : Option (St P)} {f g : Nat → Use}
    (ho : ∀ t, o = some t → ∃ b, Call start d₀ s t p i (f b) (g b)) : Inv start d₀ (o.getD s) := by
  cases o with
  | none => exact h
  | some t =>
    obtain ⟨b, hcall⟩ := ho t rfl
    exact inv_called h hp hcall

theorem inv_acquire (p : P) (i : Idx) : Inv start d₀ (raw start s (.acquiresleep p i)) := by
  simp only [raw]
  split
  · exact inv_call h ‹_› fun t => callAcquire_ok start d₀
  · exact h

theorem inv_fill (p : P) (i : Idx) : Inv start d₀ (raw start s (.fill p i)) := by
  simp only [raw]
  split
  · exact inv_call h ‹_› fun t => callFill_ok start d₀
  · exact h

theorem inv_release (p : P) (i : Idx) : Inv start d₀ (raw start s (.releasesleep p i)) := by
  simp only [raw]
  split
  · split
    · exact inv_call h ‹_› fun t => callRelease_ok start d₀
    · exact inv_panic h _
  · exact h

theorem inv_unref (p : P) (i : Idx) : Inv start d₀ (raw start s (.unref p i)) := by
  simp only [raw]
  split
  · exact inv_call h ‹_› fun t => callUnref_ok start d₀
  · exact h

theorem inv_modify (p : P) (i : Idx) (d : Block) : Inv start d₀ (raw start s (.modify p i d)) := by
  simp only [raw]
  split
  · rename_i b k hu
    split
    · rename_i hp
      have hm : Move start d₀ s _ := .put p i b k true d s.commit hu (.inl rfl)
      have hheld : (s.use p i).held = true := by rw [hu]; rfl
      refine ⟨core_move h.core hm, quiet_call h.quiet ⟨rfl, rfl, rfl, rfl, rfl, rfl, rfl⟩ hp.1 rfl fun q hq j hj => ?_⟩
      simp only [setUse, setData, setBuf, upd_ne _ _ (held_ne h.core hheld hq hj)]
    · exact h
  · exact h

omit [DecidableEq P] in
/-- While a commit runs `log_write` panics, so one that goes through finds none. -/
theorem logWrite_idle {b : Nat} {l : LogSt} (hl : logWrite s.log b = .ok l) :
    s.commit = none ∧ s.log.lh.length < LOGBLOCKS := by
  unfold logWrite at hl
  split at hl
  · cases hl
  rename_i h1
  split at hl
  · cases hl
  rename_i h2
  refine ⟨?_, by omega⟩
  cases hc : s.commit with
  | none => rfl
  | some c =>
    have := (h.quiet.busy c hc).2.1
    omega

theorem inv_logWrite (p : P) (i : Idx) : Inv start d₀ (raw start s (.logWrite p i)) := by
  simp only [raw]
  split
  · rename_i b k hu hpin
    split
    · rename_i hp
      have hb := (h.core.ident.asked p i b (by rw [hu]; rfl)).2
      unfold logWriteAt
      split
      · exact inv_panic h _
      rename_i l hl
      obtain ⟨hnone, hlen⟩ := logWrite_idle h hl
      have h0 := (h.quiet.idle hnone).2
      split
      · rename_i hm
        exact ⟨core_move h.core (.absorb p i b k hu hp.2 (hb ▸ hm) h0), h.quiet.idle,
          fun c hc => absurd (hnone.symm.trans hc) (by simp)⟩
      · rename_i hm
        exact ⟨core_move h.core (.pin p i b k hu hp.2 (hb ▸ hm) h0 hlen hpin), h.quiet.idle,
          fun c hc => absurd (hnone.symm.trans hc) (by simp)⟩
    · exact h
  · exact h

theorem inv_listed : Inv start d₀ (raw start s .listed) := by
  simp only [raw]
  split
  · rename_i q i hp
    refine ⟨core_move h.core (.list q i hp), h.quiet.idle, fun c hc => ?_⟩
    have := (h.quiet.busy c hc).2.2.1
    rw [hp] at this; cases this
  · exact h

omit [DecidableEq P] in
theorem no_commit (hc : s.log.committing = false) : s.commit = none :=
  Option.eq_none_iff_forall_ne_some.mpr fun c hs => by
    have := (h.quiet.busy c hs).1
    rw [hc] at this
    cases this

theorem inv_beginOp : Inv start d₀ (raw start s .beginOp) := by
  simp only [raw]
  split
  · cases hb : beginOp s.log with
    | none => exact h
    | some l =>
      have ⟨hc, hl⟩ : s.log.committing = false ∧ l.lh = s.log.lh ∧ l.committing = s.log.committing := by
        unfold beginOp at hb
        split at hb
        · cases hb
        · rename_i h1
          split at hb
          · cases hb
          · cases hb; exact ⟨by simpa using h1, rfl, rfl⟩
      exact ⟨core_move h.core (.ctl l s.commit hl.1), fun hn => ⟨hl.2.trans hc, (h.quiet.idle hn).2⟩,
        fun c hn => absurd ((no_commit h hc).symm.trans hn) (by simp)⟩
  · exact h

theorem inv_endOp (p : P) : Inv start d₀ (raw start s (.endOp p)) := by
  simp only [raw]
  split
  · rename_i hp
    have hcases : (∃ e, endOp s.log = .error e) ∨
        s.log.committing = false ∧ ∃ n : Int, (n = 0 ∧ endOp s.log = .ok (⟨n, true, s.log.lh⟩, true)) ∨
          endOp s.log = .ok (⟨n, false, s.log.lh⟩, false) := by
      unfold endOp
      dsimp only
      split
      · exact .inl ⟨_, rfl⟩
      rename_i h1
      have h1' : s.log.committing = false := by simpa using h1
      refine .inr ⟨h1', s.log.outstanding - 1, ?_⟩
      split
      · rename_i h2; exact .inl ⟨h2, rfl⟩
      · exact .inr (by rw [h1'])
    rcases hcases with ⟨e, he⟩ | ⟨hc, n, ⟨hn, he⟩ | he⟩
    · simp only [he]; exact inv_panic h _
    · simp only [he]
      refine ⟨core_move h.core (.ctl _ _ rfl), (fun hn => by cases hn), fun c hcm => ?_⟩
      cases hcm
      exact ⟨rfl, hn, hp.2, (h.quiet.idle (no_commit h hc)).2⟩
    · simp only [he]
      exact ⟨core_move h.core (.ctl _ s.commit rfl), fun hn => ⟨rfl, (h.quiet.idle hn).2⟩,
        fun c hn => absurd ((no_commit h hc).symm.trans hn) (by simp)⟩
  · exact h

end

end Calls

end Xv6.Bio
