/-
  Xv6.Bio.Room — the buffers `commit` needs (`kernel/bio.c`: `bget`; `kernel/log.c`:
  `write_log`, `write_head`, `install_trans`, `commit`; `kernel/param.h`).

  Every block of a transaction stays pinned in the cache until `install_trans` has written
  it home. The home blocks `commit` asks for are therefore cached, but the blocks of the log
  are not: each needs a buffer that is free. There are NBUF buffers, and a transaction may
  have LOGBLOCKS blocks, which is as many. So with no other process in the cache, `commit`
  goes through exactly when fewer than NBUF blocks were logged (`commit_room`).
-/

import Xv6.Bio.CacheProofs

namespace Xv6.Bio

open Lib Log

variable {P : Type} {start : Nat} {d₀ : Disk} {s t : St P} {c c' : Committer P} {ph : Phase} {m : Micro}

/-! ## The calls that are left -/

def Micro.left : Phase → Micro → Nat
  | _, .test => 13
  | _, .bget .log => 12
  | _, .acquiresleep .log => 11
  | _, .fill .log => 10
  | _, .bget .home => 9
  | _, .acquiresleep .home => 8
  | _, .fill .home => 7
  | _, .copy => 6
  | _, .bwrite => 5
  | _, .bunpin => 4
  | .install _, .releasesleep .log => 3
  | .install _, .unref .log => 2
  | .install _, .releasesleep .home => 1
  | .install _, .unref .home => 0
  | _, .releasesleep .home => 3
  | _, .unref .home => 2
  | _, .releasesleep .log => 1
  | _, .unref .log => 0

/-- A bound on the calls `commit` of `n` blocks has left to make. -/
def Pc.left (n : Nat) : Pc → Nat
  | .start => 28 * n + 80
  | .body (.writeLog tail) m => 14 * (n - tail) + 14 * n + 60 + m.left (.writeLog tail)
  | .body .writeHead m => 14 * n + 40 + m.left .writeHead
  | .body (.install tail) m => 14 * (n - tail) + 20 + m.left (.install tail)
  | .clear => 19
  | .body .eraseHead m => 2 + m.left .eraseHead
  | .fin => 1

theorem left_next (h : AtBody start d₀ s c ph m) (hm : m ≠ .test) :
    (m.next ph).left s.log.lh.length < (Pc.body ph m).left s.log.lh.length := by
  have hr := h.range
  cases ph <;> cases m <;> first | exact absurd rfl hm | exact absurd hleg id | skip
  all_goals simp only [InRange] at hr
  all_goals first | (simp only [Micro.next, Pc.left, Micro.left]; omega) | skip
  all_goals
    rename_i r
    cases r <;> first | exact absurd hleg id | (simp only [Micro.next, Pc.left, Micro.left]; omega)

theorem left_test (h : AtBody start d₀ s c ph .test) :
    (testPc s.log.lh ph).left s.log.lh.length < (Pc.body ph .test).left s.log.lh.length := by
  cases ph with
  | writeLog tail | install tail =>
    by_cases hlt : tail < s.log.lh.length
    · simp only [testPc, if_pos hlt, Pc.left, Micro.left]
      omega
    · simp only [testPc, if_neg hlt, Pc.left, Micro.left]
      omega
  | writeHead | eraseHead => simp only [testPc, Pc.left, Micro.left]; omega

/-! ## `commit` alone in the cache -/

/-- A buffer of `commit`'s that it has asked for and not given back. -/
def Pc.uses : Pc → Reg → Prop
  | .body ph m, r => stage ph 0 m r ≠ .idle
  | _, _ => False

/-- Only the committing process uses buffers, and only the ones its program has got. -/
def Alone (s : St P) (c : Committer P) : Prop := ∀ p i, s.use p i ≠ .idle → p = c.p ∧ ∃ r, c.pc.uses r ∧ i = c.reg r

/-- The home block of the current iteration has not been unpinned yet. -/
theorem home_pinned (hq : s.pinning = none) (h : AtBody start d₀ s c ph (.bget .home)) :
    blockOf start s.log.lh ph .home ∈ pinned s := by
  have hleg := h.legal
  have hr := h.range
  have hp := h.prog
  have hmem (l : List Nat) (k : Nat) (hk : k < l.length) (u : Nat) (hu : u ≤ k) : l.getD k 0 ∈ l.drop u := by
    rw [List.getD_eq_getElem?_getD, List.getElem?_eq_getElem hk]
    refine List.mem_iff_getElem.mpr ⟨k - u, by rw [List.length_drop]; omega, ?_⟩
    rw [List.getElem_drop]
    congr 1
    omega
  rw [pinned_none hq]
  cases ph with
  | writeLog tail => exact hmem _ _ hr _ (by rw [hp.1]; exact Nat.zero_le _)
  | install tail => exact hmem _ _ hr _ (Nat.le_of_eq hp.2.1)
  | writeHead | eraseHead => exact absurd hleg id

section

variable [Fintype P]

theorem oldest_all (hc : Core start d₀ s) (j : Idx) : j ∈ oldest s := by
  obtain ⟨l, h1, h2, h3⟩ := hc.ring
  have hlen : l.length ≤ NBUF := by simpa using h2.length_le_card
  unfold oldest
  rw [Links.walk_prev h1 hlen]
  exact List.mem_reverse.mpr (h3 j)

/-- Some buffer's block is not pinned, if there are fewer pins than buffers. -/
theorem exists_unpinned (hc : Core start d₀ s) (h : (pinned s).length < NBUF) : ∃ i, pins s i = 0 := by
  by_contra hn
  have hpin (i : Idx) : (s.buf i).dev = ROOTDEV ∧ (s.buf i).blockno ∈ pinned s := by
    by_contra hi
    exact hn ⟨i, if_neg hi⟩
  have hinj : Function.Injective fun i => (s.buf i).blockno := fun i j e =>
    hc.ident.uniq i j _ ⟨(hpin i).1, rfl⟩ ⟨(hpin j).1, e.symm⟩
  have hsub : (List.finRange NBUF).map (fun i => (s.buf i).blockno) ⊆ pinned s := by
    intro b hb
    obtain ⟨i, -, rfl⟩ := List.mem_map.mp hb
    exact (hpin i).2
  have hle := (List.subperm_of_subset ((List.nodup_finRange NBUF).map hinj) hsub).length_le
  rw [List.length_map, List.length_finRange] at hle
  omega

/-- With NBUF blocks pinned every buffer is taken, and by a home block. -/
theorem all_pinned (hc : Core start d₀ s) (hq : s.pinning = none) (hu : s.unpinned = 0)
    (hfull : NBUF ≤ s.log.lh.length) (i : Idx) :
    ∃ b ∈ s.log.lh, Caches (s.buf i) b := by
  have hpin : pinned s = s.log.lh := by rw [pinned_none hq, hu, List.drop_zero]
  have hcached (b : Nat) (hb : b ∈ s.log.lh) : ∃ i, Caches (s.buf i) b :=
    (hc.data.cached b (hpin ▸ hb)).imp fun _ h => h.1
  have : Nonempty Idx := ⟨i⟩
  choose! f hf using hcached
  -- the buffers of the blocks are NBUF many, so all of them
  have hnd : (s.log.lh.map f).Nodup := hc.listed.nodup.map_on fun a ha b hb e => by
    have h1 := (hf a ha).2
    have h2 := (hf b hb).2
    rw [e] at h1
    exact h1.symm.trans h2
  have hmem : i ∈ s.log.lh.map f := by
    by_contra hi
    have hle := (List.nodup_cons.mpr ⟨hi, hnd⟩).length_le_card
    rw [List.length_cons, List.length_map, Fintype.card_fin] at hle
    omega
  obtain ⟨b, hb, rfl⟩ := List.mem_map.mp hmem
  exact ⟨b, hb, hf b hb⟩

theorem bget_full (hc : Core start d₀ s) (hq : s.pinning = none) (hu : s.unpinned = 0)
    (hfull : NBUF ≤ s.log.lh.length) {b : Nat} (hb : ¬ Home start b) :
    bget s ROOTDEV b = .error .noBuffers := by
  have hall := all_pinned hc hq hu hfull
  have hmiss : (recent s).find? (fun i => (s.buf i).dev = ROOTDEV ∧ (s.buf i).blockno = b) = none := by
    refine List.find?_eq_none.mpr fun i _ => ?_
    obtain ⟨b', hb', hi⟩ := hall i
    have hne : b' ≠ b := fun e => hb (e ▸ hc.listed.home b' hb')
    simp only [hi.1, hi.2, hne, and_false, decide_false, Bool.false_eq_true, not_false_eq_true]
  have hbusy : (oldest s).find? (fun i => (s.buf i).refcnt = 0) = none := by
    refine List.find?_eq_none.mpr fun i _ => ?_
    obtain ⟨b', hb', hi⟩ := hall i
    have hp : pins s i = 1 := if_pos ⟨hi.1, by rw [hi.2, pinned_none hq, hu]; exact hb'⟩
    have hcount := hc.count i
    simp only [decide_eq_true_eq]
    omega
  unfold bget
  rw [hmiss]
  rw [hbusy]

end

variable [DecidableEq P]

theorem callBget_some {p : P} {b : Nat} {i : Idx} (h : bget s ROOTDEV b = .ok (i, t)) (hu : s.use p i = .idle) :
    callBget s p b = .ok (some (i, setUse t p i (.waiting b))) := by
  unfold callBget
  rw [h]
  dsimp only
  rw [if_pos hu]

theorem step_commit (hp : s.panic = none) (hcm : s.commit = some c) : step start s .commit = commitStep start s c := by
  unfold step
  simp only [hp, Option.isSome_none, Bool.false_eq_true, if_false, raw, hcm]

section Steps

variable [Fintype P]

/-- With nobody in the cache and a block that is not pinned, `bget` has a buffer to give. -/
theorem bget_idle (hc : Core start d₀ s) (huse : ∀ p i, s.use p i = .idle) (h : (pinned s).length < NBUF)
    (p : P) (b : Nat) :
    ∃ i t, callBget s p b = .ok (some (i, t)) := by
  have hget : ∃ i t, bget s ROOTDEV b = .ok (i, t) := by
    unfold bget
    split
    · exact ⟨_, _, rfl⟩
    split
    · exact ⟨_, _, rfl⟩
    · rename_i hnone
      obtain ⟨i, hi⟩ := exists_unpinned hc h
      have husers : users s.use i = 0 := total_eq_zero.mpr fun q => by rw [huse]; rfl
      have hcount := hc.count i
      exact absurd (List.find?_eq_none.mp hnone i (oldest_all hc i)) (by simp; omega)
  obtain ⟨i, t, hit⟩ := hget
  exact ⟨i, _, callBget_some hit (huse p i)⟩

theorem bget_pinned (hc : Core start d₀ s) {b : Nat} (h : b ∈ pinned s) {p : P}
    (huse : ∀ i, Caches (s.buf i) b → s.use p i = .idle) :
    ∃ i t, callBget s p b = .ok (some (i, t)) := by
  obtain ⟨j, hj, -⟩ := hc.data.cached b h
  cases hf : (recent s).find? fun i => (s.buf i).dev = ROOTDEV ∧ (s.buf i).blockno = b with
  | none => exact absurd (List.find?_eq_none.mp hf j (recent_all hc j)) (by simpa [Caches] using hj)
  | some i =>
    have hi : Caches (s.buf i) b := by simpa [Caches] using List.find?_some hf
    have hget : bget s ROOTDEV b = .ok (i, setBuf s i { s.buf i with refcnt := (s.buf i).refcnt + 1 }) := by
      unfold bget
      rw [hf]
    exact ⟨i, _, callBget_some hget (huse i hi)⟩

/-- No call of `commit` waits, and none panics. -/
theorem micro_some (hc : Core start d₀ s) (hq : s.pinning = none) (h : AtBody start d₀ s c ph m) (ha : Alone s c)
    (hpc : c.pc = .body ph m) (hroom : s.log.lh.length < NBUF) : ∃ t c', micro start s c ph m = .ok (some (t, c')) := by
  have hmine {p : P} {i : Idx} (hu : s.use p i ≠ .idle) : p = c.p ∧ ∃ r, stage ph 0 m r ≠ .idle ∧ i = c.reg r := by
    have := ha p i hu
    rw [hpc] at this
    exact this
  cases m with
  | test => exact ⟨_, _, rfl⟩
  | bget r =>
    have hget : ∃ i t, callBget s c.p (blockOf start s.log.lh ph r) = .ok (some (i, t)) := by
      cases r with
      | log =>
        refine bget_idle hc (fun p i => ?_) ?_ _ _
        · by_contra hu
          obtain ⟨-, r, hr, -⟩ := hmine hu
          exact hr rfl
        · rw [pinned_none hq, List.length_drop]
          omega
      | home =>
        refine bget_pinned hc (home_pinned hq h) fun i hi => ?_
        by_contra hu
        obtain ⟨-, r, hr, rfl⟩ := hmine hu
        -- the buffer in use is the log's, which is for another block
        cases r with
        | home => exact hr rfl
        | log =>
          have hlog := hc.ident.asked c.p _ _
            (show (s.use c.p (c.reg .log)).block = _ by rw [h.regs .log Use.noConfusion]; rfl)
          have hph : ph ≠ .writeHead ∧ ph ≠ .eraseHead := by
            have hleg := h.legal
            constructor <;> intro e <;> rw [e] at hleg <;> exact hleg
          refine log_block hc h.range Micro.noConfusion ?_
          rw [← hlog.2, hi.2]
          exact (home_block hc h.range Micro.noConfusion hph).2
    obtain ⟨i, t, ht⟩ := hget
    exact ⟨t, c.setReg i r, by simp only [micro, ht]⟩
  | acquiresleep r =>
    have hu := use_before h rfl
    have hfree : s.lock (c.reg r) = none := by
      cases hl : s.lock (c.reg r) with
      | none => rfl
      | some q =>
        have hheld := (hc.lock q _).mp hl
        obtain ⟨rfl, -⟩ := hmine (p := q) (i := c.reg r) fun e => by rw [e] at hheld; cases hheld
        rw [hu] at hheld
        cases hheld
    exact ⟨_, c, by simp only [micro, callAcquire, hu, Micro.before, hfree]; rfl⟩
  | fill r => exact ⟨_, c, by simp only [micro, callFill, use_before h rfl, Micro.before]; rfl⟩
  | copy | bwrite => cases ph <;> exact ⟨_, _, rfl⟩
  | bunpin => exact ⟨_, _, rfl⟩
  | releasesleep r => exact ⟨_, c, by simp only [micro, callRelease, use_before h rfl, Micro.before]; rfl⟩
  | unref r => exact ⟨_, c, by simp only [micro, callUnref, use_before h rfl, Micro.before]; rfl⟩

theorem micro_panic (hc : Core start d₀ s) (ht : micro start s c ph m = .ok (some (t, c'))) : t.panic = s.panic := by
  cases m with
  | test | bunpin => cases ht; rfl
  | bget r =>
    simp only [micro] at ht
    split at ht <;> cases ht
    exact (callBget_ok hc ‹_›).rest.panic
  | copy | bwrite => cases ph <;> cases ht <;> rfl
  | acquiresleep r | fill r | releasesleep r | unref r =>
    obtain ⟨-, b, hcall⟩ := micro_call start d₀ rfl ht
    exact hcall.rest.panic

/-- One call changes how far `commit` is with one buffer. -/
theorem micro_use (hc : Core start d₀ s) (h : AtBody start d₀ s c ph m)
    (ht : micro start s c ph m = .ok (some (t, c'))) (hm : m ≠ .test) :
    c'.p = c.p ∧ ∃ r u, t.use = upd2 s.use c.p (c'.reg r) u ∧ (u ≠ .idle → (m.next ph).uses r) ∧
      ∀ r', stage ph 0 m r' ≠ .idle → c'.reg r' = c.reg r' ∧ (r' ≠ r → (m.next ph).uses r') := by
  have hleg := h.legal
  cases m with
  | test => exact absurd rfl hm
  | bget r =>
    simp only [micro] at ht
    split at ht <;> cases ht
    rename_i i hb
    have hu := (callBget_ok hc hb).use
    obtain ⟨h1, h2, h3⟩ := reg_setReg c i r
    refine ⟨h2, r, .waiting _, by rw [h1]; exact hu, fun _ => ?_, fun r' hr' => ?_⟩
    · cases r <;> exact Use.noConfusion
    · have hne : r' ≠ r := by
        intro e
        subst e
        cases r' <;> exact hr' rfl
      refine ⟨h3 r' hne, fun _ => ?_⟩
      cases r <;> cases r' <;> first | exact absurd rfl hne | exact hr'
  | acquiresleep r | fill r | releasesleep r | unref r =>
    obtain ⟨rfl, b, hcall⟩ := micro_call start d₀ rfl ht
    refine ⟨rfl, r, _, hcall.use, fun hu => ?_, fun r' hr' => ⟨rfl, fun hne => ?_⟩⟩
    · cases ph <;> cases r <;> first | exact absurd hleg id | exact absurd rfl hu | exact Use.noConfusion
    · cases ph <;> cases r <;> cases r' <;>
        first | exact absurd rfl hne | exact absurd rfl hr' | exact absurd hleg id | exact hr'
  | copy | bwrite =>
    cases ph with
    | install tail =>
      cases ht
      exact ⟨rfl, .home, _, (upd2_eq rfl).symm, fun _ => Use.noConfusion,
        fun r' hr' => ⟨rfl, fun _ => by cases r' <;> exact Use.noConfusion⟩⟩
    | _ =>
      cases ht
      refine ⟨rfl, .log, _, rfl, fun _ => Use.noConfusion, fun r' hr' => ⟨rfl, fun _ => ?_⟩⟩
      cases r' <;> first | exact Use.noConfusion | exact hr'
  | bunpin =>
    cases ph with
    | install tail =>
      cases ht
      exact ⟨rfl, .home, _, (upd2_eq rfl).symm, fun _ => Use.noConfusion,
        fun r' hr' => ⟨rfl, fun _ => by cases r' <;> exact Use.noConfusion⟩⟩
    | _ => exact absurd hleg id

theorem alone_micro (hc : Core start d₀ s) (h : AtBody start d₀ s c ph m) (ha : Alone s c) (hpc : c.pc = .body ph m)
    (ht : micro start s c ph m = .ok (some (t, c'))) (hm : m ≠ .test) : Alone t { c' with pc := m.next ph } := by
  obtain ⟨hp, r, u, huse, hnew, hold⟩ := micro_use hc h ht hm
  intro p i hpi
  have hreg (r : Reg) : Committer.reg { c' with pc := m.next ph } r = c'.reg r := by cases r <;> rfl
  rw [huse] at hpi
  by_cases e : p = c.p ∧ i = c'.reg r
  · rw [e.1, e.2, upd2_apply, if_pos ⟨rfl, rfl⟩] at hpi
    exact ⟨e.1.trans hp.symm, r, hnew hpi, e.2.trans (hreg r).symm⟩
  rw [upd2_ne _ _ e] at hpi
  obtain ⟨hmine, r', hr', hi⟩ := ha p i hpi
  rw [hpc] at hr'
  obtain ⟨hsame, hnext⟩ := hold r' hr'
  refine ⟨hmine.trans hp.symm, r', hnext fun he => e ⟨hmine, ?_⟩, ?_⟩
  · rw [hi, ← he, hsame]
  · rw [hi, hreg, hsame]

/-- A commit that has room, with no other process in the cache. -/
structure Roomy (start : Nat) (d₀ : Disk) (s : St P) : Prop where
  inv : Inv start d₀ s
  panic : s.panic = none
  alone : ∀ c, s.commit = some c → Alone s c
  room : s.log.lh.length < NBUF

/-- One step of `commit` keeps that, and is one step less to go. -/
theorem roomy_commit (h : Roomy start d₀ s) (hcm : s.commit = some c) :
    Roomy start d₀ (commitStep start s c) ∧
      ∀ c', (commitStep start s c).commit = some c' → c'.pc.left
        (commitStep start s c).log.lh.length < c.pc.left s.log.lh.length := by
  obtain ⟨-, -, hpin, hok⟩ := h.inv.quiet.busy c hcm
  have hinv := inv_commit h.inv hcm
  have ha := h.alone c hcm
  -- a step between calls, when no buffer is in use
  have hidle {t : St P} {pc : Pc} (hu : t.use = s.use) (hcm' : t.commit = some { c with pc := pc })
    (hno : ∀ r, ¬ c.pc.uses r) :
      ∀ c', t.commit = some c' → Alone t c' := by
    intro c' hc' p i hpi
    rw [hu] at hpi
    obtain ⟨-, r, hr, -⟩ := ha p i hpi
    exact absurd hr (hno r)
  unfold commitStep at hinv ⊢
  cases hpc : c.pc with
  | start =>
    simp only [hpc] at hinv ⊢
    refine ⟨⟨hinv, h.panic, hidle rfl rfl fun r hr => by rw [hpc] at hr; exact hr, h.room⟩, fun c' hc' => ?_⟩
    cases hc'
    split
    · simp only [Pc.left, Micro.left]
      omega
    · simp only [Pc.left]
      omega
  | body ph m =>
    rw [PcOk, hpc] at hok
    by_cases hm : m = .test
    · subst hm
      simp only [hpc] at hinv ⊢
      refine ⟨⟨hinv, h.panic, hidle rfl rfl fun r hr => by rw [hpc] at hr; exact hr rfl, h.room⟩, fun c' hc' => ?_⟩
      cases hc'
      exact left_test hok
    · obtain ⟨t, c', ht⟩ := micro_some h.inv.core hpin hok ha hpc h.room
      have hlog : t.log = s.log := (micro_ok h.inv.core hpin hok hm ht).2.2.1
      cases m with
      | test => exact absurd rfl hm
      | _ =>
        simp only [hpc, ht] at hinv ⊢
        refine ⟨⟨hinv, (micro_panic h.inv.core ht).trans h.panic, fun c'' hc'' => ?_, by rw [hlog]; exact h.room⟩,
          fun c'' hc'' => ?_⟩
        · cases hc''
          exact (alone_micro h.inv.core hok ha hpc ht hm : Alone t _)
        · cases hc''
          rw [hlog]
          exact left_next hok hm
  | clear =>
    simp only [hpc] at hinv ⊢
    refine ⟨⟨hinv, h.panic, hidle rfl rfl fun r hr => by rw [hpc] at hr; exact hr, ?_⟩, fun c' hc' => ?_⟩
    · show 0 < NBUF
      decide
    · cases hc'
      show 2 + 13 < 19
      decide
  | fin =>
    simp only [hpc] at hinv ⊢
    exact ⟨⟨hinv, h.panic, (fun c' hc' => by cases hc'), h.room⟩, fun c' hc' => by cases hc'⟩

theorem roomy_run (n : Nat) :
    ∀ {s : St P}, Roomy start d₀ s → Roomy start d₀ (run (step start) s (List.replicate n .commit)) := by
  induction n with
  | zero => intro s h; exact h
  | succ n ih =>
    intro s h
    refine ih ?_
    cases hcm : s.commit with
    | none =>
      unfold step
      simp only [h.panic, Option.isSome_none, Bool.false_eq_true, if_false, raw, hcm]
      exact h
    | some c =>
      rw [step_commit h.panic hcm]
      exact (roomy_commit h hcm).1

/-- `commit` comes to its end. -/
theorem roomy_ends :
    ∀ (k : Nat) {s : St P} {c : Committer P}, Roomy start d₀ s → s.commit = some c → c.pc.left s.log.lh.length = k →
    ∃ n, (run (step start) s (List.replicate n .commit)).commit = none := by
  intro k
  induction k using Nat.strongRecOn with
  | ind k ih =>
    intro s c h hcm hk
    obtain ⟨hnext, hless⟩ := roomy_commit h hcm
    have hstep := (step_commit h.panic hcm : step start s .commit = _)
    cases hc' : (commitStep start s c).commit with
    | none => exact ⟨1, by rw [List.replicate_one, run_cons, hstep]; exact hc'⟩
    | some c' =>
      obtain ⟨n, hn⟩ := ih _ (hk ▸ hless c' hc') hnext hc' rfl
      exact ⟨n + 1, by rw [List.replicate_succ, run_cons, hstep]; exact hn⟩

/-! ## A full log -/

/-- `write_log`'s first `bread`, with the log full. -/
theorem full_panics (h : Inv start d₀ s) (hcm : s.commit = some c) (hpc : c.pc = .start) (hp : s.panic = none)
    (hfull : NBUF ≤ s.log.lh.length) :
    ∀ n, (run (step start) s (List.replicate n .commit)).commit ≠ none ∧
      (2 < n → (run (step start) s (List.replicate n .commit)).panic = some .noBuffers) := by
  obtain ⟨-, -, hpin, hok⟩ := h.quiet.busy c hcm
  rw [PcOk, hpc] at hok
  have hpos : s.log.lh.length > 0 := Nat.lt_of_lt_of_le (by decide) hfull
  have h1 : step start s .commit = { s with commit := some { c with pc := .body (.writeLog 0) .test } } := by
    rw [step_commit hp hcm]
    simp only [commitStep, hpc, if_pos hpos]
  have h2 : step start { s with commit := some { c with pc := .body (.writeLog 0) .test } } .commit =
      { s with commit := some { c with pc := .body (.writeLog 0) (.bget .log) } } := by
    refine (step_commit (by exact hp) (by rfl)).trans ?_
    simp only [commitStep, testPc, if_pos hpos]
  have hget : bget { s with commit := some { c with pc := .body (.writeLog 0) (.bget .log) } } ROOTDEV (start + 0 + 1) =
      .error .noBuffers := by
    refine bget_full (core_move h.core (.ctl s.log (some _) rfl)) hpin hok hfull ?_
    have : 0 < LOGBLOCKS := by decide
    unfold Home
    omega
  have h3 : step start { s with commit := some { c with pc := .body (.writeLog 0) (.bget .log) } } .commit =
      { s with commit := some { c with pc := .body (.writeLog 0) (.bget .log) }, panic := some .noBuffers } := by
    refine (step_commit (by exact hp) (by rfl)).trans ?_
    simp only [commitStep, micro, callBget, blockOf, Phase.block, hget]
  -- a machine that has panicked stays as it is
  have hstay (k : Nat) {t : St P} (ht : t.panic.isSome) : run (step start) t (List.replicate k .commit) = t := by
    induction k with
    | zero => rfl
    | succ k ih =>
      rw [List.replicate_succ, run_cons]
      unfold step
      rw [if_pos ht]
      exact ih
  intro n
  have hn : n = 0 ∨ n = 1 ∨ n = 2 ∨ ∃ k, n = k + 3 := by
    by_cases h3 : 3 ≤ n
    · exact .inr (.inr (.inr ⟨n - 3, by omega⟩))
    · omega
  rcases hn with rfl | rfl | rfl | ⟨k, rfl⟩
  · exact ⟨by rw [List.replicate_zero, run_nil, hcm]; exact Option.some_ne_none _, fun hn => absurd hn (by decide)⟩
  · exact ⟨by rw [List.replicate_one, run_cons, h1]; exact Option.some_ne_none _, fun hn => absurd hn (by decide)⟩
  · exact ⟨by rw [List.replicate_succ, List.replicate_one, run_cons, run_cons, h1, h2]; exact Option.some_ne_none _,
      fun hn => absurd hn (by decide)⟩
  · rw [List.replicate_succ, List.replicate_succ, List.replicate_succ, run_cons, run_cons,
      run_cons, h1, h2, h3, hstay k rfl]
    exact ⟨Option.some_ne_none _, fun _ => rfl⟩

end Steps

/-- In every run, when `end_op` has found that it is the last and no process uses a buffer,
    `commit` reaches the panic in `bget` exactly if NBUF blocks were logged, and otherwise
    comes to its end. -/
theorem commit_room [Fintype P] (start : Nat) (s₀ : St P) (h : Fresh s₀) (es : List (Ev P)) (c : Committer P)
    (hcm : (run (step start) s₀ es).commit = some c) (hpc : c.pc = .start) (hp : (run (step start) s₀ es).panic = none)
    (hu : ∀ p i, (run (step start) s₀ es).use p i = .idle) :
    ((∃ n, (run (step start) (run (step start) s₀ es) (List.replicate n .commit)).panic = some .noBuffers) ↔
      NBUF ≤ (run (step start) s₀ es).log.lh.length) ∧
    ((∃ n, (run (step start) (run (step start) s₀ es) (List.replicate n .commit)).commit = none ∧
        (run (step start) (run (step start) s₀ es) (List.replicate n .commit)).panic = none) ↔
      (run (step start) s₀ es).log.lh.length < NBUF) := by
  have hi := inv_run start h es
  generalize run (step start) s₀ es = s at hi hcm hp hu ⊢
  have hroomy (hlt : s.log.lh.length < NBUF) : Roomy start s₀.disk s :=
    ⟨hi, hp, fun _ _ p i hpi => absurd (hu p i) hpi, hlt⟩
  refine ⟨⟨?_, fun hfull => ⟨3, (full_panics hi hcm hpc hp hfull 3).2 (by decide)⟩⟩, ?_, fun hlt => ?_⟩
  · intro hn
    obtain ⟨n, hn⟩ := hn
    by_contra hlt
    rw [(roomy_run n (hroomy (by omega))).panic] at hn
    cases hn
  · intro hn
    obtain ⟨n, hn, -⟩ := hn
    by_contra hfull
    exact (full_panics hi hcm hpc hp (by omega) n).1 hn
  · obtain ⟨n, hn⟩ := roomy_ends _ (hroomy hlt) hcm rfl
    exact ⟨n, hn, (roomy_run n (hroomy hlt)).panic⟩

/-! ## Three operations -/

inductive Third where
  | first
  | second
  | third
  deriving DecidableEq

instance : Fintype Third := ⟨{.first, .second, .third}, fun p => by cases p <;> decide⟩

/-- One process reads block `b` into buffer `i`, logs it and gives it back. -/
def logBlock (p : P) (b : Nat) (i : Idx) : List (Ev P) :=
  [.bget p b, .acquiresleep p i, .fill p i, .logWrite p i, .listed, .releasesleep p i, .unref p i]

/-- Which of the three logs the block in buffer `i`: each has MAXOPBLOCKS of them. -/
def Third.of (i : Idx) : Third :=
  if i.val < MAXOPBLOCKS then .first else if i.val < 2 * MAXOPBLOCKS then .second else .third

/-- Three operations, all that `begin_op` admits at a time, log the first `n` of the blocks
    100, 101, … between them and end. -/
def threeOps (n : Nat) : List (Ev Third) :=
  [.beginOp, .beginOp, .beginOp] ++
  ((List.finRange NBUF).take n).flatMap (fun i => logBlock (Third.of i) (100 + i.val) i) ++
  [.endOp .first, .endOp .second, .endOp .third]

def logWrites (p : P) (es : List (Ev P)) : Nat :=
  es.countP fun
    | .logWrite q _ => q = p
    | _ => false

def blank : Disk := fun _ => Bytes.zero

/-- Three operations that log MAXOPBLOCKS blocks each, and nobody in the cache: `commit`
    panics in its first `bread`. -/
theorem commit_no_buffers :
    (∀ p, logWrites p (threeOps NBUF) = MAXOPBLOCKS) ∧
    (run (step 2) (init blank : St Third) (threeOps NBUF)).panic = none ∧
    (∀ p i, (run (step 2) (init blank : St Third) (threeOps NBUF)).use p i = .idle) ∧
    (run (step 2) (run (step 2) (init blank : St Third) (threeOps NBUF)) (List.replicate 3 .commit)).panic =
      some .noBuffers := by
  decide +kernel

/-- One block less, and `commit` comes to its end. -/
theorem commit_room_one_less : ∃ n,
    (run (step 2) (run (step 2) (init blank : St Third) (threeOps 29)) (List.replicate n .commit)).commit = none ∧
    (run (step 2) (run (step 2) (init blank : St Third) (threeOps 29)) (List.replicate n .commit)).panic = none := by
  have hpc : (run (step 2) (init blank : St Third) (threeOps 29)).commit.map (·.pc) = some .start := by decide +kernel
  obtain ⟨c, hcm, hpc⟩ := Option.map_eq_some_iff.mp hpc
  exact (commit_room 2 _ (fresh_init blank) (threeOps 29) c hcm hpc (by decide +kernel) (by decide +kernel)).2.mpr
    (by decide +kernel)

end Xv6.Bio
