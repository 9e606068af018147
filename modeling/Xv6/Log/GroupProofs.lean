/-
  Xv6.Log.GroupProofs — group commit never splits an operation and never strands a waiter
  (see `Xv6.Log.Group`).
-/

import Xv6.Log.Group

namespace Xv6.Log.Group

open Lib

variable {P : Type}

/-! ## What a step can do -/

section

variable [DecidableEq P]

/-- The next stage of `commit`, for the stages that only move on. -/
inductive Next (lh : List Nat) : Pc → Pc → Prop
  | some : lh ≠ [] → Next lh .start (.writeLog 0)
  | none : lh = [] → Next lh .start .fin
  | log (t : Nat) : t < lh.length → Next lh (.writeLog t) (.writeLog (t + 1))
  | logged (t : Nat) : lh.length ≤ t → Next lh (.writeLog t) .writeHead
  | head : Next lh .writeHead (.install 0)
  | installed (t : Nat) : lh.length ≤ t → Next lh (.install t) .clear
  | erased : Next lh .eraseHead .fin

/-- Room for one more operation: `begin_op` admits. -/
def Room (l : LogSt) : Prop := l.committing = false ∧ l.lh.length + (l.outstanding + 1) * MAXOPBLOCKS ≤ LOGBLOCKS

inductive Move (s : St P) : Ev P → St P → Prop
  | stay (e : Ev P) : Move s e s
  | enter (p : P) : s.proc p = .idle ∨ s.proc p = .woken → Room s.log →
      Move s (.beginOp p) (setProc
        { s with log := { s.log with outstanding := s.log.outstanding + 1 }, nextOp := s.nextOp + 1 } p
        (.inOp s.nextOp []))
  | sleep (p : P) : s.proc p = .idle ∨ s.proc p = .woken → ¬ Room s.log → Move s (.beginOp p) (setProc s p .asleep)
  | wake (p : P) : s.proc p = .asleep → Move s (.kkill p) (setProc s p .woken)
  | absorb (p : P) (o : Nat) (ws : List Nat) (b : Nat) : s.proc p = .inOp o ws → s.log.lh.length < LOGBLOCKS →
      b ∈ s.log.lh → Move s (.logWrite p b) (setProc s p (.inOp o (ws ++ [b])))
  | append (p : P) (o : Nat) (ws : List Nat) (b : Nat) : s.proc p = .inOp o ws → s.log.lh.length < LOGBLOCKS →
      b ∉ s.log.lh → Move s (.logWrite p b)
        (setProc { s with log := { s.log with lh := s.log.lh ++ [b] } } p (.inOp o (ws ++ [b])))
  | tooBig (p : P) (o : Nat) (ws : List Nat) (b : Nat) : s.proc p = .inOp o ws → LOGBLOCKS ≤ s.log.lh.length →
      Move s (.logWrite p b) { s with panic := some .tooBig }
  | outside (p : P) (o : Nat) (ws : List Nat) (b : Nat) : s.proc p = .inOp o ws → s.log.outstanding < 1 →
      Move s (.logWrite p b) { s with panic := some .outsideTrans }
  | last (p : P) (o : Nat) (ws : List Nat) : s.proc p = .inOp o ws → s.log.committing = false → s.log.outstanding = 1 →
      Move s (.endOp p) (setProc { s with log := ⟨0, true, s.log.lh⟩, done := s.done ++ [(o, ws)] } p (.commit .start))
  | leave (p : P) (o : Nat) (ws : List Nat) : s.proc p = .inOp o ws → s.log.committing = false → s.log.outstanding ≠ 1 →
      Move s (.endOp p) { s with
        log := { s.log with outstanding := s.log.outstanding - 1 }
        done := s.done ++ [(o, ws)]
        proc := wakeup (upd s.proc p .idle) }
  | clash (p : P) (o : Nat) (ws : List Nat) : s.proc p = .inOp o ws → s.log.committing = true →
      Move s (.endOp p) { s with panic := some .logCommitting }
  | next (p : P) (pc pc' : Pc) : s.proc p = .commit pc → Next s.log.lh pc pc' →
    Move s (.commit p) (setProc s p (.commit pc'))
  | install (p : P) (t b : Nat) : s.proc p = .commit (.install t) → s.log.lh[t]? = some b →
      Move s (.commit p) (setProc { s with cur := s.cur ++ [b] } p (.commit (.install (t + 1))))
  | clear (p : P) : s.proc p = .commit .clear →
      Move s (.commit p) (setProc { s with log := { s.log with lh := [] } } p (.commit .eraseHead))
  | fin (p : P) : s.proc p = .commit .fin →
      Move s (.commit p) { s with
        log := { s.log with committing := false }
        proc := wakeup (upd s.proc p .idle)
        hist := s.hist ++ [⟨s.done, s.cur⟩]
        done := []
        cur := [] }

theorem move_begin (s : St P) (p : P) (hp : s.proc p = .idle ∨ s.proc p = .woken) :
    Move s (.beginOp p) (tryBegin s p) := by
  unfold tryBegin beginOp
  by_cases hc : s.log.committing = true
  · rw [if_pos hc]
    exact .sleep p hp fun h => by rw [h.1] at hc; cases hc
  rw [if_neg hc]
  by_cases hr : s.log.lh.length + (s.log.outstanding + 1) * MAXOPBLOCKS > LOGBLOCKS
  · rw [if_pos hr]
    exact .sleep p hp fun h => by have := h.2; omega
  · rw [if_neg hr]
    exact .enter p hp ⟨by simpa using hc, by omega⟩

theorem move_commit (s : St P) (p : P) (pc : Pc) (hp : s.proc p = .commit pc) :
    Move s (.commit p) (commitStep s p pc) := by
  cases pc with
  | start =>
    simp only [commitStep]
    split
    · rename_i h; exact .next p _ _ hp (.some (List.length_pos_iff.mp h))
    · rename_i h; exact .next p _ _ hp (.none (List.length_eq_zero_iff.mp (by omega)))
  | writeLog t =>
    simp only [commitStep]
    split
    · exact .next p _ _ hp (.log t ‹_›)
    · exact .next p _ _ hp (.logged t (by omega))
  | writeHead => exact .next p _ _ hp .head
  | install t =>
    simp only [commitStep]
    split
    · exact .install p t _ hp ‹_›
    · rename_i h; exact .next p _ _ hp (.installed t (List.getElem?_eq_none_iff.mp h))
  | clear => exact .clear p hp
  | eraseHead => exact .next p _ _ hp .erased
  | fin => exact .fin p hp

theorem move_logWrite (s : St P) (p : P) (b : Nat) : Move s (.logWrite p b) (raw s (.logWrite p b)) := by
  simp only [raw]
  split
  · rename_i o ws hp
    unfold logWrite
    by_cases h1 : s.log.lh.length ≥ LOGBLOCKS
    · simp only [if_pos h1]; exact .tooBig p o ws b hp h1
    simp only [if_neg h1]
    by_cases h2 : s.log.outstanding < 1
    · simp only [if_pos h2]; exact .outside p o ws b hp h2
    simp only [if_neg h2]
    by_cases h3 : b ∈ s.log.lh
    · simp only [if_pos h3]; exact .absorb p o ws b hp (by omega) h3
    · simp only [if_neg h3]; exact .append p o ws b hp (by omega) h3
  · exact .stay _

theorem move_endOp (s : St P) (p : P) : Move s (.endOp p) (raw s (.endOp p)) := by
  simp only [raw]
  split
  · rename_i o ws hp
    unfold endOp
    by_cases h1 : s.log.committing = true
    · simp only [if_pos h1]; exact .clash p o ws hp h1
    have h1' : s.log.committing = false := by simpa using h1
    simp only [if_neg h1]
    by_cases h2 : s.log.outstanding - 1 = 0
    · simp only [h2]; exact .last p o ws hp h1' (by omega)
    · simp only [if_neg h2]; exact .leave p o ws hp h1' (by omega)
  · exact .stay _

theorem step_move (s : St P) (e : Ev P) : Move s e (step s e) := by
  unfold step
  split
  · exact .stay _
  cases e with
  | beginOp p =>
    simp only [raw]
    split
    · exact move_begin s p (.inl ‹_›)
    · exact move_begin s p (.inr ‹_›)
    · exact .stay _
  | kkill p =>
    simp only [raw]
    split
    · exact .wake p ‹_›
    · exact .stay _
  | logWrite p b => exact move_logWrite s p b
  | endOp p => exact move_endOp s p
  | commit p =>
    simp only [raw]
    split
    · exact move_commit s p _ ‹_›
    · exact .stay _

/-! ## Updates -/

@[simp] theorem setProc_log (s : St P) (p : P) (st : PSt) : (setProc s p st).log = s.log := rfl
@[simp] theorem setProc_nextOp (s : St P) (p : P) (st : PSt) : (setProc s p st).nextOp = s.nextOp := rfl
@[simp] theorem setProc_done (s : St P) (p : P) (st : PSt) : (setProc s p st).done = s.done := rfl
@[simp] theorem setProc_cur (s : St P) (p : P) (st : PSt) : (setProc s p st).cur = s.cur := rfl
@[simp] theorem setProc_hist (s : St P) (p : P) (st : PSt) : (setProc s p st).hist = s.hist := rfl
@[simp] theorem setProc_panic (s : St P) (p : P) (st : PSt) : (setProc s p st).panic = s.panic := rfl
@[simp] theorem setProc_proc (s : St P) (p : P) (st : PSt) : (setProc s p st).proc = upd s.proc p st := rfl

end

variable {f : P → PSt} {p : P} {s s' : St P} {st : PSt} {pc : Pc} {o b : Nat} {ws : List Nat} {e : Ev P}

theorem wakeup_eq {w : PSt} (h1 : w ≠ .asleep) (h2 : w ≠ .woken) : wakeup f p = w ↔ f p = w := by
  unfold wakeup
  by_cases h : f p = .asleep
  · rw [h]
    exact ⟨fun e => absurd e.symm h2, fun e => absurd e.symm h1⟩
  · rw [if_neg h]

theorem wakeup_asleep (f : P → PSt) (p : P) : wakeup f p ≠ .asleep := by
  unfold wakeup
  split
  · simp
  · assumption

/-! ## Who is in an operation, who commits, who sleeps -/

def isOp : PSt → Nat
  | .inOp _ _ => 1
  | _ => 0

theorem isOp_wakeup (f : P → PSt) (p : P) : isOp (wakeup f p) = isOp (f p) := by
  unfold wakeup
  split
  · rename_i h; rw [h]; rfl
  · rfl

section Gate

variable [Fintype P]

structure Gate (s : St P) : Prop where
  count : s.log.outstanding = total isOp s.proc
  quiet : s.log.committing = true → s.log.outstanding = 0
  owner : s.log.committing = true ↔ ∃ p pc, s.proc p = .commit pc
  single : ∀ p q pc pc', s.proc p = .commit pc → s.proc q = .commit pc' → p = q
  asleep : ∀ p, s.proc p = .asleep → ¬ Room s.log
  panics : s.panic ≠ some .logCommitting ∧ s.panic ≠ some .outsideTrans

theorem gate_init : Gate (init : St P) := by
  refine ⟨?_, ?_, ?_, ?_, ?_, ?_⟩ <;> simp [init, total, isOp]

/-- Only the counter, the flag, the header's length and the processes matter here. -/
theorem gate_ghost (h : Gate s) (n : Nat) (dn : List Op) (c : List Nat) (hs : List Commit) :
    Gate { s with nextOp := n, done := dn, cur := c, hist := hs } :=
  ⟨h.count, h.quiet, h.owner, h.single, h.asleep, h.panics⟩

/-- A header that grew leaves no more room than before; one cleared during a commit
    leaves none. -/
theorem gate_lh (h : Gate s) (lh : List Nat) (hl : s.log.committing = true ∨ s.log.lh.length ≤ lh.length) :
    Gate { s with log := { s.log with lh := lh } } := by
  refine ⟨h.count, h.quiet, h.owner, h.single, fun p hp hr => ?_, h.panics⟩
  have hr1 : s.log.committing = false := hr.1
  have hr2 := hr.2
  rcases hl with e | e
  · rw [hr1] at e; cases e
  · simp only at hr2
    exact h.asleep p hp ⟨hr1, by omega⟩

/-- An operation that runs counts as outstanding, so nothing commits meanwhile. -/
theorem gate_inOp (h : Gate s) (hp : s.proc p = .inOp o ws) : 1 ≤ s.log.outstanding ∧ s.log.committing = false := by
  have h1 := le_total isOp s.proc p
  have hc := h.count
  simp only [hp, isOp] at h1
  refine ⟨by omega, ?_⟩
  cases hcm : s.log.committing with
  | false => rfl
  | true => have := h.quiet hcm; omega

theorem not_commit (hg : Gate s) (hc : s.log.committing = false) (p : P) (pc : Pc) : s.proc p ≠ .commit pc := by
  intro e
  have := hg.owner.mpr ⟨p, pc, e⟩
  rw [hc] at this; cases this

variable [DecidableEq P]

theorem total_wakeup (f : P → PSt) (p : P) (v : PSt) :
    total isOp (wakeup (upd f p v)) + isOp (f p) = total isOp f + isOp v := by
  rw [← total_upd isOp f p v, total_congr (isOp_wakeup (upd f p v))]

/-- A process that is not the committer changes to a state that is not committing. -/
theorem gate_owner (h : Gate s) (p : P) (st : PSt) (h1 : ∀ pc, s.proc p ≠ .commit pc) (h2 : ∀ pc, st ≠ .commit pc) :
    (s.log.committing = true ↔ ∃ q pc, upd s.proc p st q = .commit pc) ∧
      ∀ q r pc pc', upd s.proc p st q = .commit pc → upd s.proc p st r = .commit pc' → q = r := by
  have key : ∀ q pc, upd s.proc p st q = .commit pc ↔ s.proc q = .commit pc := by
    intro q pc
    rw [upd_eq]
    constructor
    · rintro (⟨-, e⟩ | ⟨-, e⟩)
      · exact absurd e (h2 pc)
      · exact e
    · intro e
      exact .inr ⟨fun hq => h1 pc (by rw [← hq]; exact e), e⟩
  simp only [key]
  exact ⟨h.owner, h.single⟩

/-- Such a process, in an operation both before and after or neither. -/
theorem gate_set (h : Gate s) (h1 : ∀ pc, s.proc p ≠ .commit pc) (h2 : ∀ pc, st ≠ .commit pc)
    (hi : isOp (s.proc p) = isOp st) (ha : st = .asleep → ¬ Room s.log) : Gate (setProc s p st) := by
  obtain ⟨ho, hs⟩ := gate_owner h p st h1 h2
  refine ⟨?_, h.quiet, ho, hs, fun q hq => ?_, h.panics⟩
  · have ht := total_upd isOp s.proc p st
    have := h.count
    simp only [setProc_proc, setProc_log]; omega
  · rcases upd_eq.mp hq with ⟨-, e⟩ | ⟨-, e⟩
    · exact ha e
    · exact h.asleep q e

/-- The committer moves from one stage to another. -/
theorem gate_stage (h : Gate s) (hp : s.proc p = .commit pc) (pc' : Pc) : Gate (setProc s p (.commit pc')) := by
  have only : ∀ q pc1, upd s.proc p (.commit pc') q = .commit pc1 → q = p := by
    intro q pc1 hq
    rcases upd_eq.mp hq with ⟨e, -⟩ | ⟨-, e⟩
    · exact e
    · exact h.single q p pc1 pc e hp
  refine ⟨?_, h.quiet, ⟨fun _ => ⟨p, pc', upd_same _ _ _⟩, fun _ => h.owner.mpr ⟨p, pc, hp⟩⟩,
    ?_, fun q hq => ?_, h.panics⟩
  · have ht := total_upd isOp s.proc p (.commit pc')
    have := h.count
    simp only [isOp, hp] at ht
    simp only [setProc_proc, setProc_log]; omega
  · intro q r pc1 pc2 hq hr
    rw [only q pc1 hq, only r pc2 hr]
  · rcases upd_eq.mp hq with ⟨-, e⟩ | ⟨-, e⟩
    · cases e
    · exact h.asleep q e

/-- With one operation outstanding, the process in it is the only one in any. -/
theorem only_op (hg : Gate s) (hp : s.proc p = .inOp o ws) (h1 : s.log.outstanding = 1) {q : P} {x : Nat}
    {wx : List Nat} (hq : s.proc q = .inOp x wx) : q = p := by
  have ht := total_upd isOp s.proc p .idle
  have hc := hg.count
  simp only [isOp, hp] at ht
  have hz : total isOp (upd s.proc p .idle) = 0 := by omega
  have := total_eq_zero.mp hz q
  by_cases e : q = p
  · exact e
  · rw [upd_ne _ _ e, hq] at this; cases this

theorem gate_move (h : Gate s) (m : Move s e s') : Gate s' := by
  cases m with
  | stay _ => exact h
  | enter p hp hr =>
    have hz : isOp (s.proc p) = 0 := by rcases hp with e | e <;> rw [e] <;> rfl
    obtain ⟨ho, hs⟩ := gate_owner h p (.inOp s.nextOp []) (by intro pc e; rw [e] at hp; simp at hp) (by simp)
    refine ⟨?_, fun hc => ?_, ho, hs, fun q hq => ?_, h.panics⟩
    · have ht := total_upd isOp s.proc p (.inOp s.nextOp [])
      have := h.count
      have h1 : isOp (.inOp s.nextOp []) = 1 := rfl
      show s.log.outstanding + 1 = _
      simp only [setProc_proc]; omega
    · have : s.log.committing = true := hc
      rw [hr.1] at this; cases this
    · rcases upd_eq.mp hq with ⟨-, e⟩ | ⟨-, e⟩
      · cases e
      · exact absurd hr (h.asleep q e)
  | sleep p hp hr =>
    exact gate_set h (by intro pc e; rw [e] at hp; simp at hp) (by simp)
      (by rcases hp with e | e <;> rw [e] <;> rfl) fun _ => hr
  | wake p hp | absorb p o ws b hp hl hb => exact gate_set h (by simp [hp]) (by simp) (by rw [hp]; rfl) (by simp)
  | append p o ws b hp hl hb =>
    exact gate_set (gate_lh h (s.log.lh ++ [b]) (.inr (by simp))) (by simp [hp]) (by simp)
      (by simp only [hp]; rfl) (by simp)
  | tooBig p o ws b hp hl => exact ⟨h.count, h.quiet, h.owner, h.single, h.asleep, by simp⟩
  | outside p o ws b hp ho => have := gate_inOp h hp; omega
  | last p o ws hp hc ho =>
    have ht := total_upd isOp s.proc p (.commit .start)
    have hcount := h.count
    simp only [isOp, hp] at ht
    have only : ∀ q pc, upd s.proc p (.commit .start) q = .commit pc → q = p := by
      intro q pc hq
      rcases upd_eq.mp hq with ⟨e, -⟩ | ⟨-, e⟩
      · exact e
      · have := h.owner.mpr ⟨q, pc, e⟩
        rw [hc] at this; cases this
    refine ⟨?_, fun _ => rfl, ⟨fun _ => ⟨p, .start, upd_same _ _ _⟩, fun _ => rfl⟩, ?_, fun q hq hr => ?_, h.panics⟩
    · simp only [setProc_proc, setProc_log]; omega
    · intro q r pc pc' hq hr
      rw [only q pc hq, only r pc' hr]
    · exact Bool.noConfusion hr.1
  | leave p o ws hp hc ho =>
    have ht := total_wakeup s.proc p .idle
    have hcount := h.count
    have key : ∀ q pc, wakeup (upd s.proc p .idle) q = .commit pc ↔ upd s.proc p .idle q = .commit pc :=
      fun q pc => wakeup_eq (by simp) (by simp)
    obtain ⟨hown, hsin⟩ := gate_owner h p .idle (by simp [hp]) (by simp)
    simp only [isOp, hp] at ht
    refine ⟨?_, fun hc' => ?_, ?_, ?_, fun q hq => absurd hq (wakeup_asleep _ q), h.panics⟩
    · simp only; omega
    · have : s.log.committing = true := hc'
      rw [hc] at this; cases this
    · simp only [key]; exact hown
    · simp only [key]; exact hsin
  | clash p o ws hp hc =>
    have := (gate_inOp h hp).2
    rw [hc] at this; cases this
  | next p pc pc' hp hn => exact gate_stage h hp pc'
  | install p t b hp hb => exact gate_stage (gate_ghost h s.nextOp s.done (s.cur ++ [b]) s.hist) hp _
  | clear p hp => exact gate_stage (gate_lh h [] (.inl (h.owner.mpr ⟨p, _, hp⟩))) hp _
  | fin p hp =>
    have ht := total_wakeup s.proc p .idle
    have hcount := h.count
    simp only [isOp, hp] at ht
    have none : ∀ q pc, wakeup (upd s.proc p .idle) q ≠ .commit pc := by
      intro q pc hq
      rw [wakeup_eq (by simp) (by simp)] at hq
      rcases upd_eq.mp hq with ⟨-, e⟩ | ⟨hne, e⟩
      · cases e
      · exact hne (h.single q p pc _ e hp)
    refine ⟨?_, fun hc => Bool.noConfusion hc, ⟨fun hc => Bool.noConfusion hc, ?_⟩, ?_,
      fun q hq => absurd hq (wakeup_asleep _ q), h.panics⟩
    · simp only; omega
    · rintro ⟨q, pc, hq⟩; exact absurd hq (none q pc)
    · intro q r pc pc' hq; exact absurd hq (none q pc)

end Gate

/-! ## Which operations a commit holds -/

def ids (s : St P) : List Nat := (s.hist.flatMap (·.ops) ++ s.done).map (·.1)

structure Ids (s : St P) : Prop where
  issued : ∀ o ∈ ids s, o < s.nextOp
  running : ∀ p o ws, s.proc p = .inOp o ws → o < s.nextOp ∧ o ∉ ids s
  inj : ∀ p q o ws ws', s.proc p = .inOp o ws → s.proc q = .inOp o ws' → p = q
  nodup : (ids s).Nodup
  all : ∀ o < s.nextOp, o ∈ ids s ∨ ∃ p ws, s.proc p = .inOp o ws

theorem ids_init : Ids (init : St P) := by
  refine ⟨?_, ?_, ?_, ?_, ?_⟩ <;> simp [init, ids]

/-- A step that neither begins nor ends an operation. -/
theorem ids_keep (h : Ids s) (hi : ids s' = ids s) (hn : s'.nextOp = s.nextOp)
    (hp : ∀ p o, (∃ ws, s'.proc p = .inOp o ws) ↔ ∃ ws, s.proc p = .inOp o ws) : Ids s' := by
  refine ⟨?_, ?_, ?_, by rw [hi]; exact h.nodup, ?_⟩
  · intro o ho; rw [hi] at ho; rw [hn]; exact h.issued o ho
  · intro p o ws e
    obtain ⟨ws', e'⟩ := (hp p o).mp ⟨ws, e⟩
    rw [hi, hn]; exact h.running p o ws' e'
  · intro p q o ws ws' e1 e2
    obtain ⟨w1, e1'⟩ := (hp p o).mp ⟨ws, e1⟩
    obtain ⟨w2, e2'⟩ := (hp q o).mp ⟨ws', e2⟩
    exact h.inj p q o w1 w2 e1' e2'
  · intro o ho
    rw [hn] at ho
    rcases h.all o ho with h1 | ⟨p, ws, e⟩
    · left; rw [hi]; exact h1
    · obtain ⟨ws', e'⟩ := (hp p o).mpr ⟨ws, e⟩
      exact .inr ⟨p, ws', e'⟩

theorem ids_end (h : Ids s) (hp : s.proc p = .inOp o ws) (hn : s'.nextOp = s.nextOp) (hh : s'.hist = s.hist)
    (hd : s'.done = s.done ++ [(o, ws)])
    (hq : ∀ q x, (∃ ws, s'.proc q = .inOp x ws) ↔ q ≠ p ∧ ∃ ws, s.proc q = .inOp x ws) :
    Ids s' := by
  have hi : ids s' = ids s ++ [o] := by simp [ids, hh, hd]
  obtain ⟨ho, hno⟩ := h.running p o ws hp
  refine ⟨?_, ?_, ?_, ?_, ?_⟩
  · intro x hx
    rw [hi] at hx; rw [hn]
    rcases List.mem_append.mp hx with hx | hx
    · exact h.issued x hx
    · simp only [List.mem_singleton] at hx; omega
  · intro q x wx e
    obtain ⟨hne, w, e'⟩ := (hq q x).mp ⟨wx, e⟩
    obtain ⟨hlt, hni⟩ := h.running q x w e'
    refine ⟨by rw [hn]; exact hlt, ?_⟩
    rw [hi]
    simp only [List.mem_append, List.mem_singleton, not_or]
    refine ⟨hni, fun hxo => hne ?_⟩
    subst hxo
    exact h.inj q p x w ws e' hp
  · intro q r x w1 w2 e1 e2
    obtain ⟨-, w1', e1'⟩ := (hq q x).mp ⟨w1, e1⟩
    obtain ⟨-, w2', e2'⟩ := (hq r x).mp ⟨w2, e2⟩
    exact h.inj q r x w1' w2' e1' e2'
  · rw [hi]
    simpa using h.nodup.concat hno
  · intro x hx
    rw [hn] at hx
    rw [hi]
    rcases h.all x hx with h1 | ⟨q, w, e⟩
    · exact .inl (List.mem_append_left _ h1)
    by_cases hqp : q = p
    · subst hqp
      rw [hp] at e
      injection e with e1 _
      left; simp [e1]
    · obtain ⟨w', e'⟩ := (hq q x).mpr ⟨hqp, w, e⟩
      exact .inr ⟨q, w', e'⟩

section

variable [DecidableEq P]

theorem inOp_upd (h : ∀ o, (∃ ws, st = .inOp o ws) ↔ ∃ ws, f p = .inOp o ws) (q : P) (o : Nat) :
    (∃ ws, upd f p st q = .inOp o ws) ↔ ∃ ws, f q = .inOp o ws := by
  by_cases e : q = p
  · subst e; simpa using h o
  · simp [upd_ne _ _ e]

/-- Who is in an operation after `p` left its own and woke the others. -/
theorem idle_inOp {q : P} {w : List Nat} : wakeup (upd f p .idle) q = .inOp o w ↔ q ≠ p ∧ f q = .inOp o w := by
  rw [wakeup_eq (by simp) (by simp), upd_eq]; simp

theorem ids_move (h : Ids s) (m : Move s e s') : Ids s' := by
  cases m with
  | stay _ => exact h
  | enter p hp hr =>
    have hno : ∀ x w, s.proc p ≠ .inOp x w := by intro x w e; rw [e] at hp; simp at hp
    refine ⟨?_, ?_, ?_, h.nodup, ?_⟩
    · intro o ho; have := h.issued o ho; simp only [setProc_nextOp]; omega
    · intro q o ws e
      rcases upd_eq.mp e with ⟨-, e⟩ | ⟨-, e⟩
      · injection e with e _
        subst e
        exact ⟨by simp, fun hm => Nat.lt_irrefl _ (h.issued _ hm)⟩
      · obtain ⟨h1, h2⟩ := h.running q o ws e
        exact ⟨by simp only [setProc_nextOp]; omega, h2⟩
    · intro q r o w1 w2 e1 e2
      rcases upd_eq.mp e1 with ⟨a1, e1⟩ | ⟨-, e1⟩ <;> rcases upd_eq.mp e2 with ⟨a2, e2⟩ | ⟨-, e2⟩
      · rw [a1, a2]
      · injection e1 with e1 _
        have := (h.running r o w2 e2).1; omega
      · injection e2 with e2 _
        have := (h.running q o w1 e1).1; omega
      · exact h.inj q r o w1 w2 e1 e2
    · intro o ho
      simp only [setProc_nextOp] at ho
      by_cases e : o = s.nextOp
      · exact .inr ⟨p, [], by simp [e]⟩
      · rcases h.all o (by omega) with h1 | ⟨q, w, hq⟩
        · exact .inl h1
        · refine .inr ⟨q, w, ?_⟩
          have hqp : q ≠ p := by intro hqp; rw [hqp] at hq; exact hno o w hq
          simp [upd_ne _ _ hqp, hq]
  | sleep p hp hr => exact ids_keep h rfl rfl (inOp_upd fun o => by rcases hp with e | e <;> simp [e])
  | wake p hp | next p pc pc' hp hn | install p t b hp hb | clear p hp =>
    exact ids_keep h rfl rfl (inOp_upd fun o => by simp [hp])
  | absorb p o ws b hp hl hb | append p o ws b hp hl hb => exact ids_keep h rfl rfl (inOp_upd fun x => by simp [hp])
  | tooBig p o ws b hp hl | outside p o ws b hp ho | clash p o ws hp hc => exact ids_keep h rfl rfl fun _ _ => .rfl
  | last p o ws hp hc ho =>
    refine ids_end h hp rfl rfl rfl fun q x => ?_
    simp only [setProc_proc, upd_eq]; simp
  | leave p o ws hp hc ho =>
    refine ids_end h hp rfl rfl rfl fun q x => ?_
    simp only [idle_inOp]; simp
  | fin p hp =>
    refine ids_keep h (by simp [ids]) rfl fun q o => ?_
    simp only [idle_inOp]
    by_cases e : q = p
    · subst e; simp [hp]
    · simp [e]

end

/-! ## Which blocks a commit writes -/

def Logged (s : St P) (b : Nat) : Prop := (∃ o ∈ s.done, b ∈ o.2) ∨ ∃ p o ws, s.proc p = .inOp o ws ∧ b ∈ ws

/-- What the header and the blocks written so far hold at each stage of `commit`. -/
def Stage (s : St P) : Pc → Prop
  | .start => s.cur = [] ∧ ∀ b, b ∈ s.log.lh ↔ ∃ o ∈ s.done, b ∈ o.2
  | .writeLog _ => s.cur = [] ∧ ∀ b, b ∈ s.log.lh ↔ ∃ o ∈ s.done, b ∈ o.2
  | .writeHead => s.cur = [] ∧ ∀ b, b ∈ s.log.lh ↔ ∃ o ∈ s.done, b ∈ o.2
  | .install t => s.cur = s.log.lh.take t ∧ ∀ b, b ∈ s.log.lh ↔ ∃ o ∈ s.done, b ∈ o.2
  | .clear => s.cur = s.log.lh ∧ ∀ b, b ∈ s.log.lh ↔ ∃ o ∈ s.done, b ∈ o.2
  | .eraseHead => s.log.lh = [] ∧ ∀ b, b ∈ s.cur ↔ ∃ o ∈ s.done, b ∈ o.2
  | .fin => s.log.lh = [] ∧ ∀ b, b ∈ s.cur ↔ ∃ o ∈ s.done, b ∈ o.2

structure Books (s : St P) : Prop where
  /-- Outside a commit the header lists exactly the blocks the group has logged. -/
  between : s.log.committing = false → s.cur = [] ∧ ∀ b, b ∈ s.log.lh ↔ Logged s b
  stage : ∀ p pc, s.proc p = .commit pc → Stage s pc
  past : ∀ c ∈ s.hist, ∀ b, b ∈ c.blocks ↔ ∃ o ∈ c.ops, b ∈ o.2
  nodup : s.log.lh.Nodup

theorem books_init : Books (init : St P) := by
  refine ⟨?_, ?_, ?_, ?_⟩ <;> simp [init, Logged]

theorem stage_congr (hl : s'.log.lh = s.log.lh) (hc : s'.cur = s.cur) (hd : s'.done = s.done) (h : Stage s pc) :
    Stage s' pc := by
  cases pc <;> simpa only [Stage, hl, hc, hd] using h

theorem stage_next {pc' : Pc} (h : Stage s pc) (hn : Next s.log.lh pc pc') : Stage s pc' := by
  cases hn with
  | some _ => exact h
  | none he =>
    refine ⟨he, fun b => ?_⟩
    rw [h.1, ← h.2 b, he]
  | log t _ | logged t _ => exact h
  | head => exact ⟨by rw [h.1]; simp, h.2⟩
  | installed t ht => exact ⟨by rw [h.1, List.take_of_length_le ht], h.2⟩
  | erased => exact h

/-- An operation that ends moves its blocks from the running ones to the ended ones. -/
theorem logged_end (hp : s.proc p = .inOp o ws) (hd : s'.done = s.done ++ [(o, ws)])
    (hq : ∀ q x w, s'.proc q = .inOp x w ↔ q ≠ p ∧ s.proc q = .inOp x w) (b : Nat) : Logged s b ↔ Logged s' b := by
  simp only [Logged, hd, hq]
  constructor
  · rintro (⟨y, hy, hx⟩ | ⟨q, y, w, e, hx⟩)
    · exact .inl ⟨y, List.mem_append_left _ hy, hx⟩
    · by_cases h : q = p
      · subst h
        rw [hp] at e
        injection e with e1 e2
        subst e1 e2
        exact .inl ⟨(o, ws), by simp, hx⟩
      · exact .inr ⟨q, y, w, ⟨h, e⟩, hx⟩
  · rintro (⟨y, hy, hx⟩ | ⟨q, y, w, ⟨-, e⟩, hx⟩)
    · rcases List.mem_append.mp hy with hy | hy
      · exact .inl ⟨y, hy, hx⟩
      · simp only [List.mem_singleton] at hy
        subst hy
        exact .inr ⟨p, o, ws, hp, hx⟩
    · exact .inr ⟨q, y, w, e, hx⟩

variable [DecidableEq P]

/-- A process outside operations and `commit` before and after a step is not looked at. -/
theorem books_set (h : Books s) (h1 : ∀ pc, st ≠ .commit pc) (ho : ∀ o ws, st = .inOp o ws ↔ s.proc p = .inOp o ws) :
    Books (setProc s p st) := by
  refine ⟨fun hc => ⟨(h.between hc).1, fun b => ?_⟩, ?_, h.past, h.nodup⟩
  · rw [setProc_log, (h.between hc).2 b]
    have key : ∀ q o ws, upd s.proc p st q = .inOp o ws ↔ s.proc q = .inOp o ws := by
      intro q o ws
      by_cases e : q = p
      · subst e; rw [upd_same]; exact ho o ws
      · rw [upd_ne _ _ e]
    simp only [Logged, setProc_done, setProc_proc, key]
  · intro q pc hq
    rcases upd_eq.mp hq with ⟨-, e⟩ | ⟨-, e⟩
    · exact absurd e (h1 pc)
    · exact stage_congr rfl rfl rfl (h.stage q pc e)

variable [Fintype P]

/-- `log_write` by operation `o`: the header and the operation's own list get the block. -/
theorem books_log (hg : Gate s) (hb : Books s) (hp : s.proc p = .inOp o ws) {lh : List Nat}
    (hl : ∀ x, x ∈ lh ↔ x ∈ s.log.lh ∨ x = b) (hnd : lh.Nodup) :
    Books (setProc { s with log := { s.log with lh := lh } } p (.inOp o (ws ++ [b]))) := by
  have hcm := (gate_inOp hg hp).2
  refine ⟨fun _ => ⟨(hb.between hcm).1, fun x => ?_⟩, ?_, hb.past, hnd⟩
  · show x ∈ lh ↔ _
    rw [hl, (hb.between hcm).2 x]
    constructor
    · rintro ((⟨y, hy, hx⟩ | ⟨q, y, w, hq, hx⟩) | rfl)
      · exact .inl ⟨y, hy, hx⟩
      · by_cases e : q = p
        · subst e
          rw [hp] at hq
          injection hq with e1 e2
          subst e1 e2
          exact .inr ⟨q, o, ws ++ [b], by simp, List.mem_append_left _ hx⟩
        · exact .inr ⟨q, y, w, by simp [upd_ne _ _ e, hq], hx⟩
      · exact .inr ⟨p, o, ws ++ [x], by simp, by simp⟩
    · rintro (⟨y, hy, hx⟩ | ⟨q, y, w, hq, hx⟩)
      · exact .inl (.inl ⟨y, hy, hx⟩)
      · rcases upd_eq.mp hq with ⟨-, e⟩ | ⟨-, e⟩
        · injection e with e1 e2
          subst e1 e2
          rcases List.mem_append.mp hx with hx | hx
          · exact .inl (.inr ⟨p, o, ws, hp, hx⟩)
          · exact .inr (by simpa using hx)
        · exact .inl (.inr ⟨q, y, w, e, hx⟩)
  · intro q pc hq
    rcases upd_eq.mp hq with ⟨-, e⟩ | ⟨-, e⟩
    · cases e
    · exact absurd e (not_commit hg hcm q pc)

/-- The committer goes to a stage whose condition holds. -/
theorem books_stage (hg : Gate s) (hb : Books s) {pc' : Pc} (hp : s.proc p = .commit pc) (hs : Stage s' pc')
    (hpr : s'.proc = upd s.proc p (.commit pc')) (hc : s'.log.committing = s.log.committing) (hh : s'.hist = s.hist)
    (hn : s'.log.lh.Nodup) : Books s' := by
  have hcm := hg.owner.mpr ⟨p, pc, hp⟩
  refine ⟨fun h => ?_, ?_, by rw [hh]; exact hb.past, hn⟩
  · rw [hc, hcm] at h; cases h
  · intro q pc1 hq
    rw [hpr] at hq
    rcases upd_eq.mp hq with ⟨-, e⟩ | ⟨hne, e⟩
    · injection e with e; rw [← e]; exact hs
    · exact absurd (hg.single q p pc1 pc e hp) hne

theorem books_move (hg : Gate s) (hb : Books s) (m : Move s e s') : Books s' := by
  cases m with
  | stay _ => exact hb
  | enter p hp hr =>
    refine ⟨fun hc => ⟨(hb.between hc).1, fun b => ?_⟩, ?_, hb.past, hb.nodup⟩
    · show b ∈ s.log.lh ↔ _
      rw [(hb.between hc).2 b]
      constructor
      · rintro (h | ⟨q, o, w, hq, hx⟩)
        · exact .inl h
        · have hqp : q ≠ p := by intro e; rw [e] at hq; rw [hq] at hp; simp at hp
          exact .inr ⟨q, o, w, by simp [upd_ne _ _ hqp, hq], hx⟩
      · rintro (h | ⟨q, o, w, hq, hx⟩)
        · exact .inl h
        · rcases upd_eq.mp hq with ⟨-, e⟩ | ⟨-, e⟩
          · injection e with _ e2; subst e2; cases hx
          · exact .inr ⟨q, o, w, e, hx⟩
    · intro q pc hq
      rcases upd_eq.mp hq with ⟨-, e⟩ | ⟨-, e⟩
      · cases e
      · exact stage_congr rfl rfl rfl (hb.stage q pc e)
  | sleep p hp hr =>
    exact books_set hb (by simp) fun o ws => by rcases hp with e | e <;> simp [e]
  | wake p hp => exact books_set hb (by simp) fun o ws => by simp [hp]
  | absorb p o ws b hp hl hm =>
    exact books_log hg hb hp (fun x => ⟨.inl, fun h => h.elim id fun e => e ▸ hm⟩) hb.nodup
  | append p o ws b hp hl hm =>
    exact books_log hg hb hp (fun x => by simp) (by simpa using hb.nodup.concat hm)
  | tooBig p o ws b hp hl | outside p o ws b hp ho | clash p o ws hp hc =>
    exact ⟨hb.between, hb.stage, hb.past, hb.nodup⟩
  | last p o ws hp hc ho =>
    refine ⟨fun h => Bool.noConfusion h, ?_, hb.past, hb.nodup⟩
    intro q pc hq
    rcases upd_eq.mp hq with ⟨-, e⟩ | ⟨-, e⟩
    · injection e with e
      rw [← e]
      obtain ⟨h1, h2⟩ := hb.between hc
      refine ⟨h1, fun b => ?_⟩
      show b ∈ s.log.lh ↔ _
      have hend : ∀ q x w, upd s.proc p (.commit .start) q = .inOp x w ↔ q ≠ p ∧ s.proc q = .inOp x w :=
        fun q x w => by simp [upd_eq]
      have hmoved : Logged s b ↔
          Logged (setProc { s with log := ⟨0, true, s.log.lh⟩, done := s.done ++ [(o, ws)] } p (.commit .start)) b :=
        logged_end hp rfl hend b
      rw [h2 b, hmoved]
      refine ⟨fun h => h.resolve_right ?_, .inl⟩
      -- no other operation is outstanding, so `b` was logged by the one that ends
      rintro ⟨r, y, w, hr, -⟩
      obtain ⟨hne, hr⟩ := (hend r y w).mp hr
      exact hne (only_op hg hp ho hr)
    · exact absurd e (not_commit hg hc q pc)
  | leave p o ws hp hc ho =>
    refine ⟨fun _ => ⟨(hb.between hc).1, fun b => ?_⟩, ?_, hb.past, hb.nodup⟩
    · show b ∈ s.log.lh ↔ _
      rw [(hb.between hc).2 b]
      exact logged_end hp rfl (fun _ _ _ => idle_inOp) b
    · intro q pc hq
      rw [wakeup_eq (by simp) (by simp)] at hq
      rcases upd_eq.mp hq with ⟨-, e⟩ | ⟨-, e⟩
      · cases e
      · exact absurd e (not_commit hg hc q pc)
  | next p pc pc' hp hn =>
    exact books_stage hg hb hp (stage_congr rfl rfl rfl (stage_next (hb.stage p pc hp) hn)) rfl rfl rfl hb.nodup
  | install p t b hp hx =>
    obtain ⟨h1, h2⟩ := hb.stage p _ hp
    refine books_stage hg hb hp (show Stage _ (.install (t + 1)) from ⟨?_, h2⟩) rfl rfl rfl hb.nodup
    simp [h1, List.take_add_one, hx]
  | clear p hp =>
    obtain ⟨h1, h2⟩ := hb.stage p _ hp
    refine books_stage hg hb hp (show Stage _ .eraseHead from ⟨rfl, fun b => ?_⟩) rfl rfl rfl List.nodup_nil
    show b ∈ s.cur ↔ _
    rw [h1]; exact h2 b
  | fin p hp =>
    obtain ⟨h1, h2⟩ := hb.stage p _ hp
    refine ⟨fun _ => ⟨rfl, fun b => ?_⟩, ?_, ?_, hb.nodup⟩
    · simp only [h1, Logged, List.not_mem_nil, false_and, exists_false, false_or, false_iff]
      rintro ⟨q, o, w, hq, -⟩
      have := (gate_inOp hg (idle_inOp.mp hq).2).2
      rw [hg.owner.mpr ⟨p, _, hp⟩] at this; cases this
    · intro q pc hq
      rw [wakeup_eq (by simp) (by simp)] at hq
      rcases upd_eq.mp hq with ⟨-, e⟩ | ⟨hne, e⟩
      · cases e
      · exact absurd (hg.single q p pc _ e hp) hne
    · intro c hc b
      rcases List.mem_append.mp hc with hc | hc
      · exact hb.past c hc b
      · simp only [List.mem_singleton] at hc
        subst hc
        exact h2 b

structure Inv (s : St P) : Prop where
  gate : Gate s
  ids : Ids s
  books : Books s

theorem inv_step (s : St P) (e : Ev P) (h : Inv s) : Inv (step s e) :=
  have m := step_move s e
  ⟨gate_move h.gate m, ids_move h.ids m, books_move h.gate h.books m⟩

omit [DecidableEq P] in
theorem inv_init : Inv (init : St P) := ⟨gate_init, ids_init, books_init⟩

theorem inv_run (es : List (Ev P)) : Inv (run step (init : St P) es) :=
  run_keeps inv_step es inv_init

/-- Group commit, over every interleaving. While a commit runs no operation does, so the
    two panics of `end_op` and `log_write` about it are not reached; each commit writes
    exactly the blocks its operations logged, every operation ended and in one commit
    only; and no process sleeps on `&log` while there is room for an operation. -/
theorem group_commit (es : List (Ev P)) :
    let s := run step (init : St P) es
    (s.log.committing = true → s.log.outstanding = 0 ∧ ∀ p o ws, s.proc p ≠ .inOp o ws) ∧
    (s.panic ≠ some .logCommitting ∧ s.panic ≠ some .outsideTrans) ∧
    (∀ c ∈ s.hist, ∀ b, b ∈ c.blocks ↔ ∃ o ∈ c.ops, b ∈ o.2) ∧
    ((ids s).Nodup ∧ ∀ o < s.nextOp, o ∈ ids s ∨ ∃ p ws, s.proc p = .inOp o ws) ∧
    (s.log.committing = false → s.log.lh.length + (s.log.outstanding + 1) * MAXOPBLOCKS ≤ LOGBLOCKS →
      ∀ p, s.proc p ≠ .asleep) := by
  intro s
  have h : Inv s := inv_run es
  refine ⟨fun hc => ⟨h.gate.quiet hc, fun p o ws e => ?_⟩, h.gate.panics, h.books.past,
    ⟨h.ids.nodup, h.ids.all⟩, fun hc hr p e => ?_⟩
  · have := (gate_inOp h.gate e).2
    rw [hc] at this; cases this
  · exact h.gate.asleep p e ⟨hc, hr⟩

end Xv6.Log.Group
