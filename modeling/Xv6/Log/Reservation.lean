/-
  Xv6.Log.Reservation — what `begin_op` reserves suffices for operations within the bound.
-/

import Xv6.Log.GroupProofs
import Mathlib.Algebra.BigOperators.Ring.Finset

namespace Xv6.Log.Group

open Lib

variable {P : Type} {p : P} {s s' : St P} {st : PSt} {o b : Nat} {ws : List Nat} {e : Ev P}

def logged : PSt → List Nat
  | .inOp _ ws => ws
  | _ => []

/-- An operation logs at most MAXOPBLOCKS distinct blocks: what `begin_op` reserves. -/
def Bounded (s : St P) : Ev P → Prop
  | .logWrite p b => (insert b (logged (s.proc p)).toFinset).card ≤ MAXOPBLOCKS
  | _ => True

/-- No block already in the header is logged again while the header is full. -/
def Roomy (s : St P) : Ev P → Prop
  | .logWrite p b => s.panic = none → isOp (s.proc p) = 1 → ¬ (b ∈ s.log.lh ∧ s.log.lh.length = LOGBLOCKS)
  | _ => True

instance instDecidableBounded (s : St P) : ∀ e, Decidable (Bounded s e)
  | .logWrite _ _ => inferInstanceAs (Decidable (_ ≤ _))
  | .beginOp _ | .kkill _ | .endOp _ | .commit _ => isTrue trivial

def left : PSt → Nat
  | .inOp _ ws => MAXOPBLOCKS - ws.toFinset.card
  | _ => 0

theorem left_wakeup (f : P → PSt) (p : P) : left (wakeup f p) = left (f p) := by
  unfold wakeup
  split
  · rename_i h; rw [h]; rfl
  · rfl

/-- What a `log_write` within the bound does to the reservation of its operation. -/
theorem left_log (hb : (insert b ws.toFinset).card ≤ MAXOPBLOCKS) :
    left (.inOp o (ws ++ [b])) ≤ left (.inOp o ws) ∧ (b ∉ ws → left (.inOp o (ws ++ [b])) + 1 = left (.inOp o ws)) := by
  have he : (ws ++ [b]).toFinset = insert b ws.toFinset := by ext x; simp
  simp only [left, he]
  have h1 : ws.toFinset.card ≤ (insert b ws.toFinset).card := Finset.card_le_card (Finset.subset_insert _ _)
  refine ⟨by omega, fun hn => ?_⟩
  have h2 : (insert b ws.toFinset).card = ws.toFinset.card + 1 := Finset.card_insert_of_notMem (by simpa using hn)
  omega

theorem left_le [Fintype P] (f : P → PSt) : total left f ≤ MAXOPBLOCKS * total isOp f := by
  unfold total
  rw [Finset.mul_sum]
  refine Finset.sum_le_sum fun p _ => ?_
  cases f p <;> simp [left, isOp]

/-- The header and what the running operations may still log fit the log. -/
def Reserved [Fintype P] (s : St P) : Prop := s.log.lh.length + total left s.proc ≤ LOGBLOCKS

theorem reserved_init [Fintype P] : Reserved (init : St P) := by
  simp [Reserved, init, total, left]

/-- Within the bound, a block not yet in the header always finds room. -/
theorem room_new [Fintype P] (hi : Inv s) (hr : Reserved s) (hp : s.proc p = .inOp o ws)
    (hb : (insert b ws.toFinset).card ≤ MAXOPBLOCKS) (hn : b ∉ s.log.lh) :
    b ∉ ws ∧ s.log.lh.length < LOGBLOCKS := by
  have hws : b ∉ ws := fun hm =>
    hn (((hi.books.between (gate_inOp hi.gate hp).2).2 b).mpr (.inr ⟨p, o, ws, hp, hm⟩))
  have h1 := le_total left s.proc p
  have h2 := (left_log (o := o) hb).2 hws
  rw [hp] at h1
  simp only [Reserved] at hr
  exact ⟨hws, by omega⟩

variable [DecidableEq P]

theorem run_panic (h : s.panic.isSome) (es : List (Ev P)) : run step s es = s := by
  induction es with
  | nil => rfl
  | cons e es ih => simp only [run_cons, step, h, if_true, ih]

theorem logWrite_full (b : Nat) (hs : s.panic = none) (hp : s.proc p = .inOp o ws) (hl : LOGBLOCKS ≤ s.log.lh.length) :
    step s (.logWrite p b) = { s with panic := some .tooBig } := by
  simp [step, raw, logWrite, hs, hp, hl]

theorem along_panic (h : s.panic.isSome) (es : List (Ev P)) : Along step Roomy s es := by
  induction es with
  | nil => trivial
  | cons e es ih =>
    have he : step s e = s := by simp only [step, h, if_true]
    refine ⟨?_, show Along step Roomy (step s e) es from by rw [he]; exact ih⟩
    cases e with
    | logWrite p b => intro hn; rw [hn] at h; cases h
    | _ => trivial

variable [Fintype P]

theorem reserved_drop (h : Reserved s) (hl : s'.log.lh.length ≤ s.log.lh.length)
    (hp : s'.proc = upd s.proc p st ∨ s'.proc = wakeup (upd s.proc p st)) (hd : left st ≤ left (s.proc p)) :
    Reserved s' := by
  have ht := total_upd left s.proc p st
  have he : total left s'.proc = total left (upd s.proc p st) := by
    rcases hp with e | e
    · rw [e]
    · rw [e]; exact total_congr (left_wakeup _)
  simp only [Reserved] at h ⊢
  omega

theorem reserved_move (hi : Inv s) (hr : Reserved s) (hb : Bounded s e) (m : Move s e s') : Reserved s' := by
  cases m with
  | stay _ => exact hr
  | enter p hp hroom =>
    have h1 := left_le s.proc
    have h2 := hi.gate.count
    have h3 := hroom.2
    have ht := total_upd left s.proc p (.inOp s.nextOp [])
    have h10 : left (.inOp s.nextOp []) = 10 := rfl
    simp only [Reserved, setProc_log, setProc_proc, MAXOPBLOCKS, LOGBLOCKS] at *
    omega
  | sleep p hp hroom | wake p hp | last p o ws hp hc ho | next p pc pc' hp hn | install p t b hp hx =>
    exact reserved_drop hr (Nat.le_refl _) (.inl rfl) (Nat.zero_le _)
  | absorb p o ws b hp hl hm =>
    simp only [Bounded, hp, logged] at hb
    refine reserved_drop hr (Nat.le_refl _) (.inl rfl) ?_
    rw [hp]; exact (left_log hb).1
  | append p o ws b hp hl hm =>
    simp only [Bounded, hp, logged] at hb
    have h1 := (left_log (o := o) hb).2 (room_new hi hr hp hb hm).1
    have ht := total_upd left s.proc p (.inOp o (ws ++ [b]))
    rw [hp] at ht
    simp only [Reserved, setProc_log, setProc_proc, List.length_append, List.length_singleton] at hr ⊢
    omega
  | tooBig p o ws b hp hl | outside p o ws b hp ho => exact hr
  | leave p o ws hp hc ho | fin p hp => exact reserved_drop hr (Nat.le_refl _) (.inr rfl) (Nat.zero_le _)
  | clash p o ws hp hc => exact hr
  | clear p hp => exact reserved_drop hr (Nat.zero_le _) (.inl rfl) (Nat.zero_le _)

/-- One step: `log_write` panics within the bound just when a block already in a full
    header is logged again. -/
theorem tooBig_step (hi : Inv s) (hr : Reserved s) (hb : Bounded s e) (hs : s.panic = none) :
    (step s e).panic ≠ some .tooBig ↔ Roomy s e := by
  constructor
  · intro h
    cases e with
    | logWrite p b =>
      rintro - hop ⟨-, hfull⟩
      cases hp : s.proc p with
      | inOp o ws => exact h (by rw [logWrite_full b hs hp hfull.ge])
      | _ => rw [hp] at hop; cases hop
    | _ => trivial
  · intro hroomy
    have m := step_move s e
    generalize step s e = s' at m
    cases m with
    | tooBig p o ws b hp hl =>
      simp only [Bounded, hp, logged] at hb
      have hle : s.log.lh.length ≤ LOGBLOCKS := Nat.le_trans (Nat.le_add_right _ _) hr
      by_cases hm : b ∈ s.log.lh
      · exact absurd ⟨hm, by omega⟩ (hroomy hs (by rw [hp]; rfl))
      · have := (room_new hi hr hp hb hm).2
        omega
    | outside | clash => simp
    | _ => simp [hs]

/-- The log is big enough for operations that log at most MAXOPBLOCKS distinct blocks each,
    except for a block that is logged again while the header is full: `log_write` tests the
    header's length before it looks for the block there. -/
theorem reservation_suffices (es : List (Ev P)) (hb : Along step Bounded init es) :
    (run step init es).panic ≠ some .tooBig ↔ Along step Roomy init es := by
  suffices h : ∀ (es : List (Ev P)) (s : St P), Inv s → Reserved s → s.panic = none → Along step Bounded s es →
      ((run step s es).panic ≠ some .tooBig ↔ Along step Roomy s es) from
    h es init inv_init reserved_init rfl hb
  intro es
  induction es with
  | nil => intro s _ _ hs _; simp [Along, hs]
  | cons e es ih =>
    intro s hi hr hs hb
    have h1 := tooBig_step hi hr hb.1 hs
    simp only [run_cons, Along]
    cases hp : (step s e).panic with
    | none =>
      rw [ih _ (inv_step s e hi) (reserved_move hi hr hb.1 (step_move s e)) hp hb.2]
      have : Roomy s e := h1.mp (by simp [hp])
      exact ⟨fun h => ⟨this, h⟩, fun h => h.2⟩
    | some x =>
      have hsome : (step s e).panic.isSome := by rw [hp]; rfl
      rw [run_panic hsome, h1]
      exact ⟨fun h => ⟨h, along_panic hsome es⟩, fun h => h.1⟩

/-- Three operations at once, and the blocks they log: thirty distinct ones. -/
def fullLog : List (Ev (Fin 3)) :=
  [.beginOp 0, .beginOp 1, .beginOp 2] ++ (List.range 10).map (.logWrite 0 ·) ++
    (List.range 10).map (.logWrite 1 <| 10 + ·) ++ (List.range 10).map (.logWrite 2 <| 20 + ·)

theorem reservation_suffices_full : Along step Bounded init fullLog ∧
    ((run step init fullLog).panic ≠ some .tooBig ↔ Along step Roomy init fullLog) :=
  have h : Along step Bounded init fullLog := by decide +kernel
  ⟨h, reservation_suffices fullLog h⟩

/-- The header is full of blocks each operation was entitled to; logging one of them again
    panics. -/
theorem full_log_rewrite : Along step Bounded init (fullLog ++ [.logWrite 0 0]) ∧
    (run step init (fullLog ++ [.logWrite 0 0])).panic = some .tooBig := by
  decide +kernel

end Xv6.Log.Group
