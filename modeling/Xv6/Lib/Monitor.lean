/-
  Xv6.Lib.Monitor — parties that share data under one lock and wait for each other with
  `sleep` and `wakeup`.

  A party that calls in takes the lock and runs the steps of its program. A step may end in
  a wakeup of a channel, in a sleep on one, or in the return. `sleep` takes the party's own
  lock, releases the shared one, marks the party asleep and gives up its own lock (`doze`);
  a woken party takes the shared lock again before it goes on. `wakeup` visits the parties
  one after the other and takes the own lock of each for its visit, so it waits for one that
  is falling asleep. A kill marks a party under its own lock and wakes it if it is asleep.
  Data that hardware shares changes at any time (`env`).

  What a development about one program then has to show is about single steps of it:
  `data_inv` gives an invariant of the data and of where the parties are, and `sim_run` that
  two programs over related data run alike. `Xv6.Lib.Signals` is about wakeups and kills.
-/

import Mathlib.Data.FinEnum
import Xv6.Lib.Run
import Xv6.Lib.Writes

namespace Xv6.Lib.Monitor

/-! ## The machine -/

inductive Phase (P C L : Type) where
  | off
  /-- With the lock. -/
  | inside (l : L)
  /-- With the lock, in `wakeup(c)`, which has still to visit `todo`. -/
  | waking (c : C) (todo : List P) (l : L)
  /-- In `sleep(c)`: it holds its own lock and has released the shared one. -/
  | falling (c : C) (l : L)
  | asleep (c : C) (l : L)
  /-- Woken, or killed in its sleep; it has still to take the lock. -/
  | ready (l : L)
  deriving DecidableEq, Repr

inductive Act (C L : Type) where
  | go (l : L)
  | wake (c : C) (l : L)
  | sleep (c : C) (l : L)
  | leave
  deriving DecidableEq, Repr

/-- A program: where a call starts, and its steps, which see whether the party is killed. -/
structure Prog (P C D L A I X : Type) where
  start : P → A → L
  step : P → Bool → D → L → I → D × Act C L
  env : D → X → D

inductive Ev (P A I X : Type) where
  | call (p : P) (a : A)
  | resume (p : P)
  | exec (p : P) (i : I)
  /-- The next visit of a `wakeup`, or its end. -/
  | visit (p : P)
  | doze (p : P)
  | kill (p : P)
  | env (x : X)
  deriving DecidableEq, Repr

structure St (P C D L : Type) where
  data : D
  phase : P → Phase P C L
  /-- Who holds the lock. -/
  holder : Option P
  killed : P → Bool

variable {P C D L A I X : Type}

def Phase.falls : Phase P C L → Bool
  | .falling _ _ => true
  | _ => false

/-- The visit of `wakeup(c)`. -/
def Phase.wake [DecidableEq C] (c : C) : Phase P C L → Phase P C L
  | .asleep c' l => if c' = c then .ready l else .asleep c' l
  | ph => ph

def Phase.rouse : Phase P C L → Phase P C L
  | .asleep _ l => .ready l
  | ph => ph

def Phase.loc : Phase P C L → Option L
  | .off => none
  | .inside l | .waking _ _ l | .falling _ l | .asleep _ l | .ready l => some l

def Phase.held : Phase P C L → Option L
  | .inside l | .waking _ _ l => some l
  | _ => none

def Phase.waits : Phase P C L → Option C
  | .falling c _ | .asleep c _ => some c
  | _ => none

def Act.loc : Act C L → Option L
  | .go l | .wake _ l | .sleep _ l => some l
  | .leave => none

theorem held_wake [DecidableEq C] (c : C) (ph : Phase P C L) : (ph.wake c).held = ph.held := by
  unfold Phase.wake
  split
  · split <;> rfl
  · rfl

theorem held_rouse (ph : Phase P C L) : ph.rouse.held = ph.held := by
  unfold Phase.rouse
  split <;> rfl

theorem loc_wake [DecidableEq C] (c : C) (ph : Phase P C L) : (ph.wake c).loc = ph.loc := by
  unfold Phase.wake
  split
  · split <;> rfl
  · rfl

theorem loc_rouse (ph : Phase P C L) : ph.rouse.loc = ph.loc := by
  unfold Phase.rouse
  split <;> rfl

def St.loc (s : St P C D L) (p : P) : Option L := (s.phase p).loc

/-- All parties are out. -/
def St.init (d : D) : St P C D L := ⟨d, fun _ => .off, none, fun _ => false⟩

structure Usage (P D L A I : Type) where
  call : D → (P → Option L) → P → A → Prop
  exec : P → Bool → D → L → I → Prop
  /-- A kill of a party that holds the lock. -/
  kill : D → L → Prop

def Usage.any : Usage P D L A I := ⟨fun _ _ _ _ => True, fun _ _ _ _ _ => True, fun _ _ => True⟩

def Usage.Meets (u : Usage P D L A I) (s : St P C D L) : Ev P A I X → Prop
  | .call p a => u.call s.data s.loc p a
  | .exec p i => ∀ l, s.phase p = .inside l → u.exec p (s.killed p) s.data l i
  | .kill p => ∀ l, (s.phase p).held = some l → u.kill s.data l
  | _ => True

theorem meets_any (s : St P C D L) (e : Ev P A I X) : (Usage.any : Usage P D L A I).Meets s e := by
  cases e with
  | call p a => trivial
  | exec p i | kill p => intro l _; trivial
  | _ => trivial

variable {s s' : St P C D L} {p : P} {ph : Phase P C L} {Parked : L → Prop} {c : C}

/-! ## The lock -/

def Wf (s : St P C D L) : Prop := ∀ p, s.holder = some p ↔ (s.phase p).held ≠ none

theorem wf_init (d : D) : Wf (St.init d : St P C D L) := by
  intro p
  exact ⟨(fun h => by cases h), fun h => absurd rfl h⟩

def AllParked (Parked : L → Prop) (s : St P C D L) : Prop :=
  ∀ p l, (s.phase p).held = none → (s.phase p).loc = some l → Parked l

/-- Whoever is not the holder stands at a parked place. -/
theorem others_parked (hw : Wf s) (h : AllParked Parked s) (hp : s.holder = none ∨ s.holder = some p) :
    ∀ q l, q ≠ p → s.loc q = some l → Parked l := by
  intro q l hq hl
  refine h q l ?_ hl
  by_contra hne
  have hh := (hw q).mpr hne
  rcases hp with h1 | h1
  · rw [h1] at hh; cases hh
  · rw [h1] at hh; cases hh; exact hq rfl

variable [FinEnum P]

/-- One party changes its phase, and the lock stays where it is. -/
theorem wf_keep (h : Wf s) (hp : ph.held.isSome = (s.phase p).held.isSome) (d : D) (k : P → Bool) :
    Wf ⟨d, upd s.phase p ph, s.holder, k⟩ := by
  intro q
  by_cases hq : q = p
  · simp only [hq, upd_same]
    rw [h p, ← Option.isSome_iff_ne_none, ← Option.isSome_iff_ne_none, hp]
  · simp only [upd_ne _ _ hq]
    exact h q

theorem wf_take (h : Wf s) (hn : s.holder = none) (p : P) (l : L) (k : P → Bool) :
    Wf ⟨s.data, upd s.phase p (.inside l), some p, k⟩ := by
  intro q
  by_cases hq : q = p
  · simp [hq, Phase.held]
  · simp only [upd_ne _ _ hq, Option.some.injEq]
    have := h q
    rw [hn] at this
    simp only [← this]
    exact ⟨fun e => absurd e.symm hq, fun e => by cases e⟩

theorem wf_drop (h : Wf s) (hp : s.holder = some p) (hph : ph.held = none) (d : D) (k : P → Bool) :
    Wf ⟨d, upd s.phase p ph, none, k⟩ := by
  intro q
  by_cases hq : q = p
  · simp [hq, hph]
  · simp only [upd_ne _ _ hq]
    have := h q
    rw [hp] at this
    simp only [← this, Option.some.injEq]
    exact ⟨(fun e => by cases e), fun e => absurd e.symm hq⟩

theorem loc_upd (f : P → Phase P C L) (p : P) (ph : Phase P C L) :
    (fun q => (upd f p ph q).loc) = upd (fun q => (f q).loc) p ph.loc := comp_upd Phase.loc f p ph

theorem loc_upd_same {f : P → Phase P C L} (h : ph.loc = (f p).loc) :
    (fun q => (upd f p ph q).loc) = fun q => (f q).loc := by
  rw [loc_upd, h]
  exact upd_self (fun q => (f q).loc) p

theorem parked_upd (h : AllParked Parked s) (hp : ∀ l, ph.held = none → ph.loc = some l → Parked l) (d : D)
    (o : Option P) (k : P → Bool) : AllParked Parked ⟨d, upd s.phase p ph, o, k⟩ := by
  intro q l h1 h2
  by_cases hq : q = p
  · simp only [hq, upd_same] at h1 h2; exact hp l h1 h2
  · simp only [upd_ne _ _ hq] at h1 h2; exact h q l h1 h2

/-! ## A step -/

def St.act (s : St P C D L) (p : P) (d : D) : Act C L → St P C D L
  | .go l => { s with data := d, phase := upd s.phase p (.inside l) }
  | .wake c l => { s with data := d, phase := upd s.phase p (.waking c (FinEnum.toList P) l) }
  | .sleep c l => { s with data := d, phase := upd s.phase p (.falling c l), holder := none }
  | .leave => { s with data := d, phase := upd s.phase p .off, holder := none }

variable [DecidableEq C] (m : Prog P C D L A I X)

def St.step (s : St P C D L) : Ev P A I X → St P C D L
  | .call p a =>
    match s.holder, s.phase p with
    | none, .off => { s with phase := upd s.phase p (.inside (m.start p a)), holder := some p }
    | _, _ => s
  | .resume p =>
    match s.holder, s.phase p with
    | none, .ready l => { s with phase := upd s.phase p (.inside l), holder := some p }
    | _, _ => s
  | .exec p i =>
    match s.phase p with
    | .inside l => s.act p (m.step p (s.killed p) s.data l i).1 (m.step p (s.killed p) s.data l i).2
    | _ => s
  | .visit p =>
    match s.phase p with
    | .waking _ [] l => { s with phase := upd s.phase p (.inside l) }
    | .waking c (q :: todo) l =>
      -- it waits for the own lock of `q`; its visit to itself does nothing
      if (s.phase q).falls then s
      else { s with phase := upd (upd s.phase q ((s.phase q).wake c)) p (.waking c todo l) }
    | _ => s
  | .doze p =>
    match s.phase p with
    | .falling c l => { s with phase := upd s.phase p (.asleep c l) }
    | _ => s
  | .kill p =>
    if (s.phase p).falls then s
    else { s with phase := upd s.phase p (s.phase p).rouse, killed := upd s.killed p true }
  | .env x => { s with data := m.env s.data x }

theorem along_any (s : St P C D L) (es : List (Ev P A I X)) :
    Along (St.step m) (Usage.any : Usage P D L A I).Meets s es := by
  induction es generalizing s with
  | nil => trivial
  | cons e es ih => exact ⟨meets_any s e, ih _⟩

theorem along_unkilled {m : Prog P C D L A I X} {Q : St P C D L → Ev P A I X → Prop}
    (hQ : ∀ s e, (∀ p, s.killed p = false) → Q s e) (es : List (Ev P A I X)) (hes : ∀ p, .kill p ∉ es) :
    ∀ {s : St P C D L}, (∀ p, s.killed p = false) → Along (St.step m) Q s es := by
  induction es with
  | nil => intro s _; trivial
  | cons e es ih =>
    intro s hs
    refine ⟨hQ s e hs, ih (fun p h => hes p (.tail _ h)) ?_⟩
    have hsame : (s.step m e).killed = s.killed := by
      cases e with
      | kill p => exact absurd List.mem_cons_self (hes p)
      | call p a | resume p | doze p => simp only [St.step]; split <;> rfl
      | exec p i =>
        simp only [St.step]
        split
        · unfold St.act; split <;> rfl
        · rfl
      | visit p =>
        simp only [St.step]
        split
        · rfl
        · split <;> rfl
        · rfl
      | env x => rfl
    intro p
    rw [hsame]
    exact hs p

/-! ## What a step can do -/

variable (u : Usage P D L A I)

inductive Move (s : St P C D L) : St P C D L → Prop
  | stay : Move s s
  | call (p : P) (a : A) : s.holder = none → s.phase p = .off → u.call s.data s.loc p a →
      Move s { s with phase := upd s.phase p (.inside (m.start p a)), holder := some p }
  | resume (p : P) (l : L) : s.holder = none → s.phase p = .ready l →
      Move s { s with phase := upd s.phase p (.inside l), holder := some p }
  | exec (p : P) (l : L) (i : I) : s.phase p = .inside l → u.exec p (s.killed p) s.data l i →
      Move s (s.act p (m.step p (s.killed p) s.data l i).1 (m.step p (s.killed p) s.data l i).2)
  | woken (p : P) (c : C) (l : L) : s.phase p = .waking c [] l → Move s { s with phase := upd s.phase p (.inside l) }
  | visit (p : P) (c : C) (q : P) (todo : List P) (l : L) : s.phase p = .waking c (q :: todo) l →
    (s.phase q).falls = false →
      Move s { s with phase := upd (upd s.phase q ((s.phase q).wake c)) p (.waking c todo l) }
  | doze (p : P) (c : C) (l : L) : s.phase p = .falling c l → Move s { s with phase := upd s.phase p (.asleep c l) }
  | kill (p : P) : (s.phase p).falls = false → (∀ l, (s.phase p).held = some l → u.kill s.data l) →
      Move s { s with phase := upd s.phase p (s.phase p).rouse, killed := upd s.killed p true }
  | env (x : X) : Move s { s with data := m.env s.data x }

theorem step_move {e : Ev P A I X} (hu : u.Meets s e) : Move m u s (s.step m e) := by
  cases e with
  | call p a =>
    simp only [St.step]
    split
    · exact .call p a ‹_› ‹_› hu
    · exact .stay
  | resume p =>
    simp only [St.step]
    split
    · exact .resume p _ ‹_› ‹_›
    · exact .stay
  | exec p i =>
    simp only [St.step]
    split
    · exact .exec p _ i ‹_› (hu _ ‹_›)
    · exact .stay
  | visit p =>
    simp only [St.step]
    split
    · exact .woken p _ _ ‹_›
    · split
      · exact .stay
      · exact .visit p _ _ _ _ ‹_› (Bool.eq_false_iff.mpr ‹_›)
    · exact .stay
  | doze p =>
    simp only [St.step]
    split
    · exact .doze p _ _ ‹_›
    · exact .stay
  | kill p =>
    simp only [St.step]
    split
    · exact .stay
    · exact .kill p (Bool.eq_false_iff.mpr ‹_›) hu
  | env x => exact .env x

theorem run_move {J : St P C D L → Prop} (hm : ∀ s s', Move m u s s' → J s → J s') (es : List (Ev P A I X))
    (hc : Along (St.step m) u.Meets s es) (h : J s) : J (run (St.step m) s es) :=
  run_inv (fun s _ hu hj => hm s _ (step_move m u hu) hj) es hc h

theorem wf_move (hm : Move m u s s') (h : Wf s) : Wf s' := by
  cases hm with
  | stay => exact h
  | call p a hn hp hu | resume p l hn hp => exact wf_take h hn p _ _
  | exec p l i hp hu =>
    have hh : s.holder = some p := (h p).mpr (by rw [hp]; exact Option.some_ne_none _)
    generalize (m.step p (s.killed p) s.data l i).1 = d
    generalize (m.step p (s.killed p) s.data l i).2 = a
    cases a with
    | go l' | wake c l' => exact wf_keep h (by rw [hp]; rfl) d _
    | sleep c l' | leave => exact wf_drop h hh rfl d _
  | woken p c l hp | doze p c l hp => exact wf_keep h (by rw [hp]; rfl) _ _
  | visit p c q todo l hp hq =>
    have h1 : Wf ⟨s.data, upd s.phase q ((s.phase q).wake c), s.holder, s.killed⟩ :=
      wf_keep h (by rw [held_wake]) _ _
    have hh : s.holder = some p := (h p).mpr (by rw [hp]; exact Option.some_ne_none _)
    have h2 := Option.isSome_iff_ne_none.mpr ((h1 p).mp hh)
    exact wf_keep h1 (by rw [h2]; rfl) _ _
  | kill p hp hu => exact wf_keep h (by rw [held_rouse]) _ _
  | env x => exact h

/-! ## Invariants of the data -/

/-- The steps of the program keep `I`, which is about the data and where the programs of
    the parties stand. While one party is inside, the others stand where `Parked` allows. -/
structure Keeps (Parked : L → Prop) (J : D → (P → Option L) → Prop) : Prop where
  call : ∀ d ls p a, J d ls → ls p = none → (∀ q l, ls q = some l → Parked l) → u.call d ls p a →
    J d (upd ls p (some (m.start p a)))
  exec : ∀ d ls p k l i, J d ls → ls p = some l → (∀ q l', q ≠ p → ls q = some l' → Parked l') → u.exec p k d l i →
    J (m.step p k d l i).1 (upd ls p (m.step p k d l i).2.loc) ∧
      ∀ c l', (m.step p k d l i).2 = .sleep c l' → Parked l'
  env : ∀ d ls x, J d ls → J (m.env d x) ls

variable {m u}

variable {J : D → (P → Option L) → Prop}

theorem parked_move (hk : Keeps m u Parked J) (hm : Move m u s s') (hw : Wf s)
    (hj : J s.data s.loc) (h : AllParked Parked s) : AllParked Parked s' := by
  cases hm with
  | stay => exact h
  | call p a hn hp hu | resume p l hn hp | woken p c l hp => exact parked_upd h (fun _ he => by cases he) _ _ _
  | exec p l i hp hu =>
    have hl : s.loc p = some l := by unfold St.loc; rw [hp]; rfl
    have hh : s.holder = some p := (hw p).mpr (by rw [hp]; exact Option.some_ne_none _)
    have hx := (hk.exec s.data s.loc p (s.killed p) l i hj hl (others_parked hw h (.inr hh)) hu).2
    generalize (m.step p (s.killed p) s.data l i).1 = d
    generalize (m.step p (s.killed p) s.data l i).2 = a at hx
    cases a with
    | go l' | wake c l' => exact parked_upd h (fun _ he => by cases he) _ _ _
    | sleep c l' =>
      refine parked_upd h (fun l'' _ he => ?_) _ _ _
      cases he
      exact hx c l' rfl
    | leave => exact parked_upd h (fun _ _ he => by cases he) _ _ _
  | visit p c q todo l hp hq =>
    have h1 : AllParked Parked ⟨s.data, upd s.phase q ((s.phase q).wake c), s.holder, s.killed⟩ :=
      parked_upd h (fun l' h1 h2 => h q l' (by rwa [held_wake] at h1) (by rwa [loc_wake] at h2)) _ _ _
    exact parked_upd h1 (fun _ he => by cases he) _ _ _
  | doze p c l hp => exact parked_upd h (fun l' _ h2 => h p l' (by rw [hp]; rfl) (by rw [hp]; exact h2)) _ _ _
  | kill p hp hu =>
    exact parked_upd h (fun l' h1 h2 => h p l' (by rwa [held_rouse] at h1) (by rwa [loc_rouse] at h2)) _ _ _
  | env x => exact h

theorem data_move (hk : Keeps m u Parked J) (hm : Move m u s s') (hw : Wf s)
    (hp : AllParked Parked s) (h : J s.data s.loc) : J s'.data s'.loc := by
  have hsame : ∀ {p : P} {ph : Phase P C L}, ph.loc = (s.phase p).loc → J s.data fun q => (upd s.phase p ph q).loc := by
    intro p ph he
    rw [loc_upd_same he]
    exact h
  cases hm with
  | stay => exact h
  | call p a hn hoff hu =>
    have hl : s.loc p = none := by unfold St.loc; rw [hoff]; rfl
    have hall : ∀ q l, s.loc q = some l → Parked l := by
      intro q l hq
      by_cases e : q = p
      · rw [e, hl] at hq; cases hq
      · exact others_parked hw hp (.inl hn) q l e hq
    show J s.data fun q => (upd s.phase p (.inside (m.start p a)) q).loc
    rw [loc_upd]
    exact hk.call s.data s.loc p a h hl hall hu
  | resume p l hn hr => exact hsame (by rw [hr]; rfl)
  | exec p l i hin hu =>
    have hl : s.loc p = some l := by unfold St.loc; rw [hin]; rfl
    have hh : s.holder = some p := (hw p).mpr (by rw [hin]; exact Option.some_ne_none _)
    have hx := (hk.exec s.data s.loc p (s.killed p) l i h hl (others_parked hw hp (.inr hh)) hu).1
    generalize (m.step p (s.killed p) s.data l i).1 = d at hx
    generalize (m.step p (s.killed p) s.data l i).2 = a at hx
    cases a with
    | go l' | wake c l' | sleep c l' | leave => show J d fun q => (upd s.phase p _ q).loc; rw [loc_upd]; exact hx
  | woken p c l hwk => exact hsame (by rw [hwk]; rfl)
  | visit p c q todo l hwk hq =>
    show J s.data fun r => (upd (upd s.phase q ((s.phase q).wake c)) p (.waking c todo l) r).loc
    have h1 : (upd s.phase q ((s.phase q).wake c) p).loc = some l := by
      by_cases e : p = q
      · rw [e, upd_same, ← e, hwk]; rfl
      · rw [upd_ne _ _ e, hwk]; rfl
    rw [loc_upd_same (by rw [h1]; rfl)]
    exact hsame (loc_wake c _)
  | doze p c l hf => exact hsame (by rw [hf]; rfl)
  | kill p hf hu => exact hsame (loc_rouse _)
  | env x => exact hk.env _ _ x h

/-- An invariant of the data holds after every run. -/
theorem data_inv (hk : Keeps m u Parked J) (es : List (Ev P A I X)) {d : D}
    (hc : Along (St.step m) u.Meets (St.init d) es) (h0 : J d fun _ => none) :
    Wf (run (St.step m) (St.init d) es) ∧ AllParked Parked (run (St.step m) (St.init d) es) ∧
      J (run (St.step m) (St.init d) es).data (run (St.step m) (St.init d) es).loc := by
  refine run_move m u (J := fun s => Wf s ∧ AllParked Parked s ∧ J s.data s.loc) ?_ es hc ?_
  · intro s s' hm ⟨hw, hp, h⟩
    exact ⟨wf_move m u hm hw, parked_move hk hm hw h hp, data_move hk hm hw hp h⟩
  · exact ⟨wf_init d, fun p l _ hl => (by cases hl), h0⟩

/-- What a step must end with so that `G` holds of the data, and `F` of the data and of where
    the program stands; where a party sleeps, `F` says nothing of the data. -/
def Leaves (G : D → Prop) (F : D → L → Prop) (d : D) : Act C L → Prop
  | .go l => G d ∧ F d l
  | .wake _ l => G d ∧ F d l
  | .sleep _ l => G d ∧ ∀ d, F d l
  | .leave => G d

/-- The common case: an invariant of the data and, for each party, of the place where it stands. -/
structure Local (G : D → Prop) (F : D → L → Prop) : Prop where
  start : ∀ d p a, G d → F d (m.start p a)
  exec : ∀ p k d l i, G d → F d l → u.exec p k d l i → Leaves G F (m.step p k d l i).1 (m.step p k d l i).2
  env : ∀ d x, G d → G (m.env d x) ∧ ∀ l, F d l → F (m.env d x) l

omit [DecidableEq C] in
theorem keeps_local {G : D → Prop} {F : D → L → Prop} (h : Local (m := m) (u := u) G F) :
    Keeps m u (fun l => ∀ d, F d l) fun d ls => G d ∧ ∀ p l, ls p = some l → F d l := by
  refine ⟨fun d ls p a hj hp hall hu => ⟨hj.1, fun q l hq => ?_⟩, fun d ls p k l i hj hp hall hu => ?_,
    fun d ls x hj => ⟨(h.env d x hj.1).1, fun p l hp => (h.env d x hj.1).2 l (hj.2 p l hp)⟩⟩
  · by_cases e : q = p
    · rw [e, upd_same] at hq; cases hq; exact h.start d p a hj.1
    · rw [upd_ne _ _ e] at hq; exact hj.2 q l hq
  · have hx := h.exec p k d l i hj.1 (hj.2 p l hp) hu
    generalize (m.step p k d l i).1 = d' at hx
    generalize (m.step p k d l i).2 = a at hx
    have hall' : ∀ q l', upd ls p a.loc q = some l' → (a.loc = some l' → F d' l') → F d' l' := by
      intro q l' hq hf
      by_cases e : q = p
      · rw [e, upd_same] at hq; exact hf hq
      · rw [upd_ne _ _ e] at hq; exact hall q l' e hq d'
    cases a with
    | go l' | wake c l' =>
      exact ⟨⟨hx.1, fun q l'' hq => hall' q l'' hq fun e => by cases e; exact hx.2⟩, fun c l'' e => by cases e⟩
    | sleep c l' =>
      exact ⟨⟨hx.1, fun q l'' hq => hall' q l'' hq fun e => by cases e; exact hx.2 d'⟩,
        fun c l'' e => by cases e; exact hx.2⟩
    | leave => exact ⟨⟨hx, fun q l'' hq => hall' q l'' hq fun e => by cases e⟩, fun c l'' e => by cases e⟩

/-! ## Refinement -/

section
variable {D' : Type}

/-- The same parties in the same phases, over related data. -/
structure Sim (R : D → D' → Prop) (s : St P C D L) (t : St P C D' L) : Prop where
  data : R s.data t.data
  phase : s.phase = t.phase
  holder : s.holder = t.holder
  killed : s.killed = t.killed

structure Refines (m : Prog P C D L A I X) (m' : Prog P C D' L A I X) (R : D → D' → Prop) : Prop where
  start : m.start = m'.start
  step : ∀ p k d d' l i, R d d' → (m.step p k d l i).2 = (m'.step p k d' l i).2 ∧
    R (m.step p k d l i).1 (m'.step p k d' l i).1
  env : ∀ d d' x, R d d' → R (m.env d x) (m'.env d' x)

variable {m' : Prog P C D' L A I X} {R : D → D' → Prop}

omit [DecidableEq C] in
theorem sim_act {t : St P C D' L} (h : Sim R s t) (p : P) {d : D} {d' : D'} (hd : R d d') (a : Act C L) :
    Sim R (s.act p d a) (t.act p d' a) := by
  cases a with
  | go l | wake c l => exact ⟨hd, by simp only [St.act, h.phase], h.holder, h.killed⟩
  | sleep c l | leave => exact ⟨hd, by simp only [St.act, h.phase], rfl, h.killed⟩

theorem sim_step (hr : Refines m m' R) {t : St P C D' L} (h : Sim R s t) (e : Ev P A I X) :
    Sim R (s.step m e) (t.step m' e) := by
  cases e with
  | call p a =>
    simp only [St.step, h.holder, h.phase, hr.start]
    split
    · exact ⟨h.data, rfl, rfl, h.killed⟩
    · exact h
  | resume p =>
    simp only [St.step, h.holder, h.phase]
    split
    · exact ⟨h.data, rfl, rfl, h.killed⟩
    · exact h
  | exec p i =>
    simp only [St.step, h.phase, h.killed]
    split
    · rename_i l _
      obtain ⟨h1, h2⟩ := hr.step p (t.killed p) s.data t.data l i h.data
      rw [h1]
      exact sim_act h p h2 _
    · exact h
  | visit p =>
    simp only [St.step, h.phase]
    split
    · exact ⟨h.data, rfl, h.holder, h.killed⟩
    · split
      · exact h
      · exact ⟨h.data, rfl, h.holder, h.killed⟩
    · exact h
  | doze p =>
    simp only [St.step, h.phase]
    split
    · exact ⟨h.data, rfl, h.holder, h.killed⟩
    · exact h
  | kill p =>
    simp only [St.step, h.phase, h.killed]
    split
    · exact h
    · exact ⟨h.data, rfl, h.holder, rfl⟩
  | env x => exact ⟨hr.env _ _ x h.data, h.phase, h.holder, h.killed⟩

/-- Along the same events the two programs stay together. -/
theorem sim_run (hr : Refines m m' R) (es : List (Ev P A I X)) : ∀ {s : St P C D L} {t : St P C D' L}, Sim R s t →
    Sim R (run (St.step m) s es) (run (St.step m') t es) := by
  induction es with
  | nil => intro s t h; exact h
  | cons e es ih => intro s t h; exact ih (sim_step hr h e)

end

end Xv6.Lib.Monitor
