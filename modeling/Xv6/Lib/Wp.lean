/-
  Xv6.Lib.Wp — programs that pass a state along and may stop with an error
  (`StateT σ (Except ε)`), and weakest preconditions for them. `wp m Q E s`: run from `s`,
  `m` either returns some `a` in a state `t` with `Q a t`, or stops with some `e` with
  `E e`.
-/

namespace Xv6.Lib

variable {σ ε α β : Type}

abbrev Prog (σ ε α : Type) := StateT σ (Except ε) α

def wp (m : Prog σ ε α) (Q : α → σ → Prop) (E : ε → Prop) (s : σ) : Prop :=
  match m s with
  | .ok (a, t) => Q a t
  | .error e => E e

variable {Q : α → σ → Prop} {E : ε → Prop} {s : σ}

/-! ## One rule per construct -/

@[simp] theorem wp_pure (a : α) : wp (pure a) Q E s = Q a s := rfl

@[simp] theorem wp_get {Q : σ → σ → Prop} : wp get Q E s = Q s s := rfl

@[simp] theorem wp_set (t : σ) {Q : PUnit → σ → Prop} : wp (set t) Q E s = Q ⟨⟩ t := rfl

@[simp] theorem wp_modify (f : σ → σ) {Q : PUnit → σ → Prop} : wp (modify f) Q E s = Q ⟨⟩ (f s) := rfl

@[simp] theorem wp_throw (e : ε) : wp (throw e : Prog σ ε α) Q E s = E e := rfl

@[simp] theorem wp_bind (m : Prog σ ε α) (f : α → Prog σ ε β) {Q : β → σ → Prop} :
    wp (m >>= f) Q E s = wp m (fun a => wp (f a) Q E) E s := by
  simp only [wp, bind, StateT.bind, Except.bind]
  cases m s <;> rfl

@[simp] theorem wp_discard (m : Prog σ ε α) {Q : PUnit → σ → Prop} :
    wp (discard m) Q E s = wp m (fun _ => Q ⟨⟩) E s := by
  simp only [wp, discard, Functor.discard, Functor.mapConst, Function.comp, StateT.map, bind, Except.bind]
  cases m s <;> rfl

@[simp] theorem wp_ite (c : Prop) [Decidable c] (m m' : Prog σ ε α) :
    wp (if c then m else m') Q E s = if c then wp m Q E s else wp m' Q E s := by
  split <;> rfl

/-! ## Consequence and composition -/

variable {Q' : α → σ → Prop} {m : Prog σ ε α} {f : α → Prog σ ε β} {a : α} {t : σ}

theorem wp_imp {E' : ε → Prop} (h : wp m Q E s) (hq : ∀ a t, Q a t → Q' a t) (he : ∀ e, E e → E' e) : wp m Q' E' s := by
  simp only [wp] at h ⊢
  cases hm : m s with
  | error e => rw [hm] at h; exact he e h
  | ok r => rw [hm] at h; exact hq r.1 r.2 h

/-- The rule of sequence. -/
theorem wp_then {Q : β → σ → Prop} (h : wp m (fun a => wp (f a) Q E) E s) : wp (m >>= f) Q E s := by
  rw [wp_bind]
  exact h

theorem wp_mono (h : wp m Q E s) (hq : ∀ a t, Q a t → Q' a t) : wp m Q' E s :=
  wp_imp h hq fun _ => id

/-- Nothing is asked of a stop, and what is asked of a return always holds. -/
theorem wp_any (h : ∀ a t, Q a t) : wp m Q (fun _ => True) s := by
  unfold wp
  split
  · exact h _ _
  · trivial

theorem wp_and {E' : ε → Prop} (h : wp m Q E s) (h' : wp m Q' E' s) :
    wp m (fun a t => Q a t ∧ Q' a t) (fun e => E e ∧ E' e) s := by
  unfold wp at h h' ⊢
  split at h <;> next hm =>
    rw [hm] at h'
    exact ⟨h, h'⟩

/-- Sequencing: what the first part leaves is what the rest starts from. -/
theorem wp_seq {P : α → σ → Prop} {Q : β → σ → Prop} (h : wp m P E s) (hf : ∀ a t, P a t → wp (f a) Q E t) :
    wp (m >>= f) Q E s := by
  rw [wp_bind]
  exact wp_mono h hf

theorem wp_if {c : Prop} [Decidable c] {m' : Prog σ ε α} (h : c → wp m Q E s) (h' : ¬ c → wp m' Q E s) :
    wp (if c then m else m') Q E s := by
  split
  · exact h ‹_›
  · exact h' ‹_›

/-! ## Reading a result back -/

/-- What a run stops with, if it does. -/
def stop (m : Prog σ ε α) (s : σ) : Option ε :=
  match m s with
  | .ok _ => none
  | .error e => some e

theorem wp_ok (h : wp m Q E s) (hm : m s = .ok (a, t)) : Q a t := by
  simpa only [wp, hm] using h

theorem wp_error {e : ε} (h : wp m Q E s) (hm : m s = .error e) : E e := by
  simpa only [wp, hm] using h

theorem bind_ok {b : β} (h : (m >>= f) s = .ok (b, t)) : ∃ a u, m s = .ok (a, u) ∧ f a u = .ok (b, t) := by
  simp only [bind, StateT.bind, Except.bind] at h
  split at h
  · cases h
  · next r hr => exact ⟨r.1, r.2, hr, h⟩

/-- A sequence whose first part is known to return goes on from there. -/
theorem run_bind (hm : m s = .ok (a, t)) : (m >>= f) s = f a t := by
  simp only [bind, StateT.bind, Except.bind, hm]

theorem wp_after {Q : β → σ → Prop} (hm : m s = .ok (a, t)) (h : wp (f a) Q E t) : wp (m >>= f) Q E s := by
  unfold wp
  rw [run_bind hm]
  exact h

/-- What holds of the state a run ends in, or of what stops it, holds of its outcome. -/
theorem wp_outcome {P : Except ε σ → Prop} (h : wp m (fun _ t => P (.ok t)) (fun e => P (.error e)) s) :
    P ((m s).map (·.2)) := by
  simp only [wp] at h
  cases hm : m s with
  | error e | ok r => rw [hm] at h; exact h

theorem wp_cases (h : wp m Q E s) : (∃ a t, m s = .ok (a, t) ∧ Q a t) ∨ ∃ e, m s = .error e ∧ E e := by
  simp only [wp] at h
  cases hm : m s with
  | error e => rw [hm] at h; exact .inr ⟨e, rfl, h⟩
  | ok r => rw [hm] at h; exact .inl ⟨r.1, r.2, rfl, h⟩

theorem wp_total (h : wp m Q (fun _ => False) s) : ∃ a t, m s = .ok (a, t) ∧ Q a t := by
  simp only [wp] at h
  cases hm : m s with
  | error e => rw [hm] at h; exact h.elim
  | ok r => rw [hm] at h; exact ⟨r.1, r.2, rfl, h⟩

/-- A program shown to return `a` in `t` and never to stop does just that. -/
theorem wp_run (h : wp m (fun b u => b = a ∧ u = t) (fun _ => False) s) : m s = .ok (a, t) := by
  obtain ⟨b, u, hm, h1, h2⟩ := wp_total h
  rw [hm, h1, h2]

/-- And a program known to return `a` in `t` meets what holds of them. -/
theorem wp_of_run (hm : m s = .ok (a, t)) (hq : Q a t) : wp m Q E s := by
  simp only [wp, hm]
  exact hq

end Xv6.Lib
