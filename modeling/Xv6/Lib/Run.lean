/-
  Xv6.Lib.Run — runs of a machine given by a total step function over events: the state
  after a list of events, a condition that every step or every state of a run meets, what
  a run outputs, and the rule that what holds at the start and is kept by every step
  holds along the whole run.
-/

namespace Xv6.Lib

variable {σ ε : Type} (f : σ → ε → σ)

/-- The state after the events `es`. -/
def run (s : σ) (es : List ε) : σ := es.foldl f s

@[simp] theorem run_nil (s : σ) : run f s [] = s := rfl

@[simp] theorem run_cons (s : σ) (e : ε) (es : List ε) : run f s (e :: es) = run f (f s e) es := rfl

theorem run_append (s : σ) (es fs : List ε) : run f s (es ++ fs) = run f (run f s es) fs := List.foldl_append

/-- Every step of the run meets `C`, a condition on the state before it and the event. -/
def Along (C : σ → ε → Prop) : σ → List ε → Prop
  | _, [] => True
  | s, e :: es => C s e ∧ Along C (f s e) es

instance instDecidableAlong (C : σ → ε → Prop) [∀ s e, Decidable (C s e)] : ∀ s es, Decidable (Along f C s es)
  | _, [] => isTrue trivial
  | s, e :: es => @instDecidableAnd _ _ _ (instDecidableAlong C (f s e) es)

/-- Every state of the run, the first and the last included, meets `I`. -/
def Always (I : σ → Prop) : σ → List ε → Prop
  | s, [] => I s
  | s, e :: es => I s ∧ Always I (f s e) es

instance instDecidableAlways (I : σ → Prop) [DecidablePred I] : ∀ s es, Decidable (Always f I s es)
  | s, [] => inferInstanceAs (Decidable (I s))
  | s, e :: es => @instDecidableAnd _ _ _ (instDecidableAlways I (f s e) es)

/-- What the steps of a run output, in order. -/
def outs {β : Type} (o : σ → ε → Option β) : σ → List ε → List β
  | _, [] => []
  | s, e :: es => (o s e).toList ++ outs o (f s e) es

variable {f}

variable {I : σ → Prop}

/-- What holds in every state of a run holds in its first. -/
theorem Always.head {s : σ} : ∀ {es : List ε}, Always f I s es → I s
  | [], h => h
  | _ :: _, h => h.1

/-- An output of a run is the output of one of its steps; `J` is an invariant and `I`
    what holds throughout. -/
theorem outs_mem {β : Type} {o : σ → ε → Option β} {I J : σ → Prop} {R : β → Prop} (hJ : ∀ s e, J s → J (f s e))
    (ho : ∀ s e b, J s → I s → o s e = some b → R b) (es : List ε) :
    ∀ {s : σ}, J s → Always f I s es → ∀ b ∈ outs f o s es, R b := by
  induction es with
  | nil => intro s _ _ b hb; cases hb
  | cons e es ih =>
    intro s hj hi b hb
    rcases List.mem_append.mp hb with h | h
    · exact ho s e b hj hi.head (Option.mem_toList.mp h)
    · exact ih (hJ s e hj) hi.2 b h

/-- What every step meeting `C` keeps, a run meeting it keeps. -/
theorem run_inv {C : σ → ε → Prop} (hs : ∀ s e, C s e → I s → I (f s e)) (es : List ε) :
    ∀ {s : σ}, Along f C s es → I s → I (run f s es) := by
  induction es with
  | nil => intro s _ h; exact h
  | cons e es ih => intro s hc h; exact ih hc.2 (hs s e hc.1 h)

/-- The same, with no condition on the steps. -/
theorem run_keeps (hs : ∀ s e, I s → I (f s e)) (es : List ε) : ∀ {s : σ}, I s → I (run f s es) := by
  induction es with
  | nil => intro s h; exact h
  | cons e es ih => intro s h; exact ih (hs s e h)

end Xv6.Lib
