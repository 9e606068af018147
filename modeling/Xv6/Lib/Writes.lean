/-
  Xv6.Lib.Writes — a store of cells and the writes made to it, one cell at a time and
  in order. A crash keeps a prefix of the writes.
-/

namespace Xv6.Lib

variable {α β : Type} [DecidableEq α]

/-- `d` with cell `a` holding `v`. -/
def upd (d : α → β) (a : α) (v : β) : α → β := fun x => if x = a then v else d x

@[simp] theorem upd_same (d : α → β) (a : α) (v : β) : upd d a v a = v := by simp [upd]

variable {x : α} {ws : List (α × β)}

theorem upd_ne (d : α → β) {a : α} (v : β) (h : x ≠ a) : upd d a v x = d x := by simp [upd, h]

theorem upd_eq {d : α → β} {a : α} {v w : β} : upd d a v x = w ↔ (x = a ∧ v = w) ∨ (x ≠ a ∧ d x = w) := by
  by_cases h : x = a
  · subst h; simp
  · simp [upd_ne _ _ h, h]

/-- What holds of the new value, and of the old ones elsewhere, holds everywhere. -/
theorem upd_forall {Q : α → β → Prop} {d : α → β} {a : α} {v : β} (hv : Q a v) (hd : ∀ x, x ≠ a → Q x (d x)) (x : α) :
    Q x (upd d a v x) := by
  by_cases h : x = a
  · rw [h, upd_same]; exact hv
  · rw [upd_ne _ _ h]; exact hd x h

@[simp] theorem upd_upd (d : α → β) (a : α) (v w : β) : upd (upd d a v) a w = upd d a w := by
  funext x
  simp only [upd]
  split <;> rfl

theorem upd_comm (d : α → β) {a b : α} (v w : β) (h : a ≠ b) : upd (upd d a v) b w = upd (upd d b w) a v := by
  funext x
  by_cases ha : x = a
  · subst ha
    rw [upd_ne _ _ h, upd_same, upd_same]
  · by_cases hb : x = b
    · subst hb
      rw [upd_same, upd_ne _ _ ha, upd_same]
    · rw [upd_ne _ _ hb, upd_ne _ _ ha, upd_ne _ _ ha, upd_ne _ _ hb]

theorem upd_self (d : α → β) (a : α) : upd d a (d a) = d := by
  funext x
  by_cases h : x = a
  · rw [h, upd_same]
  · exact upd_ne _ _ h

@[simp] theorem upd_const (a : α) (v : β) : upd (fun _ => v) a v = fun _ => v := upd_self (fun _ => v) a

theorem comp_upd {γ : Type} (f : β → γ) (d : α → β) (a : α) (v : β) :
    (fun x => f (upd d a v x)) = upd (fun x => f (d x)) a (f v) := by
  funext x
  by_cases h : x = a
  · rw [h, upd_same, upd_same]
  · rw [upd_ne _ _ h, upd_ne _ _ h]

def putAll (ws : List (α × β)) (d : α → β) : α → β := ws.foldl (fun d w => upd d w.1 w.2) d

@[simp] theorem putAll_nil (d : α → β) : putAll [] d = d := rfl

@[simp] theorem putAll_cons (w : α × β) (ws : List (α × β)) (d : α → β) :
    putAll (w :: ws) d = putAll ws (upd d w.1 w.2) := rfl

theorem putAll_append (ws vs : List (α × β)) (d : α → β) : putAll (ws ++ vs) d = putAll vs (putAll ws d) :=
  List.foldl_append

def lastPut (ws : List (α × β)) (x : α) : Option β := (ws.reverse.find? fun w => w.1 = x).map (·.2)

theorem lastPut_append (ws vs : List (α × β)) (x : α) : lastPut (ws ++ vs) x = (lastPut vs x).or (lastPut ws x) := by
  simp only [lastPut, List.reverse_append, List.find?_append]
  cases vs.reverse.find? fun w => decide (w.1 = x) <;> simp

theorem lastPut_eq_none : lastPut ws x = none ↔ ∀ w ∈ ws, w.1 ≠ x := by
  simp [lastPut]

theorem lastPut_mem {v : β} (h : lastPut ws x = some v) : (x, v) ∈ ws := by
  obtain ⟨w, hw, rfl⟩ := Option.map_eq_some_iff.mp h
  have h1 : w.1 = x := by simpa using List.find?_some hw
  have h2 := List.mem_of_find?_eq_some hw
  subst h1
  exact List.mem_reverse.mp h2

/-- A cell holds the last write to it, or what it held before. -/
theorem putAll_apply (ws : List (α × β)) (d : α → β) (x : α) : putAll ws d x = (lastPut ws x).getD (d x) := by
  induction ws generalizing d with
  | nil => rfl
  | cons w ws ih =>
    rw [putAll_cons, ih, ← List.singleton_append, lastPut_append]
    cases lastPut ws x with
    | some v => rfl
    | none => by_cases e : x = w.1 <;> simp [lastPut, upd, e, Ne.symm]

theorem putAll_frame (d : α → β) (h : ∀ w ∈ ws, w.1 ≠ x) : putAll ws d x = d x := by
  rw [putAll_apply, lastPut_eq_none.mpr h]; rfl

/-- Writes that give every cell they name the value `f` assigns to it. -/
theorem putAll_val {f : α → β} (d : α → β) (hf : ∀ w ∈ ws, w.2 = f w.1) (hx : ∃ w ∈ ws, w.1 = x) :
    putAll ws d x = f x := by
  rw [putAll_apply]
  cases h : lastPut ws x with
  | some v => exact hf _ (lastPut_mem h)
  | none =>
    obtain ⟨w, hw, e⟩ := hx
    exact absurd e (lastPut_eq_none.mp h w hw)

end Xv6.Lib
