/-
  Xv6.Smp.Code — the code on the stacks of `Xv6.Smp.Threads`. It is well formed (`Wf`):
  what is acquired is counted on later, each operation stands on a stack of its own kind
  of thread, only what leads up to it stands above an operation inside a critical section,
  and a call stands at the bottom of its stack. An operation goes on with well-formed code
  that counts on the same locks, and `Write` lists what it writes.
-/

import Xv6.Smp.Threads

namespace Xv6.Smp

open Lib
open Sched (Slot Proc Chan ProcState freeproc incr charge)

/-! ## Well-formed code -/

/-- The operation can stand on the stack of process `o`, or of a scheduler if there is none. -/
def Op.Fits : Option Slot → Op → Prop
  | none, .scheduler _ _ | none, .dispatch _ _ _ | none, .swtch _ | none, .switched _ => True
  | none, .wakeup _ _ | none, .wake _ _ _ | none, .panic => True
  | none, _ => False
  | some _, .scheduler _ _ | some _, .dispatch _ _ _ | some _, .swtch _ | some _, .switched _ => False
  | some p, .giveUp q | some p, .doze q _ | some p, .tidy q | some p, .die q _ | some p, .zombieExit q => q = p
  | some p, .kwaitKilled q | some p, .setkilled q | some p, .killedTest q => q = p
  | some _, _ => True

/-- Operations of `kfork`, `kexit` and `kwait`. -/
def Op.isCall : Op → Bool
  | .allocproc _ | .allocTest _ _ | .allocpid _ | .allocMem _ | .forkCopy _ | .setParent _ | .forkEnd _ => true
  | .kexit _ | .killedTest _ | .body _ (some _) | .reparent _ _ | .exitLast _ | .die _ _ | .zombieExit _ => true
  | .kwaitScan _ _ | .kwaitTest _ _ | .kwaitKilled _ | .kwaitRet _ => true
  -- inside them, a process sleeps on itself and wakes others that do
  | .sleep c _ | .doze _ c | .wakeup (some c) _ | .wake (some c) _ _ => Chan.isProc c
  | _ => false

/-- Those of them that wait for a `sleep` or a `wakeup` to return. -/
def Op.isSuper : Op → Bool
  | .kwaitScan havekids todo => havekids = false ∧ todo = all
  | .reparent _ _ | .exitLast _ => true
  | _ => false

def Idle : Code → Prop
  | [] => True
  | .op i :: k => i.isCall = false ∧ Idle k
  | .acquire _ :: k | .release _ :: k => Idle k

def Waits : Code → Prop
  | [] => True
  | .op i :: k => (i.isCall = true → i.isSuper = true) ∧ Waits k
  | .acquire _ :: k | .release _ :: k => Waits k

/-- The operations that say nothing about the family of the process: it does not hold `wait_lock`, or it is about to
    start a scan under it. -/
def Op.isCalm : Op → Bool
  | .exitLast _ | .die _ _ | .kwaitTest _ _ | .kwaitKilled _ => false
  | .sleep c _ | .wakeup (some c) _ | .wake (some c) _ _ => !Chan.isProc c
  | .kwaitScan havekids todo => havekids = false ∧ todo = all
  | .reparent _ todo => todo = all
  | _ => true

def Calm : Code → Prop
  | [] => True
  | .op i :: k => i.isCalm = true ∧ Calm k
  | .acquire _ :: k | .release _ :: k => Calm k

/-- Where `sched` returns to, in another turn of the process. -/
inductive Back (p : Slot) : Code → Prop
  | yield (k : Code) : Back p (.release (.proc p) :: k)
  | sleep (k : Code) : Back p (.op (.tidy p) :: k)
  | exit (k : Code) : Back p (.op (.zombieExit p) :: k)

def Op.Above (k : Code) : Op → Prop
  | .scheduler _ _ | .dispatch _ _ _ | .switched _ | .body _ none => k = []
  | .swtch p => k = [.op (.switched p)]
  | .sleep c l =>
    l ∈ held Op.holds k ∧ (Chan.isProc c = true → l = .wait ∧ Calm k ∧ Waits k) ∧
    (Chan.isProc c = false → ∃ a, l = .other a)
  | .doze _ c => Chan.isProc c = true → Waits k
  | .wakeup (some c) _ | .wake (some c) _ _ => Chan.isProc c = true → Waits k ∧ .wait ∈ held Op.holds k
  | .sched => ∃ p, Back p k
  | i => i.isCall = true → Idle k

def isWake : Lib.Code Lock Op → Bool
  | .op (.wakeup _ _) | .op (.wake _ _ _) => true
  | _ => false

/-- What can stand right above an operation: inside a critical section, only what leads up to it. -/
def Op.Under (c : Lib.Code Lock Op) : Op → Prop
  | .allocpid _ => c = .acquire .pid
  | .allocMem _ => c = .release .pid
  | .forkCopy _ => False
  | .kwaitTest q _ => c = .acquire (.proc q)
  | .kwaitKilled p | .die p _ => c = .acquire (.proc p)
  | .exitLast _ => isWake c = true
  | .reparent _ todo => isWake c = true ∨ c = .acquire .wait ∧ todo = all
  | _ => True

def Tops (c : Lib.Code Lock Op) : Code → Prop
  | .op i :: _ => i.Under c
  | .acquire .pid :: .op (.allocpid _) :: _ | .release .pid :: _ => c = .op .panic
  | _ => True

def Wf (o : Option Slot) : Code → Prop
  | [] => True
  | .acquire l :: k => l ∈ held Op.holds k ∧ (l = .wait → Calm k) ∧ Tops (.acquire l) k ∧ Wf o k
  | .release l :: k => (l = .wait → Calm k) ∧ Tops (.release l) k ∧ Wf o k
  | .op i :: k => i.Fits o ∧ i.Above k ∧ Tops (.op i) k ∧ Wf o k

variable {c : Lib.Code Lock Op} {l : Lock} {o : Option Slot}

@[simp] theorem tops_nil : Tops c [] := trivial

variable {k : Code} {i : Op}

@[simp] theorem tops_op : Tops c (.op i :: k) ↔ i.Under c := .rfl

@[simp] theorem tops_acquire :
    Tops c (.acquire l :: k) ↔ (l = .pid → (∃ q k', k = .op (.allocpid q) :: k') → c = .op .panic) := by
  cases l <;> rcases k with _ | ⟨_ | _ | i, k⟩ <;> first | (simp [Tops]; done) | (cases i <;> simp [Tops])

@[simp] theorem tops_release : Tops c (.release l :: k) ↔ (l = .pid → c = .op .panic) := by cases l <;> simp [Tops]

@[simp] theorem wf_nil : Wf o [] := trivial

@[simp] theorem wf_acquire :
    Wf o (.acquire l :: k) ↔ l ∈ held Op.holds k ∧ (l = .wait → Calm k) ∧ Tops (.acquire l) k ∧ Wf o k := .rfl

@[simp] theorem wf_release : Wf o (.release l :: k) ↔ (l = .wait → Calm k) ∧ Tops (.release l) k ∧ Wf o k := .rfl

@[simp] theorem wf_op : Wf o (.op i :: k) ↔ i.Fits o ∧ i.Above k ∧ Tops (.op i) k ∧ Wf o k := .rfl

theorem wf_tail (h : Wf o (c :: k)) : Wf o k := by
  cases c with
  | acquire l => exact h.2.2.2
  | release l => exact h.2.2
  | op i => exact h.2.2.2

/-- What stands below one operation of `wakeup` can stand below another. -/
theorem tops_wake {d : Lib.Code Lock Op} (h : Tops c k) (hc : isWake c = true) (hd : isWake d = true) : Tops d k := by
  have hp : c ≠ .op .panic := fun e => by rw [e] at hc; cases hc
  rcases k with _ | ⟨l | l | j, k⟩
  · trivial
  · exact tops_acquire.mpr fun e e' => absurd (tops_acquire.mp h e e') hp
  · exact tops_release.mpr fun e => absurd (tops_release.mp h e) hp
  · cases j <;> simp_all [Op.Under] <;> subst h <;> cases hc

/-- What stands below an operation other than `wakeup` can stand below anything. -/
theorem tops_any {d : Lib.Code Lock Op} (h : Tops (.op i) k) (hc : isWake (.op i) = false)
    (hp : i ≠ .panic) : Tops d k := by
  have hp : Lib.Code.op i ≠ (.op .panic : Lib.Code Lock Op) := fun e => hp (Lib.Code.op.inj e)
  rcases k with _ | ⟨l | l | j, k⟩
  · trivial
  · exact tops_acquire.mpr fun e e' => absurd (tops_acquire.mp h e e') hp
  · exact tops_release.mpr fun e => absurd (tops_release.mp h e) hp
  · cases j <;> simp_all [Op.Under]

@[simp] theorem idle_nil : Idle [] := trivial

@[simp] theorem idle_op : Idle (.op i :: k) ↔ i.isCall = false ∧ Idle k := .rfl

@[simp] theorem idle_acquire : Idle (.acquire l :: k) ↔ Idle k := .rfl

@[simp] theorem idle_release : Idle (.release l :: k) ↔ Idle k := .rfl

@[simp] theorem waits_op :
    Waits (.op i :: k) ↔ (i.isCall = true → i.isSuper = true) ∧ Waits k := .rfl

@[simp] theorem waits_acquire : Waits (.acquire l :: k) ↔ Waits k := .rfl

@[simp] theorem waits_release : Waits (.release l :: k) ↔ Waits k := .rfl

@[simp] theorem calm_nil : Calm [] := trivial

@[simp] theorem calm_op : Calm (.op i :: k) ↔ i.isCalm = true ∧ Calm k := .rfl

@[simp] theorem calm_acquire : Calm (.acquire l :: k) ↔ Calm k := .rfl

@[simp] theorem calm_release : Calm (.release l :: k) ↔ Calm k := .rfl

theorem idle_calm (h : Idle k) : Calm k := by
  induction k with
  | nil => trivial
  | cons c k ih =>
    cases c with
    | acquire l | release l => exact ih h
    | op i =>
      refine ⟨?_, ih h.2⟩
      cases i with
      | wakeup c todo | wake c q todo => cases c <;> simp_all [Op.isCall, Op.isCalm]
      | _ => simp_all [Op.isCall, Op.isCalm]

theorem idle_waits (h : Idle k) : Waits k := by
  induction k with
  | nil => trivial
  | cons c k ih =>
    cases c with
    | acquire l | release l => exact ih h
    | op i =>
      refine ⟨fun hi => ?_, ih h.2⟩
      rw [h.1] at hi
      cases hi

theorem wf_balanced (h : Wf o k) : Balanced Op.holds k := by
  induction k with
  | nil => trivial
  | cons c k ih =>
    have hk := ih (wf_tail h)
    cases c with
    | acquire l => exact ⟨h.1, hk⟩
    | release l | op i => exact hk

section Effects

variable {H : Type} {s : St H} {p : Slot} {ok : Bool} {i : Op} {k : Code}

/-- An operation goes on with code that is well formed and counts on the same locks. -/
theorem exec_wf (h : Wf (some p) (.op i :: k)) (hw : isWake (.op i) = false) (hp : i ≠ .panic) :
    Wf (some p) ((exec s p ok i).code ++ k) ∧
      (held Op.holds ((exec s p ok i).code ++ k)).Perm (held Op.holds (.op i :: k)) := by
  obtain ⟨hf, ha, ht, hk⟩ := h
  replace ht : ∀ c, Tops c k := fun c => tops_any ht hw hp
  -- where `sched` returns to
  have hb : (∃ p', Back p' (.release (.proc p) :: k)) ∧ (∃ p', Back p' (.op (.tidy p) :: k)) ∧
      ∃ p', Back p' (.op (.zombieExit p) :: k) := ⟨⟨p, .yield k⟩, ⟨p, .sleep k⟩, ⟨p, .exit k⟩⟩
  fun_cases exec s p ok i
  all_goals first
    | simp_all [Op.holds, Op.Fits, Op.Above, Op.Under, Op.isCall, Op.isSuper, Op.isCalm,
      Chan.isProc, idle_waits, idle_calm, isWake,
        Op.stop]; done
    | skip
  · -- `sleep`: the lock it is given is released and taken again
    rename_i c l
    obtain ⟨hl, hq, hw⟩ := ha
    have hp : (held Op.holds k).Perm (l :: (held Op.holds k).erase l) := List.perm_cons_erase hl
    cases hc : Chan.isProc c with
    | true =>
      obtain ⟨rfl, hm, hw'⟩ := hq hc
      simp_all [Op.holds, Op.Fits, Op.Above, Op.Under, Op.isCalm, hp.symm]
    | false =>
      obtain ⟨a, rfl⟩ := hw hc
      simp_all [Op.holds, Op.Fits, Op.Above, Op.Under, hp.symm]
  · -- the end of `reparent`
    cases hr : (s.proc p).parent <;>
      simp_all [Op.holds, Op.Fits, Op.Above, Op.Under, Op.isCall, Op.isSuper, idle_waits, isWake]

theorem effect_wf {o me : Option Slot} (h : Wf o (.op i :: k)) (ho : o.isSome → me = o) (hs : ∀ q, i ≠ .swtch q) :
    Wf o ((effect s me ok i).code ++ k) ∧
      (held Op.holds ((effect s me ok i).code ++ k)).Perm (held Op.holds (.op i :: k)) := by
  have ⟨hf, ha, ht, hk⟩ := h
  cases i with
  | panic => simp_all [effect, Op.holds, Op.Fits, Op.Above, Op.isCall]
  | scheduler pr todo => cases o <;> cases todo <;> simp_all [effect, Op.holds, Op.Fits, Op.Above, Op.Under]
  | dispatch p pr todo => cases o <;> simp only [effect] <;> split <;> simp_all [Op.holds, Op.Fits, Op.Above, Op.Under]
  | switched p => cases o <;> simp_all [effect, Op.holds, Op.Fits, Op.Above, Op.Under]
  | wakeup c todo =>
    cases todo with
    | nil => simp_all [effect, Op.holds]
    | cons q todo =>
      have hw : Tops (.op (.wakeup c todo)) k := tops_wake ht rfl rfl
      have hw' : Tops (.op (.wake c q todo)) k := tops_wake ht rfl rfl
      simp only [effect]
      split <;> cases o <;> cases c <;> simp_all [Op.holds, Op.Fits, Op.Above, Op.Under, Op.isCall]
  | wake c q todo =>
    have hw : Tops (.op (.wakeup c todo)) k := tops_wake ht rfl rfl
    cases o <;> cases c <;> simp_all [effect, Op.holds, Op.Fits, Op.Above, Op.Under, Op.isCall]
  | swtch p => exact absurd rfl (hs p)
  | _ =>
    cases o with
    | none => exact hf.elim
    | some p =>
      rw [ho rfl]
      exact exec_wf h rfl Op.noConfusion

end Effects

/-! ## What an operation writes -/

/-- `allocproc` has found slot `q`, and has its lock. -/
inductive Found (q : Slot) : Code → Prop
  | lock (k : Code) : Found q (.acquire .pid :: .op (.allocpid q) :: k)
  | pid (k : Code) : Found q (.op (.allocpid q) :: k)
  | unlock (k : Code) : Found q (.release .pid :: .op (.allocMem q) :: k)
  | mem (k : Code) : Found q (.op (.allocMem q) :: k)

/-- The process that `kfork` is making. -/
def Op.np : Op → Option Slot
  | .forkCopy q | .setParent q | .forkEnd q => some q
  | _ => none

section Writes

variable {H : Type} {s : St H} {me : Option Slot} {ok : Bool} {i : Op} {q : Slot} {v : Proc}

inductive Write (s : St H) : Option Slot → Op → Slot → Proc → Prop
  | dispatch (me : Option Slot) (q : Slot) (priority : Int) (todo : List Slot) (state : (s.proc q).state = .runnable) :
      Write s me (.dispatch q priority todo) q { s.proc q with state := .running }
  | wake (me : Option Slot) (c : Option Chan) (q : Slot) (todo : List Slot) (state : (s.proc q).state = .sleeping) :
      Write s me (.wake c q todo) q { s.proc q with state := .runnable }
  | giveUp (p q : Slot) : Write s (some p) (.giveUp q) q { s.proc q with state := .runnable }
  | charge (p : Slot) : Write s (some p) .charge p (charge (s.proc p))
  | doze (p q : Slot) (c : Chan) : Write s (some p) (.doze q c) q { s.proc q with chan := some c, state := .sleeping }
  | tidy (p q : Slot) : Write s (some p) (.tidy q) q { s.proc q with chan := none }
  | allocpid (p q : Slot) : Write s (some p) (.allocpid q) q { s.proc q with pid := s.nextpid }
  | alloc (p q : Slot) :
      Write s (some p) (.allocMem q) q { s.proc q with state := .used, priority := 0, ticksUsed := 0 }
  | allocFail (p q : Slot) :
      Write s (some p) (.allocMem q) q (freeproc { s.proc q with state := .used, priority := 0, ticksUsed := 0 })
  | undo (p q : Slot) : Write s (some p) (.forkCopy q) q (freeproc (s.proc q))
  | setParent (p q : Slot) : Write s (some p) (.setParent q) q { s.proc q with parent := some p }
  | forkEnd (p q : Slot) : Write s (some p) (.forkEnd q) q { s.proc q with state := .runnable }
  | reparent (p q : Slot) (status : Int) (todo : List Slot) (parent : (s.proc q).parent = some p) :
      Write s (some p) (.reparent status (q :: todo)) q { s.proc q with parent := some s.initproc }
  | die (p q : Slot) (status : Int) :
      Write s (some p) (.die q status) q { s.proc q with xstate := status, state := .zombie }
  | reap (p q : Slot) (todo : List Slot) (state : (s.proc q).state = .zombie) :
      Write s (some p) (.kwaitTest q todo) q (freeproc (s.proc q))
  | kill (p q : Slot) (pid : Int) (todo : List Slot) :
      Write s (some p) (.killTest pid q todo) q
        { s.proc q with killed := true, state := if (s.proc q).state = .sleeping then .runnable else (s.proc q).state }
  | setkilled (p q : Slot) : Write s (some p) (.setkilled q) q { s.proc q with killed := true }

theorem exec_set {p : Slot} (h : (exec s p ok i).set = some (q, v)) : Write s (some p) i q v := by
  revert h
  fun_cases exec s p ok i <;> grind [Write, Op.stop]

theorem effect_set (h : (effect s me ok i).set = some (q, v)) : Write s me i q v := by
  revert h
  fun_cases effect s me ok i <;> grind [Write, Op.stop, exec_set]

theorem effect_cproc (hd : ∀ a b c, i ≠ .dispatch a b c) (hs : ∀ a, i ≠ .switched a) :
    (effect s me ok i).cproc = none := by
  have hexec (p : Slot) : (exec s p ok i).cproc = none := by fun_cases exec s p ok i <;> rfl
  fun_cases effect s me ok i <;> first | rfl | exact absurd rfl (hd _ _ _) | exact absurd rfl (hs _) | exact hexec _

/-- Only `allocproc` sets up a context. -/
theorem effect_ctx (h : (effect s me ok i).ctx = some q) : i = .allocMem q ∧
    (effect s me ok i).set = some (q, { s.proc q with state := .used, priority := 0, ticksUsed := 0 }) ∧
      (effect s me ok i).code = [.op (.forkCopy q)] := by
  have hexec (p : Slot) : (exec s p ok i).ctx = some q → i = .allocMem q ∧
      (exec s p ok i).set = some (q, { s.proc q with state := .used, priority := 0, ticksUsed := 0 }) ∧
        (exec s p ok i).code = [.op (.forkCopy q)] := by
    fun_cases exec s p ok i <;> intro h <;> cases h
    exact ⟨rfl, rfl, rfl⟩
  revert h
  fun_cases effect s me ok i <;> first | exact hexec _ | (intro h; cases h)

variable {j : Op}

theorem np_cases (h : j.np = some q) : j = .forkCopy q ∨ j = .setParent q ∨ j = .forkEnd q := by
  cases j <;> simp_all [Op.np]

/-- The code for a new process comes from the code for it one step before. -/
theorem exec_np {p : Slot} (hj : .op j ∈ (exec s p ok i).code) (hn : j.np = some q) :
    i.np = some q ∧ (∀ q' v, (exec s p ok i).set = some (q', v) → q' = q ∧ v.state = (s.proc q).state) ∨
     (exec s p ok i).ctx = some q := by
  revert hj
  fun_cases exec s p ok i <;> grind [Op.np, Op.stop]

theorem effect_np (hj : .op j ∈ (effect s me ok i).code) (hn : j.np = some q) :
    i.np = some q ∧ (∀ q' v, (effect s me ok i).set = some (q', v) → q' = q ∧ v.state = (s.proc q).state) ∨
      (effect s me ok i).ctx = some q := by
  revert hj
  fun_cases effect s me ok i <;> grind [Op.np, Op.stop, exec_np]

/-- Nothing comes back to a slot that `allocproc` has found. -/
theorem tops_found (hf : Found q k) (ht : Tops (.op i) k) (hp : i ≠ .panic) : False := by
  cases hf <;> simp_all [Op.Under]

theorem exec_found {p : Slot} (hk : ¬Found q k) (hf : Found q ((exec s p ok i).code ++ k)) :
    (s.proc q).state = .unused ∧ (exec s p ok i).set = none ∧
    (exec s p ok i).code = [.acquire .pid, .op (.allocpid q)] ∨
      i = .allocpid q ∧ ∀ q' v, (exec s p ok i).set = some (q', v) → v.state = (s.proc q').state := by
  revert hf
  fun_cases exec s p ok i <;> grind [cases Found, Op.stop]

theorem effect_found {o : Option Slot} (hw : Wf o (.op i :: k)) (hp : i ≠ .panic)
    (hf : Found q ((effect s me ok i).code ++ k)) :
    (s.proc q).state = .unused ∧ (effect s me ok i).set = none ∧
    (effect s me ok i).code = [.acquire .pid, .op (.allocpid q)] ∨
      i = .allocpid q ∧ ∀ q' v, (effect s me ok i).set = some (q', v) → v.state = (s.proc q').state := by
  have hk : ¬Found q k := fun hk => tops_found hk hw.2.2.1 hp
  revert hf
  fun_cases effect s me ok i <;> grind [cases Found, Op.stop, exec_found]

end Writes

end Xv6.Smp
