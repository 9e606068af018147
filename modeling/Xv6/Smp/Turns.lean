/-
  Xv6.Smp.Turns — what a process can be doing in each of its states (`Inv`): a hart holds
  exactly the locks that its code counts on, and it is idle, about to enter a process,
  inside one, or leaving it. `Turn` lists what one step can do to the state of a process;
  a step of a thread that stays on its hart (`Local`) keeps the invariant.
-/

import Xv6.Smp.Code

namespace Xv6.Smp

open Lib
open Sched (Slot Proc Chan ProcState freeproc incr charge)

/-! ## The invariant -/

section Inv

variable {H : Type} {s s' : St H} {h h' : H} {p q : Slot} {k : Code}

theorem code_on (ho : (s.cpu h).on = some p) : s.code h = s.kstack p := by unfold St.code; rw [ho]

theorem code_off (ho : (s.cpu h).on = none) : s.code h = s.stack0 h := by unfold St.code; rw [ho]

section

variable [DecidableEq H]

@[simp] theorem goto_proc : (s.goto h k).proc = s.proc := by unfold St.goto; split <;> rfl

@[simp] theorem goto_cpu : (s.goto h k).cpu = s.cpu := by unfold St.goto; split <;> rfl

@[simp] theorem goto_lock : (s.goto h k).lock = s.lock := by unfold St.goto; split <;> rfl

@[simp] theorem goto_initproc : (s.goto h k).initproc = s.initproc := by unfold St.goto; split <;> rfl

@[simp] theorem goto_hist : (s.goto h k).hist = s.hist := by unfold St.goto; split <;> rfl

@[simp] theorem goto_nextpid : (s.goto h k).nextpid = s.nextpid := by unfold St.goto; split <;> rfl

theorem goto_on (ho : (s.cpu h).on = some p) : s.goto h k = { s with kstack := upd s.kstack p k } := by
  unfold St.goto; rw [ho]

theorem goto_off (ho : (s.cpu h).on = none) : s.goto h k = { s with stack0 := upd s.stack0 h k } := by
  unfold St.goto; rw [ho]

theorem goto_kstack (ho : (s.cpu h).on ≠ some p) : (s.goto h k).kstack p = s.kstack p := by
  cases hq : (s.cpu h).on with
  | none => rw [goto_off hq]
  | some q =>
    rw [goto_on hq]
    exact upd_ne _ _ fun e => ho (by rw [hq, e])

@[simp] theorem goto_code : (s.goto h k).code h = k := by
  cases ho : (s.cpu h).on with
  | none => rw [goto_off ho, code_off (by exact ho)]; exact upd_same _ _ _
  | some p => rw [goto_on ho, code_on (by exact ho)]; exact upd_same _ _ _

end

inductive Leaving : Code → Prop
  | sched (k : Code) : Leaving (.op .sched :: k)
  | panic (k : Code) : Leaving (.op .panic :: .op .sched :: k)
  | exit (k : Code) : Leaving (.release .wait :: .op .sched :: k)

def Gone (st : ProcState) : Prop := st = .runnable ∨ st = .sleeping ∨ st = .zombie

structure Left (s : St H) (p : Slot) : Prop where
  code : Leaving (s.kstack p)
  lock : .proc p ∈ held Op.holds (s.kstack p)
  state : Gone (s.proc p).state

inductive Hart (s : St H) (h : H) : Prop
  | idle (on : (s.cpu h).on = none) (proc : (s.cpu h).proc = none)
      (code : ∀ p, .op (.swtch p) ∉ s.stack0 h ∧ .op (.switched p) ∉ s.stack0 h)
  | enter (p : Slot) (on : (s.cpu h).on = none) (proc : (s.cpu h).proc = some p)
      (code : s.stack0 h = [.op (.swtch p), .op (.switched p)]) (state : (s.proc p).state = .running)
  | inside (p : Slot) (on : (s.cpu h).on = some p) (proc : (s.cpu h).proc = some p)
      (code : s.stack0 h = [.op (.switched p)]) (state : (s.proc p).state = .running ∨ Left s p)
  | leave (p : Slot) (on : (s.cpu h).on = none) (proc : (s.cpu h).proc = some p)
      (code : s.stack0 h = [.op (.switched p)]) (state : Gone (s.proc p).state)

theorem gone_ne {st : ProcState} (h : Gone st) : st ≠ .running ∧ st ≠ .unused ∧ st ≠ .used := by
  rcases h with rfl | rfl | rfl <;> exact ⟨ProcState.noConfusion, ProcState.noConfusion, ProcState.noConfusion⟩

def Ready (st : ProcState) : Prop := st = .runnable ∨ st = .sleeping ∨ st = .running

structure Off (s : St H) (p : Slot) : Prop where
  code : s.kstack p = [] ∨ Back p (s.kstack p)
  lock : ∀ l ∈ held Op.holds (s.kstack p), l = .proc p
  ready : Ready (s.proc p).state → held Op.holds (s.kstack p) = [.proc p]

structure Inv (s : St H) : Prop where
  wfp : ∀ p, Wf (some p) (s.kstack p)
  wf0 : ∀ h, Wf none (s.stack0 h)
  owns : ∀ h, Owns Op.holds s.lock (s.cpu h).noff h (s.code h)
  hart : ∀ h, Hart s h
  one : ∀ h h' p, (s.cpu h).proc = some p → (s.cpu h').proc = some p → h = h'
  run : ∀ p, (s.proc p).state = .running → ∃ h, (s.cpu h).proc = some p
  off : ∀ p, (∀ h, (s.cpu h).on ≠ some p) → Off s p
  found : ∀ h p q, (s.cpu h).on = some p → Found q (s.kstack p) → (s.proc q).state = .unused
  fork : ∀ p i q, .op i ∈ s.kstack p → i.np = some q → (s.proc q).state = .used ∧ s.kstack q = forkret q
  forkOne : ∀ p p' i j q, .op i ∈ s.kstack p → .op j ∈ s.kstack p' → i.np = some q → j.np = some q → p = p'

theorem found_held (hf : Found q k) : .proc q ∈ held Op.holds k := by
  cases hf <;> simp [Op.holds]

theorem wf_forkret : Wf (some p) (forkret p) := by simp [forkret, Op.Fits, Op.Above, Op.Under]

theorem held_forkret : held Op.holds (forkret p) = [.proc p] := rfl

theorem np_forkret {i : Op} (hi : .op i ∈ forkret p) : i.np = none := by
  rcases List.mem_cons.mp hi with hi | hi
  · cases hi
  · rcases List.mem_singleton.mp hi with ⟨⟩
    rfl

section

variable (hI : Inv s) (ho : (s.cpu h).on = some p)

include hI ho

theorem inside_proc : (s.cpu h).proc = some p := by
  cases hI.hart h with
  | inside q on proc => rw [proc, ← on, ho]
  | idle on | enter _ on | leave _ on => rw [on] at ho; cases ho

theorem inside_state : (s.proc p).state = .running ∨ Left s p := by
  cases hI.hart h with
  | inside q on _ _ state =>
    rw [on] at ho
    cases ho
    exact state
  | idle on | enter _ on | leave _ on => rw [on] at ho; cases ho

/-- A process that some hart runs is alive, or a zombie that has not left yet. -/
theorem inside_used :
    (s.proc p).state ≠ .unused ∧ (s.proc p).state ≠ .used := by
  rcases inside_state hI ho with e | hl
  · rw [e]
    exact ⟨ProcState.noConfusion, ProcState.noConfusion⟩
  · exact (gone_ne hl.state).2

theorem on_one (ho' : (s.cpu h').on = some p) : h = h' :=
  hI.one h h' p (inside_proc hI ho) (inside_proc hI ho')

end

/-- The hart holds a lock that its code counts on. -/
theorem lock_code {l : Lock} (hI : Inv s) (hl : l ∈ held Op.holds (s.code h)) : s.lock l = some h :=
  owns_mem (hI.owns h) hl

/-! ## Steps of a thread that stays on its hart -/

def Op.isLeave : Op → Bool
  | .giveUp _ | .doze _ _ | .die _ _ => true
  | _ => false

inductive Turn (s s' : St H) (h : H) (q : Slot) : Prop
  | same (e : (s'.proc q).state = (s.proc q).state)
  | wake (lock : s.lock (.proc q) = some h) (old : (s.proc q).state = .sleeping) (new : (s'.proc q).state = .runnable)
  | leave (on : (s.cpu h).on = some q) (own : ∃ i k, s.kstack q = .op i :: k ∧ i.isLeave = true)
      (new : (s'.proc q).state ≠ .running)
  | born (lock : s.lock (.proc q) = some h) (old : (s.proc q).state = .unused) (new : (s'.proc q).state = .used)
  | undo (own : ∃ p j k, (s.cpu h).on = some p ∧ s.kstack p = .op j :: k ∧ j.np = some q)
    (old : (s.proc q).state = .used)
      (new : (s'.proc q).state = .unused)
  | ready (own : ∃ p j k, (s.cpu h).on = some p ∧ s.kstack p = .op j :: k ∧ j.np = some q)
    (old : (s.proc q).state = .used)
      (new : (s'.proc q).state = .runnable)
  | reap (lock : s.lock (.proc q) = some h) (old : (s.proc q).state = .zombie) (new : (s'.proc q).state = .unused)

structure Local (s s' : St H) (h : H) : Prop where
  cpu : ∀ h', h' ≠ h → s'.cpu h' = s.cpu h'
  on : (s'.cpu h).on = (s.cpu h).on
  proc : (s'.cpu h).proc = (s.cpu h).proc
  stack0 : ∀ h', (h' = h → (s.cpu h).on ≠ none) → s'.stack0 h' = s.stack0 h'
  kstack : ∀ p, (s.cpu h).on ≠ some p →
    s'.kstack p = s.kstack p ∨ (s.proc p).state = .unused ∧ (s'.proc p).state = .used ∧ s'.kstack p = forkret p
  wf : Wf (s.cpu h).on (s'.code h)
  owns : Owns Op.holds s'.lock (s'.cpu h).noff h (s'.code h)
  frame : ∀ h', h' ≠ h → Owns Op.holds s'.lock (s.cpu h').noff h' (s.code h')
  turn : ∀ q, Turn s s' h q
  /-- The scheduler's own thread is not about to switch, before the step and after it. -/
  idle : (s.cpu h).on = none → (s.cpu h).proc = none ∧ ∀ p, .op (.swtch p) ∉ s'.code h ∧ .op (.switched p) ∉ s'.code h
  inside : ∀ p, (s.cpu h).on = some p → (s'.proc p).state = .running ∨ Left s' p
  found : ∀ p q, (s.cpu h).on = some p → Found q (s'.kstack p) → (s'.proc q).state = .unused
  fork : ∀ p i q, (s.cpu h).on = some p → .op i ∈ s'.kstack p → i.np = some q →
    (s'.proc q).state = .used ∧ s'.kstack q = forkret q
  forkOne : ∀ p i q, (s.cpu h).on = some p → .op i ∈ s'.kstack p → i.np = some q →
    (∃ j, .op j ∈ s.kstack p ∧ j.np = some q) ∨ (s.proc q).state = .unused

theorem turn_running (ht : Turn s s' h q) (hr : (s'.proc q).state = .running) : (s.proc q).state = .running := by
  cases ht with
  | same e => rw [← e]; exact hr
  | leave _ _ new => exact absurd hr new
  | wake _ _ new | born _ _ new | undo _ _ new | ready _ _ new | reap _ _ new => rw [new] at hr; cases hr

section

variable (hI : Inv s)

include hI

/-- A process that another hart runs, or is switching to, stays in its state. -/
theorem turn_kept (ht : Turn s s' h q) (hne : h' ≠ h) (hp : (s.cpu h').proc = some q)
    (hs : (s.proc q).state = .running ∨ s.lock (.proc q) = some h' ∧ (s.proc q).state ≠ .used) :
    (s'.proc q).state = (s.proc q).state := by
  have hlock (hl : s.lock (.proc q) = some h) (hr : (s.proc q).state ≠ .running) : False := by
    rcases hs with hs | ⟨hs, _⟩
    · exact hr hs
    · exact hne (Option.some.inj (hs.symm.trans hl))
  have hused (e : (s.proc q).state = .used) : False := by
    rcases hs with hs | ⟨_, hs⟩
    · rw [hs] at e; cases e
    · exact hs e
  cases ht with
  | same e => exact e
  | leave on => exact absurd (hI.one h' h q hp (inside_proc hI on)) hne
  | wake lock old | born lock old | reap lock old =>
    exact (hlock lock (by rw [old]; exact ProcState.noConfusion)).elim
  | undo _ old | ready _ old => exact (hused old).elim

theorem left_lock (ho : (s.cpu h).on = some p) (hl : Left s p) : s.lock (.proc p) = some h :=
  lock_code hI (by rw [code_on ho]; exact hl.lock)

/-- The stack of a process that another hart runs is its own. -/
theorem kstack_kept (hL : Local s s' h) (hne : h' ≠ h) (ho : (s.cpu h').on = some p) :
    s'.kstack p = s.kstack p := by
  rcases hL.kstack p (fun e => hne (on_one hI ho e)) with e | ⟨e, _⟩
  · exact e
  · exact absurd e (inside_used hI ho).1

theorem code_kept (hL : Local s s' h) (hne : h' ≠ h) : s'.code h' = s.code h' := by
  cases ho : (s.cpu h').on with
  | none =>
    rw [code_off (by rw [hL.cpu h' hne]; exact ho), code_off ho]
    exact hL.stack0 h' fun e => absurd e hne
  | some p =>
    rw [code_on (by rw [hL.cpu h' hne]; exact ho), code_on ho]
    exact kstack_kept hI hL hne ho

theorem hart_other (hL : Local s s' h) (hne : h' ≠ h) : Hart s' h' := by
  have hc := hL.cpu h' hne
  have h0 := hL.stack0 h' fun e => absurd e hne
  cases hI.hart h' with
  | idle on proc code => exact .idle (by rw [hc, on]) (by rw [hc, proc]) (by rw [h0]; exact code)
  | enter p on proc code state =>
    refine .enter p (by rw [hc, on]) (by rw [hc, proc]) (by rw [h0, code]) ?_
    rw [turn_kept hI (hL.turn p) hne proc (.inl state), state]
  | inside p on proc code state =>
    refine .inside p (by rw [hc, on]) (by rw [hc, proc]) (by rw [h0, code]) ?_
    have hk := kstack_kept hI hL hne on
    rcases state with e | hl
    · left
      rw [turn_kept hI (hL.turn p) hne proc (.inl e), e]
    · right
      have hs := turn_kept hI (hL.turn p) hne proc (.inr ⟨left_lock hI on hl, (inside_used hI on).2⟩)
      exact ⟨hk ▸ hl.code, hk ▸ hl.lock, hs ▸ hl.state⟩
  | leave p on proc code state =>
    have hl : s.lock (.proc p) = some h' := lock_code hI (by rw [code_off on, code]; exact .head _)
    refine .leave p (by rw [hc, on]) (by rw [hc, proc]) (by rw [h0, code]) ?_
    rw [turn_kept hI (hL.turn p) hne proc (.inr ⟨hl, (gone_ne state).2.2⟩)]
    exact state

theorem hart_self (hL : Local s s' h) : Hart s' h := by
  cases hI.hart h with
  | idle on proc _ =>
    refine .idle (hL.on.trans on) (hL.proc.trans proc) fun p => ?_
    rw [← code_off (hL.on.trans on)]
    exact (hL.idle on).2 p
  | inside p on proc code _ =>
    have h0 : s'.stack0 h = s.stack0 h := hL.stack0 h fun _ e => by rw [on] at e; cases e
    exact .inside p (hL.on.trans on) (hL.proc.trans proc) (h0.trans code) (hL.inside p on)
  | enter p on proc | leave p on proc =>
    have := (hL.idle on).1
    rw [proc] at this
    cases this

theorem off_local (hL : Local s s' h) (ho : ∀ h', (s'.cpu h').on ≠ some p) : Off s' p := by
  have hs : ∀ h', (s.cpu h').on ≠ some p := fun h' => by
    by_cases e : h' = h
    · rw [e, ← hL.on]
      exact ho h
    · rw [← hL.cpu h' e]
      exact ho h'
  obtain ⟨hcode, hlock, hready⟩ := hI.off p hs
  rcases hL.kstack p (hs h) with e | ⟨_, hu, e⟩
  · refine ⟨e ▸ hcode, e ▸ hlock, fun hr => ?_⟩
    rw [e]
    have hturn := hL.turn p
    cases hturn with
    | same e' => exact hready (e' ▸ hr)
    | wake _ old => exact hready (.inr (.inl old))
    | leave on => exact absurd on (hs h)
    | ready own =>
      obtain ⟨p', j, k, _, hj, hn⟩ := own
      rw [(hI.fork p' j p (hj ▸ .head _) hn).2]
      rfl
    | born _ _ new | undo _ _ new | reap _ _ new =>
      rw [new] at hr
      rcases hr with hr | hr | hr <;> cases hr
  · refine ⟨.inr (e ▸ .yield _), fun l hl => ?_, fun _ => e ▸ held_forkret⟩
    rw [e] at hl
    exact List.mem_singleton.mp hl

theorem found_local (hL : Local s s' h) (ho : (s'.cpu h').on = some p) (hf : Found q (s'.kstack p)) :
    (s'.proc q).state = .unused := by
  by_cases hne : h' = h
  · rw [hne, hL.on] at ho
    exact hL.found p q ho hf
  rw [hL.cpu h' hne] at ho
  rw [kstack_kept hI hL hne ho] at hf
  have hu := hI.found h' p q ho hf
  have hl : s.lock (.proc q) = some h' := lock_code hI (by rw [code_on ho]; exact found_held hf)
  have hturn := hL.turn q
  cases hturn with
  | same e => rw [e, hu]
  | leave on => exact absurd hu (inside_used hI on).1
  | born lock => exact absurd (Option.some.inj (hl.symm.trans lock)) hne
  | wake _ old | undo _ old | ready _ old | reap _ old => rw [old] at hu; cases hu

theorem fork_local (hL : Local s s' h) {i : Op} (hi : .op i ∈ s'.kstack p) (hn : i.np = some q) :
    (s'.proc q).state = .used ∧ s'.kstack q = forkret q := by
  by_cases ho : (s.cpu h).on = some p
  · exact hL.fork p i q ho hi hn
  rcases hL.kstack p ho with e | ⟨_, _, e⟩
  · rw [e] at hi
    obtain ⟨hu, hk⟩ := hI.fork p i q hi hn
    have hoq : (s.cpu h).on ≠ some q := fun e => (inside_used hI e).2 hu
    -- only the process that forks `q` can take it out of its state
    have hown {P : Prop} : (∃ p j k, (s.cpu h).on = some p ∧ s.kstack p = .op j :: k ∧ j.np = some q) → P := by
      rintro ⟨p', j, k, ho', hj, hn'⟩
      exact absurd (hI.forkOne p p' i j q hi (hj ▸ .head _) hn hn' ▸ ho') ho
    have hk' : s'.kstack q = forkret q := by
      rcases hL.kstack q hoq with e' | ⟨_, _, e'⟩
      · rw [e', hk]
      · exact e'
    have hturn := hL.turn q
    cases hturn with
    | same e => exact ⟨e.trans hu, hk'⟩
    | leave on => exact absurd on hoq
    | undo own | ready own => exact hown own
    | wake _ old | born _ old | reap _ old => rw [old] at hu; cases hu
  · rw [e] at hi
    rw [np_forkret hi] at hn
    cases hn

end

/-- Where a fork in progress stood before the step. -/
theorem fork_before (hL : Local s s' h) {i : Op} (hi : .op i ∈ s'.kstack p) (hn : i.np = some q) :
    (∃ j, .op j ∈ s.kstack p ∧ j.np = some q) ∨ (s.cpu h).on = some p ∧ (s.proc q).state = .unused := by
  by_cases ho : (s.cpu h).on = some p
  · rcases hL.forkOne p i q ho hi hn with hj | hj
    · exact .inl hj
    · exact .inr ⟨ho, hj⟩
  · rcases hL.kstack p ho with e | ⟨_, _, e⟩
    · exact .inl ⟨i, e ▸ hi, hn⟩
    · rw [e] at hi
      rw [np_forkret hi] at hn
      cases hn

theorem inv_local (hI : Inv s) (hL : Local s s' h) : Inv s' where
  wfp p := by
    by_cases ho : (s.cpu h).on = some p
    · rw [← code_on (hL.on.trans ho), ← ho]
      exact hL.wf
    · rcases hL.kstack p ho with e | ⟨_, _, e⟩
      · rw [e]
        exact hI.wfp p
      · rw [e]
        exact wf_forkret
  wf0 h' := by
    by_cases hh : h' = h → (s.cpu h).on ≠ none
    · rw [hL.stack0 h' hh]
      exact hI.wf0 h'
    · obtain ⟨e, ho⟩ := Classical.not_imp.mp hh
      have ho := Decidable.of_not_not ho
      rw [e, ← code_off (hL.on.trans ho), ← ho]
      exact hL.wf
  owns h' := by
    by_cases hne : h' = h
    · rw [hne]
      exact hL.owns
    · rw [hL.cpu h' hne, code_kept hI hL hne]
      exact hL.frame h' hne
  hart h' := by
    by_cases hne : h' = h
    · exact hne ▸ hart_self hI hL
    · exact hart_other hI hL hne
  one h1 h2 p := by
    have hproc : ∀ h', (s'.cpu h').proc = (s.cpu h').proc := fun h' => by
      by_cases e : h' = h
      · rw [e, hL.proc]
      · rw [hL.cpu h' e]
    rw [hproc, hproc]
    exact hI.one h1 h2 p
  run p hr := by
    obtain ⟨h', hp⟩ := hI.run p (turn_running (hL.turn p) hr)
    refine ⟨h', ?_⟩
    by_cases e : h' = h
    · rw [e, hL.proc, ← e, hp]
    · rw [hL.cpu h' e, hp]
  off p := off_local hI hL
  found h' p q := found_local hI hL
  fork p i q := fork_local hI hL
  forkOne p p' i j q hi hj hn hn' := by
    have hused {p : Slot} {j : Op} (hj : .op j ∈ s.kstack p) (hn : j.np = some q)
        (hu : (s.proc q).state = .unused) : False := by
      rw [(hI.fork p j q hj hn).1] at hu
      cases hu
    rcases fork_before hL hi hn with ⟨i0, hi0, hn0⟩ | ⟨ho, hu⟩
    · rcases fork_before hL hj hn' with ⟨j0, hj0, hn1⟩ | ⟨_, hu'⟩
      · exact hI.forkOne p p' i0 j0 q hi0 hj0 hn0 hn1
      · exact (hused hi0 hn0 hu').elim
    · rcases fork_before hL hj hn' with ⟨j0, hj0, hn1⟩ | ⟨ho', _⟩
      · exact (hused hj0 hn1 hu).elim
      · exact Option.some.inj (ho.symm.trans ho')

end Inv

end Xv6.Smp
