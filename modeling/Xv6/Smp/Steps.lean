/-
  Xv6.Smp.Steps — the steps of a thread on its hart: operations, lock acquisitions and
  releases, panics, calls and interrupts keep the invariant of `Xv6.Smp.Turns`.
-/

import Xv6.Smp.Turns

namespace Xv6.Smp

open Lib
open Sched (Slot Proc Chan ProcState freeproc incr charge)

/-! ## The steps of a thread -/

section Inv

variable {H : Type} {s s' : St H} {h h' : H} {p q : Slot} {k : Code} {i : Op}

variable {e : Eff} {c : Lib.Code Lock Op} {locks : List Nat} {status : Option Int}

theorem wf_code (hI : Inv s) (hc : s.code h = k) : Wf (s.cpu h).on k := by
  subst hc
  cases ho : (s.cpu h).on with
  | none => rw [code_off ho]; exact hI.wf0 h
  | some p => rw [code_on ho]; exact hI.wfp p

/-- Only the thread of a process runs the operations of a process. -/
theorem fits_on (hf : i.Fits (s.cpu h).on) (hn : ¬i.Fits none) : ∃ p, (s.cpu h).on = some p := by
  cases ho : (s.cpu h).on with
  | none => rw [ho] at hf; exact absurd hf hn
  | some p => exact ⟨p, rfl⟩

theorem charge_state (v : Proc) : (charge v).state = v.state := by rw [Sched.charge_eq]

theorem write_turn {me : Option Slot} {v : Proc} (hI : Inv s) (hc : s.code h = .op i :: k)
    (hw : Write s me i q v) (hd : ∀ a b c, i ≠ .dispatch a b c) (hv : s'.proc q = v) : Turn s s' h q := by
  have hwf := wf_code hI hc
  have hlock {l : Lock} (hl : l ∈ i.holds) : s.lock l = some h :=
    lock_code hI (by rw [hc]; exact List.mem_append_left _ hl)
  have hself (hn : ¬i.Fits none) (he : ∀ p, i.Fits (some p) → q = p) : (s.cpu h).on = some q := by
    obtain ⟨p, ho⟩ := fits_on hwf.1 hn
    rw [ho, he p (ho ▸ hwf.1)]
  have hown (hn : ¬i.Fits none) (hq : i.np = some q) :
      ∃ p, (s.cpu h).on = some p ∧ s.kstack p = .op i :: k ∧ (s.proc q).state = .used := by
    obtain ⟨p, ho⟩ := fits_on hwf.1 hn
    have hk : s.kstack p = .op i :: k := by rw [← code_on ho, hc]
    exact ⟨p, ho, hk, (hI.fork p i q (hk ▸ .head _) hq).1⟩
  cases hw with
  | dispatch => exact absurd rfl (hd _ _ _)
  | wake =>
    rename_i state
    exact .wake (hlock (by simp [Op.holds])) state (by rw [hv])
  | giveUp p | doze p c | die p status =>
    have ho := hself id fun _ e => e
    exact .leave ho ⟨_, k, by rw [← code_on ho, hc], rfl⟩ (by rw [hv]; exact ProcState.noConfusion)
  | charge p => exact .same (by rw [hv, charge_state])
  | tidy | allocpid | setParent | reparent | setkilled => exact .same (by rw [hv])
  | alloc p =>
    obtain ⟨p', ho⟩ := fits_on hwf.1 id
    have hu := hI.found h p' q ho (by rw [← code_on ho, hc]; exact .mem k)
    exact .born (hlock (by simp [Op.holds])) hu (by rw [hv])
  | allocFail p =>
    obtain ⟨p', ho⟩ := fits_on hwf.1 id
    have hu := hI.found h p' q ho (by rw [← code_on ho, hc]; exact .mem k)
    exact .same (by rw [hv, hu]; rfl)
  | undo p =>
    obtain ⟨p', ho, hj, hu⟩ := hown id rfl
    exact .undo ⟨p', _, k, ho, hj, rfl⟩ hu (by rw [hv]; rfl)
  | forkEnd p =>
    obtain ⟨p', ho, hj, hu⟩ := hown id rfl
    exact .ready ⟨p', _, k, ho, hj, rfl⟩ hu (by rw [hv])
  | reap =>
    rename_i state
    exact .reap (hlock (by simp [Op.holds])) state (by rw [hv]; rfl)
  | kill p pid todo =>
    by_cases e : (s.proc q).state = .sleeping
    · exact .wake (hlock (by simp [Op.holds])) e (by rw [hv, if_pos e])
    · exact .same (by rw [hv, if_neg e])

theorem on_proc (hI : Inv s) (ho : (s.cpu h).on.isSome) : (s.cpu h).proc = (s.cpu h).on := by
  obtain ⟨p, hp⟩ := Option.isSome_iff_exists.mp ho
  rw [hp, inside_proc hI hp]

/-- A process on its way out runs no other operation. -/
theorem left_code (hl : Left s p) (hk : s.kstack p = .op i :: k) : i = .sched ∨ i = .panic := by
  have hc := hl.code
  rw [hk] at hc
  cases hc with
  | sched => exact .inl rfl
  | panic => exact .inr rfl

/-- A process that runs an operation is running, unless it has stopped or is about to switch. -/
theorem inside_running (hI : Inv s) (ho : (s.cpu h).on = some p) (hc : s.code h = .op i :: k) (hs : i ≠ .sched)
    (hp : i ≠ .panic) : (s.proc p).state = .running := by
  rcases inside_state hI ho with e | hl
  · exact e
  · rcases left_code hl (by rw [← code_on ho, hc]) with e | e
    · exact absurd e hs
    · exact absurd e hp

theorem effect_idle {ok : Bool} {me : Option Slot} (hf : i.Fits none) (hd : ∀ a b c, i ≠ .dispatch a b c)
    (ht : ∀ a, i ≠ .swtch a) (hs : ∀ a, i ≠ .switched a) :
    .op (.swtch p) ∉ (effect s me ok i).code ∧ .op (.switched p) ∉ (effect s me ok i).code := by
  cases i with
  | dispatch => exact absurd rfl (hd _ _ _)
  | swtch => exact absurd rfl (ht _)
  | switched => exact absurd rfl (hs _)
  | scheduler pr todo => cases todo <;> simp [effect]
  | wakeup c todo =>
    cases todo with
    | nil => simp [effect]
    | cons q todo => simp only [effect]; split <;> simp
  | wake | panic => simp [effect]
  | _ => exact hf.elim

/-- A step that changes no process: the hart takes or releases a lock, or goes on with other code. -/
theorem local_code (hI : Inv s) (hproc : s'.proc = s.proc) (hcpu : ∀ h', h' ≠ h → s'.cpu h' = s.cpu h')
    (hon : (s'.cpu h).on = (s.cpu h).on) (hpr : (s'.cpu h).proc = (s.cpu h).proc)
    (hstack : ∀ h', (h' = h → (s.cpu h).on ≠ none) → s'.stack0 h' = s.stack0 h')
    (hk : ∀ p, (s.cpu h).on ≠ some p → s'.kstack p = s.kstack p) (hw : Wf (s.cpu h).on (s'.code h))
    (howns : Owns Op.holds s'.lock (s'.cpu h).noff h (s'.code h))
    (hframe : ∀ h', h' ≠ h → Owns Op.holds s'.lock (s.cpu h').noff h' (s.code h'))
    (hidle : (s.cpu h).on = none → (s.cpu h).proc = none ∧ ∀ p, .op (.swtch p) ∉ s'.code h ∧
      .op (.switched p) ∉ s'.code h)
    (hin : ∀ p, (s.cpu h).on = some p → (s.proc p).state = .running ∨ Left s' p)
    (hfound : ∀ p q, (s.cpu h).on = some p → Found q (s'.code h) → Found q (s.code h))
    (hnp : ∀ j, .op j ∈ s'.code h → j.np = none ∨ .op j ∈ s.code h) : Local s s' h := by
  have hcode {p : Slot} (ho : (s.cpu h).on = some p) : s'.kstack p = s'.code h := (code_on (hon.trans ho)).symm
  have hold {p q : Slot} {j : Op} (ho : (s.cpu h).on = some p) (hj : .op j ∈ s'.kstack p) (hn : j.np = some q) :
      .op j ∈ s.kstack p := by
    rw [hcode ho] at hj
    rcases hnp j hj with e | e
    · rw [e] at hn
      cases hn
    · rwa [code_on ho] at e
  refine ⟨hcpu, hon, hpr, hstack, fun p ho => .inl (hk p ho), hw, howns, hframe, fun q => .same (by rw [hproc]), hidle,
    fun p ho => ?_, fun p q ho hf => ?_, fun p j q ho hj hn => ?_, fun p j q ho hj hn => ?_⟩
  · rw [hproc]
    exact hin p ho
  · rw [hcode ho] at hf
    rw [hproc]
    exact hI.found h p q ho (code_on ho ▸ hfound p q ho hf)
  · obtain ⟨hu, hk'⟩ := hI.fork p j q (hold ho hj hn) hn
    rw [hproc]
    exact ⟨hu, by rw [hk q fun eq => (inside_used hI eq).2 hu, hk']⟩
  · exact .inl ⟨j, hold ho hj hn, hn⟩

/-- The scheduler's thread has no process where its code is not that of a switch. -/
theorem idle_of (hI : Inv s) (ho : (s.cpu h).on = none) (hc : s.code h = c :: k)
    (hs : ∀ p, c ≠ .op (.swtch p)) (ht : ∀ p, c ≠ .op (.switched p)) :
    (s.cpu h).proc = none ∧ ∀ p, .op (.swtch p) ∉ s.code h ∧ .op (.switched p) ∉ s.code h := by
  rw [code_off ho] at hc ⊢
  cases hI.hart h with
  | idle _ proc code => exact ⟨proc, code⟩
  | enter p _ _ code =>
    rw [hc] at code
    cases code
    exact absurd rfl (hs p)
  | leave p _ _ code =>
    rw [hc] at code
    cases code
    exact absurd rfl (ht p)
  | inside p on => rw [on] at ho; cases ho

theorem inside_left (hI : Inv s) (ho : (s.cpu h).on = some p) :
    (s.proc p).state = .running ∨ Left s p ∧ Leaving (s.code h) ∧ .proc p ∈ held Op.holds (s.code h) := by
  rcases inside_state hI ho with e | hl
  · exact .inl e
  · rw [code_on ho]
    exact .inr ⟨hl, hl.code, hl.lock⟩

/-- With no lock held, `c->proc` is the process on whose stack the hart runs. -/
theorem free_proc (hI : Inv s) (hn : (s.cpu h).noff = 0) (hp : (s.cpu h).proc.isSome) : ∃ p, (s.cpu h).on = some p := by
  have hh : held Op.holds (s.code h) = [] := List.eq_nil_of_length_eq_zero ((hI.owns h).count.symm.trans hn)
  cases hI.hart h with
  | idle _ proc => rw [proc] at hp; cases hp
  | inside p on => exact ⟨p, on⟩
  | enter p on _ code | leave p on _ code =>
    rw [code_off on, code] at hh
    cases hh

variable [DecidableEq H]

theorem fits_own {o : Option Slot} (hf : i.Fits o) (ho : o = some p) : i.Fits (some p) := ho ▸ hf

@[simp] theorem apply_lock : (s.apply h e k).lock = s.lock := goto_lock

@[simp] theorem apply_initproc : (s.apply h e k).initproc = s.initproc := goto_initproc

@[simp] theorem apply_hist : (s.apply h e k).hist = e.note.toList ++ s.hist := goto_hist

@[simp] theorem apply_nextpid : (s.apply h e k).nextpid = if e.pid then incr s.nextpid else s.nextpid := goto_nextpid

theorem apply_set {v : Proc} (he : e.set = some (q, v)) : (s.apply h e k).proc = upd s.proc q v := by
  unfold St.apply
  rw [goto_proc, he]

theorem apply_unset (he : e.set = none) : (s.apply h e k).proc = s.proc := by
  unfold St.apply
  rw [goto_proc, he]

/-- A slot after an operation is as it was, or as the operation writes it. -/
theorem apply_proc (s : St H) (h : H) (e : Eff) (k : Code) (q : Slot) :
    (s.apply h e k).proc q = s.proc q ∨ e.set = some (q, (s.apply h e k).proc q) := by
  cases he : e.set with
  | none => exact .inl (by rw [apply_unset he])
  | some w =>
    by_cases eq : q = w.1
    · exact .inr (by rw [apply_set he, eq, upd_same])
    · exact .inl (by rw [apply_set he, upd_ne _ _ eq])

theorem apply_cpu (he : e.cproc = none) : (s.apply h e k).cpu = s.cpu := by
  unfold St.apply
  rw [goto_cpu, he]

@[simp] theorem apply_code : (s.apply h e k).code h = e.code ++ k := goto_code

theorem apply_stack (he : e.cproc = none) (ho : (s.cpu h).on = some p) : (s.apply h e k).kstack p = e.code ++ k := by
  rw [← code_on (h := h) (by rw [apply_cpu he]; exact ho), apply_code]

/-- The stack of another process changes only where its context is set up. -/
theorem apply_kstack (he : e.cproc = none) (ho : (s.cpu h).on ≠ some p) :
    (s.apply h e k).kstack p = s.kstack p ∧ e.ctx ≠ some p ∨ e.ctx = some p ∧ (s.apply h e k).kstack p = forkret p := by
  cases hx : e.ctx with
  | none =>
    have hk : (s.apply h e k).kstack p = s.kstack p := by
      unfold St.apply
      rw [he, hx]
      exact goto_kstack ho
    exact .inl ⟨hk, (fun e => by cases e)⟩
  | some q =>
    have hk : (s.apply h e k).kstack p = upd s.kstack q (forkret q) p := by
      unfold St.apply
      rw [he, hx]
      exact goto_kstack ho
    by_cases hq : p = q
    · subst hq
      exact .inr ⟨rfl, hk.trans (upd_same _ _ _)⟩
    · exact .inl ⟨hk.trans (upd_ne _ _ hq), fun e => hq (Option.some.inj e).symm⟩

theorem apply_stack0 (he : e.cproc = none) (hh : h' = h → (s.cpu h).on ≠ none) :
    (s.apply h e k).stack0 h' = s.stack0 h' := by
  unfold St.apply
  rw [he]
  cases ho : (s.cpu h).on with
  | none =>
    rw [goto_off (by exact ho)]
    exact upd_ne _ _ (fun e' => hh e' ho)
  | some p => rw [goto_on (by exact ho)]

/-- The states of the processes after an operation. -/
theorem effect_turn (ok : Bool) (hI : Inv s) (hc : s.code h = .op i :: k) (hd : ∀ a b c, i ≠ .dispatch a b c)
    (q : Slot) : Turn s (s.apply h (effect s (s.cpu h).proc ok i) k) h q := by
  rcases apply_proc s h (effect s (s.cpu h).proc ok i) k q with e | he
  · exact .same (by rw [e])
  · exact write_turn hI hc (effect_set he) hd rfl

theorem effect_inside {ok : Bool} (hI : Inv s) (hc : s.code h = .op i :: k) (ho : (s.cpu h).on = some p)
    (hd : ∀ a b c, i ≠ .dispatch a b c) (hs : i ≠ .sched) (hcp : (effect s (s.cpu h).proc ok i).cproc = none) :
    ((s.apply h (effect s (s.cpu h).proc ok i) k).proc p).state = .running ∨
      Left (s.apply h (effect s (s.cpu h).proc ok i) k) p := by
  have hwf : Wf (some p) (.op i :: k) := by
    rw [← hc, ← ho]
    exact wf_code hI rfl
  have hk := apply_stack (k := k) hcp ho
  by_cases hp : i = .panic
  · -- a panic stays where it is
    subst hp
    have hk' : s.kstack p = .op .panic :: k := by rw [← code_on ho, hc]
    rcases inside_state hI ho with e | hl
    · exact .inl (by rw [apply_unset rfl, e])
    right
    refine ⟨?_, ?_, by rw [apply_unset rfl]; exact hl.state⟩
    · rw [hk]
      show Leaving (.op .panic :: k)
      rw [← hk']
      exact hl.code
    · rw [hk]
      show _ ∈ held Op.holds (.op .panic :: k)
      rw [← hk']
      exact hl.lock
  have hr := inside_running hI ho hc hs hp
  rw [inside_proc hI ho] at hk hcp ⊢
  have hturn := effect_turn ok hI hc hd p
  rw [inside_proc hI ho] at hturn
  cases i with
  | giveUp q =>
    cases hwf.1
    exact .inr ⟨hk ▸ .sched _, by rw [hk]; simp [effect, exec],
      .inl (by rw [apply_set rfl, upd_same])⟩
  | doze q c =>
    cases hwf.1
    exact .inr ⟨hk ▸ .sched _, by rw [hk]; simp [effect, exec, Op.holds],
      .inr (.inl (by rw [apply_set rfl, upd_same]))⟩
  | die q st =>
    cases hwf.1
    exact .inr ⟨hk ▸ .exit _, by rw [hk]; simp [effect, exec, Op.holds],
      .inr (.inr (by rw [apply_set rfl, upd_same]))⟩
  | _ =>
    left
    cases hturn with
    | same e => rw [e, hr]
    | leave on own =>
      obtain ⟨j, k', hj, hl⟩ := own
      rw [← code_on ho, hc] at hj
      cases hj
      cases hl
    | wake _ old | born _ old | undo _ old | ready _ old | reap _ old =>
      rw [old] at hr
      cases hr

theorem idle_mem {j : Op} (hi : Idle k) (hj : .op j ∈ k) : j.isCall = false := by
  induction k with
  | nil => cases hj
  | cons c k ih =>
    rcases List.mem_cons.mp hj with e | hk
    · rw [← e] at hi
      exact hi.1
    · cases c with
      | acquire | release => exact ih hi hk
      | op => exact ih hi.2 hk

theorem np_below {i j : Op} (hw : Wf (some p) (.op i :: k)) (hi : i.np = some q) (hj : .op j ∈ k) : j.np = none := by
  have hidle : Idle k := by
    rcases np_cases hi with rfl | rfl | rfl
    · exact hw.2.1 rfl
    · exact hw.2.1 rfl
    · exact hw.2.1 rfl
  cases hn : j.np with
  | none => rfl
  | some q' =>
    have := idle_mem hidle hj
    rcases np_cases hn with rfl | rfl | rfl <;> cases this

section Effect

variable {i : Op} {ok : Bool} (hI : Inv s) (hc : s.code h = .op i :: k) (hd : ∀ a b c, i ≠ .dispatch a b c)
  (hsw : ∀ a, i ≠ .switched a)

include hI hc hd hsw

/-- A slot that a fork works on stays as it is, unless the operation is of that fork. -/
theorem effect_fork {j : Op} (hj : .op j ∈ s.kstack p) (hn : j.np = some q)
    (hi : i.np = some q → ∀ q' v, (effect s (s.cpu h).proc ok i).set = some (q', v) → v.state = (s.proc q').state) :
    ((s.apply h (effect s (s.cpu h).proc ok i) k).proc q).state = .used ∧
      (s.apply h (effect s (s.cpu h).proc ok i) k).kstack q = forkret q := by
  obtain ⟨hu, hk⟩ := hI.fork p j q hj hn
  have hoq : (s.cpu h).on ≠ some q := fun e => (inside_used hI e).2 hu
  refine ⟨?_, ?_⟩
  · have hsame (e : i.np = some q) : ((s.apply h (effect s (s.cpu h).proc ok i) k).proc q).state = .used := by
      rcases apply_proc s h (effect s (s.cpu h).proc ok i) k q with eq | he
      · rw [eq, hu]
      · rw [hi e q _ he, hu]
    have hown : (∃ p j k, (s.cpu h).on = some p ∧ s.kstack p = .op j :: k ∧ j.np = some q) → i.np = some q := by
      intro ⟨p', j', k', ho', hk', hn'⟩
      rw [← code_on ho', hc] at hk'
      cases hk'
      exact hn'
    have hturn := effect_turn ok hI hc hd q
    cases hturn with
    | same e => rw [e, hu]
    | leave on => exact absurd on hoq
    | undo own _ _ | ready own _ _ => exact hsame (hown own)
    | wake _ old | born _ old | reap _ old => rw [old] at hu; cases hu
  · have hcp : (effect s (s.cpu h).proc ok i).cproc = none := effect_cproc hd hsw
    rcases apply_kstack (k := k) hcp hoq with ⟨e, _⟩ | ⟨_, e⟩
    · rw [e, hk]
    · exact e

theorem local_effect (hs : i ≠ .sched) (ht : ∀ a, i ≠ .swtch a) :
    Local s (s.apply h (effect s (s.cpu h).proc ok i) k) h := by
  have hcp : (effect s (s.cpu h).proc ok i).cproc = none := effect_cproc hd hsw
  have hwf := wf_code hI hc
  obtain ⟨hw, hperm⟩ : Wf _ ((effect s (s.cpu h).proc ok i).code ++ k) ∧ _ := effect_wf hwf (on_proc hI) ht
  have hctx {q : Slot} (he : (effect s (s.cpu h).proc ok i).ctx = some q) : (s.proc q).state = .unused := by
    obtain ⟨rfl, _⟩ := effect_ctx he
    obtain ⟨p, ho⟩ := fits_on hwf.1 id
    exact hI.found h p q ho (by rw [← code_on ho, hc]; exact .mem k)
  have hmem {p : Slot} (ho : (s.cpu h).on = some p) : s.kstack p = .op i :: k := by rw [← code_on ho, hc]
  refine ⟨fun h' _ => by rw [apply_cpu hcp], by rw [apply_cpu hcp], by rw [apply_cpu hcp],
    fun h' hh => apply_stack0 hcp hh, fun p ho => ?_, by rw [apply_code]; exact hw, ?_,
    fun h' _ => by rw [apply_lock]; exact hI.owns h', effect_turn ok hI hc hd, fun ho => ?_,
    fun p ho => effect_inside hI hc ho hd hs hcp, fun p q ho hf => ?_, fun p j q ho hj hn => ?_,
    fun p j q ho hj hn => ?_⟩
  · rcases apply_kstack (k := k) hcp ho with ⟨e, _⟩ | ⟨e, e'⟩
    · exact .inl e
    · exact .inr ⟨hctx e, by rw [apply_set (effect_ctx e).2.1, upd_same], e'⟩
  · rw [apply_lock, apply_cpu hcp, apply_code]
    exact owns_perm (hc ▸ hI.owns h) hperm
  · have h0 : s.stack0 h = .op i :: k := by rw [← code_off ho, hc]
    rw [apply_code]
    cases hI.hart h with
    | idle _ proc code =>
      refine ⟨proc, fun p => ?_⟩
      obtain ⟨e1, e2⟩ : .op (.swtch p) ∉ (effect s (s.cpu h).proc ok i).code ∧ _ := effect_idle (ho ▸ hwf.1) hd ht hsw
      have hk := code p
      rw [h0] at hk
      simp only [List.mem_append, not_or]
      exact ⟨⟨e1, fun e => hk.1 (.tail _ e)⟩, e2, fun e => hk.2 (.tail _ e)⟩
    | enter p _ _ code =>
      rw [h0] at code
      cases code
      exact absurd rfl (ht p)
    | leave p _ _ code =>
      rw [h0] at code
      cases code
      exact absurd rfl (hsw p)
    | inside p on => rw [on] at ho; cases ho
  · rw [apply_stack hcp ho] at hf
    by_cases hp : i = .panic
    · subst hp
      cases hf
    rcases effect_found hwf hp hf with ⟨hu, he, _⟩ | ⟨hi, he⟩
    · rw [apply_unset he, hu]
    · subst hi
      have hu := hI.found h p q ho (by rw [hmem ho]; exact .pid k)
      rcases apply_proc s h (effect s (s.cpu h).proc ok (.allocpid q)) k q with e | hset
      · rw [e, hu]
      · rw [he q _ hset, hu]
  · rw [apply_stack hcp ho] at hj
    have hq : s.kstack p = .op i :: k := hmem ho
    rcases List.mem_append.mp hj with hj | hj
    · rcases effect_np hj hn with ⟨hi, he⟩ | he
      · refine effect_fork hI hc hd hsw (j := i) (by rw [hq]; exact .head _) hi fun _ q' v hv => ?_
        rw [(he q' v hv).2, (he q' v hv).1]
      · refine ⟨by rw [apply_set (effect_ctx he).2.1, upd_same], ?_⟩
        have hoq : (s.cpu h).on ≠ some q := fun e => (inside_used hI e).1 (hctx he)
        rcases apply_kstack (k := k) hcp hoq with ⟨_, e⟩ | ⟨_, e⟩
        · exact absurd he e
        · exact e
    · refine effect_fork hI hc hd hsw (by rw [hq]; exact .tail _ hj) hn fun hi => ?_
      rw [np_below (ho ▸ hwf) hi hj] at hn
      cases hn
  · rw [apply_stack hcp ho] at hj
    rcases List.mem_append.mp hj with hj | hj
    · rcases effect_np hj hn with ⟨hi, _⟩ | he
      · exact .inl ⟨i, by rw [hmem ho]; exact .head _, hi⟩
      · exact .inr (hctx he)
    · exact .inl ⟨j, by rw [hmem ho]; exact .tail _ hj, hn⟩

end Effect

/-- The hart goes on with other code; it may have taken or released a lock. -/
theorem inv_goto {lock : Lock → Option H} {n : Nat} (hI : Inv s) (hw : Wf (s.cpu h).on k)
    (howns : Owns Op.holds lock n h k) (hframe : ∀ h', h' ≠ h → Owns Op.holds lock (s.cpu h').noff h' (s.code h'))
    (hidle : (s.cpu h).on = none → (s.cpu h).proc = none ∧ ∀ p, .op (.swtch p) ∉ k ∧ .op (.switched p) ∉ k)
    (hin : ∀ p, (s.cpu h).on = some p → (s.proc p).state = .running ∨ Left s p ∧ Leaving k ∧ .proc p ∈ held Op.holds k)
    (hfound : ∀ q, Found q k → Found q (s.code h)) (hnp : ∀ j, .op j ∈ k → j.np = none ∨ .op j ∈ s.code h) :
    Inv ({ s with lock := lock, cpu := upd s.cpu h { s.cpu h with noff := n } }.goto h k) := by
  have hon : (upd s.cpu h { s.cpu h with noff := n } h).on = (s.cpu h).on := by rw [upd_same]
  have hpr : (upd s.cpu h { s.cpu h with noff := n } h).proc = (s.cpu h).proc := by rw [upd_same]
  have hcode {p : Slot} (ho : (s.cpu h).on = some p) :
      ({ s with lock := lock, cpu := upd s.cpu h { s.cpu h with noff := n } }.goto h k).kstack p = k := by
    rw [goto_on (hon.trans ho)]
    exact upd_same _ _ _
  refine inv_local hI (local_code hI goto_proc (fun h' hne => ?_) (by rw [goto_cpu]; exact hon)
    (by rw [goto_cpu]; exact hpr)
    (fun h' hh => ?_) (fun p ho => ?_) (by rw [goto_code]; exact hw) ?_ (by rw [goto_lock]; exact hframe)
    (by rw [goto_code]; exact hidle) (fun p ho => ?_) (fun p q _ => by rw [goto_code]; exact hfound q)
    (by rw [goto_code]; exact hnp))
  · rw [goto_cpu]
    exact upd_ne _ _ hne
  · cases ho : (s.cpu h).on with
    | none =>
      rw [goto_off (hon.trans ho)]
      exact upd_ne _ _ fun e => hh e ho
    | some p => rw [goto_on (hon.trans ho)]
  · cases ho' : (s.cpu h).on with
    | none => rw [goto_off (hon.trans ho')]
    | some p' =>
      rw [goto_on (hon.trans ho')]
      exact upd_ne _ _ fun e => ho (e ▸ ho')
  · rw [goto_lock, goto_cpu, goto_code, show (upd s.cpu h { s.cpu h with noff := n } h).noff = n by rw [upd_same]]
    exact howns
  · rcases hin p ho with e | ⟨hl, e, e'⟩
    · exact .inl e
    refine .inr ⟨?_, ?_, ?_⟩
    · rw [hcode ho]
      exact e
    · rw [hcode ho]
      exact e'
    · rw [goto_proc]
      exact hl.state

theorem inv_code (hI : Inv s) (hw : Wf (s.cpu h).on k) (hp : (held Op.holds k).Perm (held Op.holds (s.code h)))
    (hidle : (s.cpu h).on = none → (s.cpu h).proc = none ∧ ∀ p, .op (.swtch p) ∉ k ∧ .op (.switched p) ∉ k)
    (hin : ∀ p, (s.cpu h).on = some p → (s.proc p).state = .running ∨ Left s p ∧ Leaving k ∧ .proc p ∈ held Op.holds k)
    (hfound : ∀ q, Found q k → Found q (s.code h)) (hnp : ∀ j, .op j ∈ k → j.np = none ∨ .op j ∈ s.code h) :
    Inv (s.goto h k) := by
  have := inv_goto hI hw (owns_perm (hI.owns h) hp) (fun h' _ => hI.owns h') hidle hin hfound hnp
  rwa [show upd s.cpu h { s.cpu h with noff := (s.cpu h).noff } = s.cpu from upd_self _ _] at this

theorem inv_panic (hI : Inv s) (hc : s.code h = c :: k) (hs : ∀ i, c = .op i → i = .sched)
    (hl : ∀ l, c = .release l → ∀ p, (s.cpu h).on = some p → (s.proc p).state = .running) : Inv (s.panic h) := by
  have hw := wf_code hI hc
  refine inv_code hI ?_ ?_ (fun ho => ?_) (fun p ho => ?_) (fun q hf => ?_) (fun j hj => ?_)
  · rw [hc]
    refine ⟨?_, (fun e => by cases e), ?_, hw⟩
    · cases (s.cpu h).on <;> trivial
    · cases c with
      | acquire l => exact tops_acquire.mpr fun _ _ => rfl
      | release l => exact tops_release.mpr fun _ => rfl
      | op i =>
        rw [hs i rfl]
        exact tops_op.mpr trivial
  · exact .refl _
  · obtain ⟨hp, hn⟩ := idle_of hI ho hc (fun p e => by cases hs _ e) (fun p e => by cases hs _ e)
    refine ⟨hp, fun p => ⟨fun e => ?_, fun e => ?_⟩⟩
    · rcases List.mem_cons.mp e with e | e
      · cases e
      · exact (hn p).1 e
    · rcases List.mem_cons.mp e with e | e
      · cases e
      · exact (hn p).2 e
  · rcases inside_left hI ho with e | ⟨hleft, hlv, hm⟩
    · exact .inl e
    · rw [hc] at hlv hm ⊢
      cases hlv with
      | sched => exact .inr ⟨hleft, .panic _, hm⟩
      | panic => cases hs _ rfl
      | exit => exact .inl (hl _ rfl p ho)
  · cases hf
  · rcases List.mem_cons.mp hj with e | e
    · cases e
      exact .inl rfl
    · exact .inr e

theorem inv_acquire {l : Lock} (hI : Inv s) (hc : s.code h = .acquire l :: k) : Inv (acquire s h l k) := by
  have hw := wf_code hI hc
  unfold acquire
  split
  · rename_i hl
    refine inv_goto hI hw.2.2.2 (owns_acquire (hc ▸ hI.owns h) (wf_balanced hw) hl) (fun h' hne => ?_) (fun ho => ?_)
      (fun p ho => ?_) (fun q hf => ?_) (fun j hj => .inr (by rw [hc]; exact .tail _ hj))
    · exact owns_frame (hI.owns h') (by rw [hl]; exact (fun e => by cases e)) fun e => hne (Option.some.inj e).symm
    · obtain ⟨hp, hn⟩ := idle_of hI ho hc (fun _ e => by cases e) (fun _ e => by cases e)
      rw [hc] at hn
      exact ⟨hp, fun p => ⟨fun e => (hn p).1 (.tail _ e), fun e => (hn p).2 (.tail _ e)⟩⟩
    · rcases inside_left hI ho with e | ⟨_, hlv, _⟩
      · exact .inl e
      · rw [hc] at hlv
        cases hlv
    · have ht := hw.2.2.1
      rw [hc]
      cases hf with
      | pid k =>
        have := tops_op.mp ht
        cases this
        exact .lock k
      | lock | unlock | mem => simp_all [Op.Under]
  · split
    · exact inv_panic hI hc (fun i e => by cases e) (fun l e => by cases e)
    · exact hI

theorem inv_release {l : Lock} (hI : Inv s) (hc : s.code h = .release l :: k) : Inv (release s h l k) := by
  have hw := wf_code hI hc
  have ho : Owns Op.holds s.lock (s.cpu h).noff h (.release l :: k) := hc ▸ hI.owns h
  have hl : s.lock l = some h := owns_mem ho (.head _)
  have hn : ¬(s.cpu h).noff < 1 := by
    rw [ho.count]
    simp
  unfold release
  rw [if_pos hl, if_neg hn]
  refine inv_goto hI hw.2.2 (owns_release ho) (fun h' hne => ?_) (fun hon => ?_) (fun p hon => ?_) (fun q hf => ?_)
    (fun j hj => .inr (by rw [hc]; exact .tail _ hj))
  · refine owns_frame (hI.owns h') ?_ (fun e => by cases e)
    rw [hl]
    exact fun e => hne (Option.some.inj e).symm
  · obtain ⟨hp, hn⟩ := idle_of hI hon hc (fun _ e => by cases e) (fun _ e => by cases e)
    rw [hc] at hn
    exact ⟨hp, fun p => ⟨fun e => (hn p).1 (.tail _ e), fun e => (hn p).2 (.tail _ e)⟩⟩
  · rcases inside_left hI hon with e | ⟨hleft, hlv, hm⟩
    · exact .inl e
    rw [hc] at hlv hm
    cases hlv with
    | exit k =>
      refine .inr ⟨hleft, .sched _, ?_⟩
      rcases List.mem_cons.mp hm with e | e
      · cases e
      · exact e
  · have ht := hw.2.1
    rw [hc]
    cases hf with
    | mem k =>
      have := tops_op.mp ht
      cases this
      exact .unlock k
    | lock | unlock | pid => simp_all [Op.Under]

/-- A call goes on with well-formed code that counts on the same locks. -/
theorem call_wf (c : Call) (hw : Wf (some p) (.op (.body locks status) :: k)) :
    Wf (some p) (call p locks status c ++ k) ∧
      (held Op.holds (call p locks status c ++ k)).Perm (held Op.holds (.op (.body locks status) :: k)) := by
  obtain ⟨hf, ha, ht, hk⟩ := hw
  replace ht : ∀ c, Tops c k := fun c => tops_any ht rfl Op.noConfusion
  have hbody (ls : List Nat) : Wf (some p) (.op (.body ls status) :: k) :=
    ⟨trivial, by cases status <;> exact ha, ht _, hk⟩
  have herase (a : Nat) (hm : a ∈ locks) : (a :: locks.erase a).Perm locks := (List.perm_cons_erase hm).symm
  cases c with
  | acquire a =>
    refine ⟨⟨by simp [Op.holds], (fun e => by cases e), trivial, hbody _⟩, ?_⟩
    simp [call, Op.holds]
  | release a =>
    simp only [call]
    split
    · rename_i hm
      refine ⟨⟨(fun e => by cases e), trivial, hbody _⟩, ?_⟩
      have := ((herase a hm).map Lock.other).append_right (held Op.holds k)
      simpa [Op.holds] using this
    · exact ⟨⟨trivial, (fun e => by cases e), trivial, hbody _⟩, .refl _⟩
  | sleep c a =>
    simp only [call]
    split
    · rename_i hc
      refine ⟨⟨trivial, ⟨?_, ?_, (fun _ => ⟨a, rfl⟩)⟩, trivial, hbody _⟩, .refl _⟩
      · simp [Op.holds, hc.2]
      · rw [hc.1]
        exact (fun e => by cases e)
    · exact ⟨hbody _, .refl _⟩
  | wakeup c =>
    simp only [call]
    split
    · rename_i hc
      refine ⟨⟨trivial, ?_, trivial, hbody _⟩, .refl _⟩
      show Chan.isProc c = true → _
      rw [hc]
      exact (fun e => by cases e)
    · exact ⟨hbody _, .refl _⟩
  | yield | usertrap | kfork | kexit | kwait | kkill | setkilled | killed =>
    cases status with
    | some st => exact ⟨hbody _, .refl _⟩
    | none =>
      cases ha
      simp_all [call, Op.holds, Op.Fits, Op.Above, Op.Under, Op.isCall, Op.isCalm]

/-- No fork and no found slot in the code of a call. -/
theorem call_plain (c : Call) :
    (∀ j, .op j ∈ call p locks status c → j.np = none) ∧ ∀ q k, ¬Found q (call p locks status c ++ k) := by
  have hbody (ls : List Nat) : (Op.body ls status).np = none := rfl
  have hstop (q : Slot) (ls : List Nat) (k : Code) : ¬Found q (.op (.body ls status) :: k) := fun hf => by cases hf
  cases c with
  | acquire a => simp_all [call, Op.np]; intro q k hf; cases hf
  | release a | sleep c a | wakeup c => simp only [call]; split <;> simp_all [Op.np] <;> intro q k hf <;> cases hf
  | yield | usertrap | kfork | kexit | kwait | kkill | setkilled | killed =>
    cases status with
    | some st => simp_all [call]
    | none =>
      simp_all [call, Op.np]
      intro q k hf
      cases hf

theorem inv_call (hI : Inv s) (hc : s.code h = .op (.body locks status) :: k) (hp : (s.cpu h).proc = some p)
    (c : Call) :
    Inv (s.goto h (call p locks status c ++ k)) := by
  have hw := wf_code hI hc
  obtain ⟨p', ho⟩ := fits_on hw.1 id
  have he : p' = p := Option.some.inj ((inside_proc hI ho).symm.trans hp)
  subst he
  rw [ho] at hw
  obtain ⟨hw', hperm⟩ := call_wf c hw
  obtain ⟨hnp, hf⟩ : (∀ j, .op j ∈ call p' locks status c → j.np = none) ∧ _ := call_plain c
  refine inv_code hI (ho ▸ hw') (by rw [hc]; exact hperm) (fun e => by rw [ho] at e; cases e) (fun q hq => .inl ?_)
    (fun q hf' => absurd hf' (hf q k)) (fun j hj => ?_)
  · exact inside_running hI hq hc Op.noConfusion Op.noConfusion
  · rcases List.mem_append.mp hj with e | e
    · exact .inl (hnp j e)
    · exact .inr (by rw [hc]; exact .tail _ e)

/-- Where no lock is held, anything can come on top. -/
theorem tops_free {o : Option Slot} (hw : Wf o k) (hh : held Op.holds k = []) : Tops c k := by
  rcases k with _ | ⟨l | l | i, k⟩
  · trivial
  · refine tops_acquire.mpr fun e e' => ?_
    obtain ⟨q, k', rfl⟩ := e'
    simp [Op.holds] at hh
  · cases hh
  · cases i <;> simp_all [Op.Under, Op.holds]

/-- An interrupt: `new` runs before the thread goes on. -/
theorem inv_interrupt {new : Code} (hI : Inv s) (hn : (s.cpu h).noff = 0)
    (hnew : ∀ k, Wf (s.cpu h).on k → (∀ c, Tops c k) → Wf (s.cpu h).on (new ++ k) ∧
      held Op.holds (new ++ k) = held Op.holds k)
    (hop : ∀ j, .op j ∈ new → j.np = none ∧ ∀ p, j ≠ .swtch p ∧ j ≠ .switched p)
    (hf : ∀ q k, Found q (new ++ k) → Found q k) :
    Inv (s.goto h (new ++ s.code h)) := by
  have hh : held Op.holds (s.code h) = [] := List.eq_nil_of_length_eq_zero ((hI.owns h).count.symm.trans hn)
  have hw : Wf (s.cpu h).on (s.code h) := wf_code hI rfl
  obtain ⟨hw', hp⟩ := hnew (s.code h) hw fun c => tops_free hw hh
  refine inv_code hI hw' (by rw [hp]) (fun ho => ?_) (fun p ho => ?_) (fun q => hf q _) (fun j hj => ?_)
  · rw [code_off ho] at hh ⊢
    cases hI.hart h with
    | idle _ proc code =>
      refine ⟨proc, fun p => ⟨fun e => ?_, fun e => ?_⟩⟩
      · rcases List.mem_append.mp e with e | e
        · exact ((hop _ e).2 p).1 rfl
        · exact (code p).1 e
      · rcases List.mem_append.mp e with e | e
        · exact ((hop _ e).2 p).2 rfl
        · exact (code p).2 e
    | enter p _ _ code | leave p _ _ code =>
      rw [code] at hh
      cases hh
    | inside p on => rw [on] at ho; cases ho
  · rcases inside_left hI ho with e | ⟨_, _, hm⟩
    · exact .inl e
    · rw [hh] at hm
      cases hm
  · rcases List.mem_append.mp hj with e | e
    · exact .inl (hop j e).1
    · exact .inr e

theorem devintr_wf {o : Option Slot} (c : Chan) (a : Nat) (hc : Chan.isProc c = false) (hw : Wf o k)
    (ht : ∀ c, Tops c k) :
    Wf o (devintr c a ++ k) ∧ held Op.holds (devintr c a ++ k) = held Op.holds k := by
  cases o <;> simp_all [devintr, Op.holds, Op.Fits, Op.Above, Op.Under]

section

variable (hI : Inv s) (hn : (s.cpu h).noff = 0)

include hI hn

theorem inv_devintr (c : Chan) (a : Nat) (hc : Chan.isProc c = false) :
    Inv (s.goto h (devintr c a ++ s.code h)) := by
  refine inv_interrupt hI hn (fun k hw ht => devintr_wf c a hc hw ht) (fun j hj => ?_) (fun q k hf => by cases hf)
  simp [devintr] at hj
  subst hj
  exact ⟨rfl, fun p => ⟨Op.noConfusion, Op.noConfusion⟩⟩

theorem inv_timer (clock : Bool) (a : Nat) :
    Inv (s.goto h ((if clock then devintr .ticks a else []) ++ (if (s.cpu h).proc.isSome then [.op .yield] else []) ++
      s.code h)) := by
  have hyield {k : Code} (hp : (s.cpu h).proc.isSome) (hw : Wf (s.cpu h).on k) (ht : ∀ c, Tops c k) :
      Wf (s.cpu h).on (.op .yield :: k) := by
    obtain ⟨p, ho⟩ := free_proc hI hn hp
    rw [ho] at hw ⊢
    exact ⟨trivial, (fun e => by cases e), ht _, hw⟩
  refine inv_interrupt hI hn (fun k hw ht => ?_) (fun j hj => ?_) (fun q k hf => ?_)
  · by_cases hp : (s.cpu h).proc.isSome
    · have hy := hyield hp hw ht
      cases clock
      · simp only [hp]
        exact ⟨hy, rfl⟩
      · simp only [hp, List.append_assoc]
        exact devintr_wf .ticks a rfl hy fun c => trivial
    · cases clock
      · simp only [hp]
        exact ⟨hw, rfl⟩
      · simp only [hp, List.append_assoc]
        exact devintr_wf .ticks a rfl hw ht
  · have hj' : j = .yield ∨ j = .wakeup (some .ticks) all := by
      rcases List.mem_append.mp hj with e | e
      · split at e
        · simp [devintr] at e
          exact .inr e
        · cases e
      · split at e
        · simp at e
          exact .inl e
        · cases e
    rcases hj' with rfl | rfl <;> exact ⟨rfl, fun p => ⟨Op.noConfusion, Op.noConfusion⟩⟩
  · by_cases hp : (s.cpu h).proc.isSome <;> cases clock <;> simp only [hp] at hf
    · cases hf
    · cases hf
    · exact hf
    · cases hf

end

end Inv

end Xv6.Smp
