/-
  Xv6.Smp.ThreadsProofs — a process runs on at most one hart (see `Xv6.Smp.Threads`): the
  context switches keep the invariant of `Xv6.Smp.Turns`, and with it `p->lock` is held
  from the moment a process enters or leaves RUNNING until the switch is complete.
-/

import Xv6.Smp.Moves

namespace Xv6.Smp

open Lib
open Sched (Slot Proc Chan ProcState freeproc incr charge)

section Inv

variable {H : Type} {s s' : St H} {h h' : H} {p q : Slot} {k : Code}

/-- A hart that takes no part in a step of another. -/
theorem hart_frame (hh : Hart s h') (hcpu : s'.cpu h' = s.cpu h') (h0 : s'.stack0 h' = s.stack0 h')
    (hproc : ∀ p, (s.cpu h').proc = some p → (s'.proc p).state = (s.proc p).state)
    (hk : ∀ p, (s.cpu h').on = some p → s'.kstack p = s.kstack p) : Hart s' h' := by
  cases hh with
  | idle on proc code => exact .idle (by rw [hcpu, on]) (by rw [hcpu, proc]) (by rw [h0]; exact code)
  | enter p on proc code state =>
    exact .enter p (by rw [hcpu, on]) (by rw [hcpu, proc]) (by rw [h0, code]) (by rw [hproc p proc, state])
  | inside p on proc code state =>
    refine .inside p (by rw [hcpu, on]) (by rw [hcpu, proc]) (by rw [h0, code]) ?_
    rcases state with e | hl
    · exact .inl (by rw [hproc p proc, e])
    · exact .inr ⟨hk p on ▸ hl.code, hk p on ▸ hl.lock, hproc p proc ▸ hl.state⟩
  | leave p on proc code state =>
    exact .leave p (by rw [hcpu, on]) (by rw [hcpu, proc]) (by rw [h0, code]) (by rw [hproc p proc]; exact state)

theorem back_found (hb : s.kstack p = [] ∨ Back p (s.kstack p)) : ¬Found q (s.kstack p) := by
  intro hf
  rcases hb with e | e
  · rw [e] at hf
    cases hf
  · generalize s.kstack p = k at e hf
    cases e <;> cases hf

/-! ## The state at boot -/

theorem boot_state : (Sched.boot.proc Sched.boot.initproc).state = .runnable ∧
    ∀ p, p ≠ Sched.boot.initproc → (Sched.boot.proc p).state = .unused := by decide +kernel

theorem boot_kstack : (boot : St H).kstack = upd (fun _ => []) Sched.boot.initproc (forkret Sched.boot.initproc) := rfl

theorem inv_boot : Inv (boot : St H) := by
  have hk (p : Slot) : (boot : St H).kstack p = [] ∨ p = Sched.boot.initproc ∧ (boot : St H).kstack p = forkret p := by
    rw [boot_kstack]
    by_cases e : p = Sched.boot.initproc
    · exact .inr ⟨e, by rw [e, upd_same]⟩
    · exact .inl (upd_ne _ _ e)
  have hstate (p : Slot) : ((boot : St H).proc p).state ≠ .running := by
    show (Sched.boot.proc p).state ≠ .running
    by_cases e : p = Sched.boot.initproc
    · rw [e]
      exact ProcState.noConfusion
    · rw [boot_state.2 p e]
      exact ProcState.noConfusion
  refine ⟨fun p => ?_, fun h => ?_, fun h => ?_, fun h => ?_, (fun h _ p e => by cases e),
    fun p e => absurd e (hstate p),
    fun p _ => ?_, (fun h p q e => by cases e), fun p i q hi hn => ?_, fun p _ i _ q hi _ hn => ?_⟩
  · rcases hk p with e | ⟨_, e⟩
    · rw [e]
      exact wf_nil
    · rw [e]
      exact wf_forkret
  · exact ⟨trivial, rfl, trivial, trivial⟩
  · exact ⟨fun l => ⟨(fun e => by cases e), (fun e => by cases e)⟩, List.nodup_nil, rfl⟩
  · exact .idle rfl rfl fun p => by simp [boot]
  · rcases hk p with e | ⟨hp, e⟩
    · refine ⟨.inl e, (fun l hl => by rw [e] at hl; cases hl), fun hr => ?_⟩
      have hne : p ≠ Sched.boot.initproc := fun hp => by
        rw [boot_kstack, hp] at e
        cases e
      have hu : ((boot : St H).proc p).state = .unused := boot_state.2 p hne
      rw [hu] at hr
      rcases hr with hr | hr | hr <;> cases hr
    · refine ⟨.inr (e ▸ .yield _), fun l hl => ?_, fun _ => e ▸ held_forkret⟩
      rw [e] at hl
      exact List.mem_singleton.mp hl
  · rcases hk p with e | ⟨_, e⟩
    · rw [e] at hi
      cases hi
    · rw [np_forkret (e ▸ hi)] at hn
      cases hn
  · rcases hk p with e | ⟨_, e⟩
    · rw [e] at hi
      cases hi
    · rw [np_forkret (e ▸ hi)] at hn
      cases hn

/-! ## Who has a process -/

/-- The hart has `c->proc = p`, or runs on the kernel stack of `p`. -/
def Has (s : St H) (h : H) (p : Slot) : Prop := (s.cpu h).proc = some p ∨ (s.cpu h).on = some p

/-- The switch to `p` is complete, and no other has begun. -/
def Settled (s : St H) (h : H) (p : Slot) : Prop :=
  (s.cpu h).proc = some p ∧ (s.cpu h).on = some p ∧ (s.proc p).state = .running

theorem has_proc (hI : Inv s) (hh : Has s h p) : (s.cpu h).proc = some p := by
  rcases hh with e | e
  · exact e
  · exact inside_proc hI e

theorem has_held (hI : Inv s) (hh : Has s h p) : Settled s h p ∨ s.lock (.proc p) = some h := by
  have hp := has_proc hI hh
  have hlock (hm : .proc p ∈ held Op.holds (s.code h)) : s.lock (.proc p) = some h := lock_code hI hm
  cases hI.hart h with
  | idle _ proc => rw [proc] at hp; cases hp
  | enter q on proc code | leave q on proc code =>
    rw [proc] at hp
    cases hp
    exact .inr (hlock (by rw [code_off on, code]; exact .head _))
  | inside q on proc _ state =>
    rw [proc] at hp
    cases hp
    rcases state with e | hl
    · exact .inl ⟨proc, on, e⟩
    · exact .inr (left_lock hI on hl)

/-- Whoever changes the state of a process has its lock. -/
theorem write_holds {me : Option Slot} {i : Op} {v : Proc} (hw : Write s me i q v) (hv : v.state ≠ (s.proc q).state) :
    .proc q ∈ i.holds := by
  cases hw with
  | charge => exact absurd (charge_state _) hv
  | tidy | allocpid | setParent | reparent | setkilled => exact absurd rfl hv
  | dispatch | wake | giveUp | doze | alloc | allocFail | undo | forkEnd | die | reap | kill => simp [Op.holds]

/-! ## Context switches -/

variable [DecidableEq H]

/-- A step of hart `h` that switches between its scheduler and process `p`, with the lock of `p` held. -/
structure Switch (s s' : St H) (h : H) (p : Slot) : Prop where
  cpu : ∀ h', h' ≠ h → s'.cpu h' = s.cpu h'
  lock : s'.lock = s.lock
  noff : (s'.cpu h).noff = (s.cpu h).noff
  stack0 : ∀ h', h' ≠ h → s'.stack0 h' = s.stack0 h'
  kstack : ∀ q, q ≠ p → s'.kstack q = s.kstack q
  state : ∀ q, q ≠ p → (s'.proc q).state = (s.proc q).state
  /-- The process is this hart's, before and after. -/
  mine : ∀ h', h' ≠ h → (s.cpu h').proc ≠ some p
  proc : ∀ q, (s.cpu h).proc = some q ∨ (s'.cpu h).proc = some q → q = p
  wfp : Wf (some p) (s'.kstack p)
  wf0 : Wf none (s'.stack0 h)
  held : held Op.holds (s'.code h) = held Op.holds (s.code h)
  hart : Hart s' h
  run : (s'.proc p).state = .running → (s'.cpu h).proc = some p
  off : (s'.cpu h).on ≠ some p → Off s' p
  found : ∀ q, (s'.cpu h).on = some p → ¬Found q (s'.kstack p)
  used : (s.proc p).state ≠ .unused ∧ (s.proc p).state ≠ .used
  code : ∀ j, .op j ∈ s'.kstack p → .op j ∈ s.kstack p

theorem inv_switch (hI : Inv s) (hS : Switch s s' h p) : Inv s' := by
  have hne {h' : H} {q : Slot} (hh : h' ≠ h) (e : (s.cpu h').proc = some q) : q ≠ p := fun eq => hS.mine h' hh (eq ▸ e)
  have hon {h' : H} {q : Slot} (hh : h' ≠ h) (e : (s.cpu h').on = some q) : q ≠ p := hne hh (inside_proc hI e)
  have hself {q : Slot} (e : (s'.cpu h).on = some q) : q = p := by
    cases hS.hart with
    | inside p' on proc =>
      rw [on] at e
      exact Option.some.inj e ▸ hS.proc p' (.inr proc)
    | idle on | enter _ on | leave _ on => rw [on] at e; cases e
  have hold {q : Slot} {j : Op} (e : .op j ∈ s'.kstack q) : .op j ∈ s.kstack q := by
    by_cases hq : q = p
    · rw [hq] at e ⊢
      exact hS.code j e
    · rwa [hS.kstack q hq] at e
  refine ⟨fun q => ?_, fun h' => ?_, fun h' => ?_, fun h' => ?_, fun h1 h2 q e1 e2 => ?_,
    fun q hr => ?_, fun q ho => ?_,
    fun h' q' q ho hf => ?_, fun q' j q hj hn => ?_, fun p1 p2 i j q hi hj =>
      hI.forkOne p1 p2 i j q (hold hi) (hold hj)⟩
  · by_cases hq : q = p
    · rw [hq]
      exact hS.wfp
    · rw [hS.kstack q hq]
      exact hI.wfp q
  · by_cases hh : h' = h
    · rw [hh]
      exact hS.wf0
    · rw [hS.stack0 h' hh]
      exact hI.wf0 h'
  · by_cases hh : h' = h
    · rw [hh, hS.lock, hS.noff]
      exact owns_perm (hI.owns h) (by rw [hS.held])
    have hcode : s'.code h' = s.code h' := by
      cases ho : (s.cpu h').on with
      | none => rw [code_off ho, code_off (by rw [hS.cpu h' hh, ho]), hS.stack0 h' hh]
      | some q => rw [code_on ho, code_on (by rw [hS.cpu h' hh, ho]), hS.kstack q (hon hh ho)]
    rw [hcode, hS.cpu h' hh, hS.lock]
    exact hI.owns h'
  · by_cases hh : h' = h
    · rw [hh]
      exact hS.hart
    · exact hart_frame (hI.hart h') (hS.cpu h' hh) (hS.stack0 h' hh) (fun q e => hS.state q (hne hh e))
        (fun q e => hS.kstack q (hon hh e))
  · by_cases hh1 : h1 = h
    · by_cases hh2 : h2 = h
      · rw [hh1, hh2]
      · rw [hh1] at e1
        rw [hS.cpu h2 hh2] at e2
        exact absurd (hS.proc q (.inr e1)) (hne hh2 e2)
    · rw [hS.cpu h1 hh1] at e1
      by_cases hh2 : h2 = h
      · rw [hh2] at e2
        exact absurd (hS.proc q (.inr e2)) (hne hh1 e1)
      · rw [hS.cpu h2 hh2] at e2
        exact hI.one h1 h2 q e1 e2
  · by_cases hq : q = p
    · exact ⟨h, hq ▸ hS.run (hq ▸ hr)⟩
    · rw [hS.state q hq] at hr
      obtain ⟨h', e⟩ := hI.run q hr
      have hh : h' ≠ h := fun hh => hq (hS.proc q (.inl (hh ▸ e)))
      exact ⟨h', by rw [hS.cpu h' hh, e]⟩
  · by_cases hq : q = p
    · rw [hq] at ho ⊢
      exact hS.off (ho h)
    · obtain ⟨o1, o2, o3⟩ := hI.off q fun h' e => by
        by_cases hh : h' = h
        · exact hq (hS.proc q (.inl (hh ▸ inside_proc hI e)))
        · exact ho h' (by rw [hS.cpu h' hh, e])
      exact ⟨hS.kstack q hq ▸ o1, hS.kstack q hq ▸ o2, by rw [hS.kstack q hq, hS.state q hq]; exact o3⟩
  · by_cases hh : h' = h
    · rw [hh] at ho
      have hq := hself ho
      rw [hq] at ho hf
      exact absurd hf (hS.found q ho)
    · rw [hS.cpu h' hh] at ho
      rw [hS.kstack q' (hon hh ho)] at hf
      have hu := hI.found h' q' q ho hf
      have hq : q ≠ p := fun e => hS.used.1 (e ▸ hu)
      rw [hS.state q hq, hu]
  · obtain ⟨hu, hk⟩ := hI.fork q' j q (hold hj) hn
    have hq : q ≠ p := fun e => hS.used.2 (e ▸ hu)
    rw [hS.state q hq, hS.kstack q hq]
    exact ⟨hu, hk⟩

theorem inv_swtch (hI : Inv s) (hc : s.code h = .op (.swtch p) :: k) : Inv (swtch s h p k) := by
  have ho : (s.cpu h).on = none := stack_off (wf_code hI hc) fun _ => id
  rw [code_off ho] at hc
  have hent : (s.cpu h).proc = some p ∧ s.stack0 h = [.op (.swtch p), .op (.switched p)] ∧
      (s.proc p).state = .running := by
    cases hI.hart h with
    | enter p' _ proc code state =>
      rw [hc] at code
      cases code
      exact ⟨proc, hc, state⟩
    | idle _ _ code => exact absurd (hc ▸ .head _) (code p).1
    | leave p' _ _ code =>
      rw [hc] at code
      cases code
    | inside p' on => rw [on] at ho; cases ho
  obtain ⟨hp, h0, hr⟩ := hent
  rw [h0] at hc
  cases hc
  -- no other hart is on the stack of the process
  have hOff := hI.off p fun h' e => by
    rw [hI.one h' h p (inside_proc hI e) hp, ho] at e
    cases e
  have hgoto : swtch s h p [.op (.switched p)] =
      { s with stack0 := upd s.stack0 h [.op (.switched p)], cpu := upd s.cpu h { s.cpu h with on := some p } } := by
    unfold swtch
    rw [goto_off ho]
  generalize hs' : swtch s h p [.op (.switched p)] = s'
  rw [hgoto] at hs'
  have hcpu : s'.cpu = upd s.cpu h { s.cpu h with on := some p } := by rw [← hs']
  have hst : s'.stack0 = upd s.stack0 h [.op (.switched p)] := by rw [← hs']
  have hks : s'.kstack = s.kstack := by rw [← hs']
  have hpr : s'.proc = s.proc := by rw [← hs']
  have hon : (s'.cpu h).on = some p := by rw [hcpu, upd_same]
  have hp' : (s'.cpu h).proc = some p := by rw [hcpu, upd_same, hp]
  refine inv_switch hI ⟨fun h' hh => by rw [hcpu, upd_ne _ _ hh], by rw [← hs'], by rw [hcpu, upd_same],
    fun h' hh => by rw [hst, upd_ne _ _ hh], fun _ _ => by rw [hks], fun _ _ => by rw [hpr],
    fun h' hh e => hh (hI.one h' h p e hp), fun q e => ?_, by rw [hks]; exact hI.wfp p, ?_, ?_, ?_, fun _ => hp',
    fun e => absurd hon e, fun q _ => by rw [hks]; exact back_found hOff.code, ?_, fun _ => by rw [hks]; exact id⟩
  · rcases e with e | e
    · exact Option.some.inj (e.symm.trans hp)
    · exact Option.some.inj (e.symm.trans hp')
  · rw [hst, upd_same]
    exact wf_tail (h0 ▸ hI.wf0 h)
  · rw [code_on hon, code_off ho, h0, hks]
    exact hOff.ready (.inr (.inr hr))
  · exact .inside p hon hp' (by rw [hst, upd_same]) (.inl (by rw [hpr, hr]))
  · rw [hr]
    exact ⟨ProcState.noConfusion, ProcState.noConfusion⟩

theorem inv_sched (hI : Inv s) (hc : s.code h = .op .sched :: k) : Inv (sched s h k) := by
  have hw := wf_code hI hc
  have hpanic : Inv (s.panic h) := inv_panic hI hc (fun i e => (Lib.Code.op.inj e).symm) (fun l e => by cases e)
  obtain ⟨p, ho⟩ := fits_on hw.1 id
  have hp := inside_proc hI ho
  unfold sched
  rw [hp]
  dsimp only
  split
  · exact hpanic
  rename_i hcond
  rw [not_or, not_or, not_not, not_not] at hcond
  obtain ⟨hl, hn, hr⟩ := hcond
  -- the process holds its own lock and no other
  have howns : Owns Op.holds s.lock (s.cpu h).noff h (.op .sched :: k) := hc ▸ hI.owns h
  have hm : .proc p ∈ held Op.holds k := (howns.iff _).mp hl
  have hlen : (held Op.holds k).length = 1 := howns.count.symm.trans hn
  have hheld : held Op.holds k = [.proc p] := by
    obtain ⟨l, e⟩ := List.length_eq_one_iff.mp hlen
    rw [e, List.mem_singleton] at hm
    rw [e, hm]
  have hk : s.kstack p = .op .sched :: k := by rw [← code_on ho, hc]
  rw [ho] at hw
  have hback : Back p k := by
    obtain ⟨p', hb⟩ := hw.2.1
    cases hb with
    | yield k' =>
      have := (List.cons.inj hheld).1
      cases this
      exact .yield k'
    | sleep k' =>
      cases hw.2.2.2.1
      exact .sleep k'
    | exit k' =>
      cases hw.2.2.2.1
      exact .exit k'
  have h0 : s.stack0 h = [.op (.switched p)] := by
    cases hI.hart h with
    | inside p' on _ code => rw [code]; rw [on] at ho; cases ho; rfl
    | idle on | enter _ on | leave _ on => rw [on] at ho; cases ho
  rw [goto_on ho]
  generalize hs' : ({ s with kstack := upd s.kstack p k, cpu := upd s.cpu h { s.cpu h with on := none } } : St H) = s'
  have hcpu : s'.cpu = upd s.cpu h { s.cpu h with on := none } := by rw [← hs']
  have hst : s'.stack0 = s.stack0 := by rw [← hs']
  have hks : s'.kstack = upd s.kstack p k := by rw [← hs']
  have hpr : s'.proc = s.proc := by rw [← hs']
  have hon : (s'.cpu h).on = none := by rw [hcpu, upd_same]
  have hp' : (s'.cpu h).proc = some p := by rw [hcpu, upd_same, hp]
  have hk' : s'.kstack p = k := by rw [hks, upd_same]
  have hOff : Off s' p := by
    refine ⟨.inr (by rw [hk']; exact hback), fun l hl => ?_, fun _ => by rw [hk', hheld]⟩
    rw [hk', hheld] at hl
    exact List.mem_singleton.mp hl
  refine inv_switch hI ⟨fun h' hh => by rw [hcpu, upd_ne _ _ hh], by rw [← hs'], by rw [hcpu, upd_same],
    fun _ _ => by rw [hst], fun q hq => by rw [hks, upd_ne _ _ hq], fun _ _ => by rw [hpr],
    fun h' hh e => hh (hI.one h' h p e hp), fun q e => ?_, ?_, by rw [hst]; exact hI.wf0 h, ?_, ?_,
    fun e => absurd (by rw [← hpr]; exact e) hr, fun _ => hOff, fun q e => ?_, inside_used hI ho, fun j hj => ?_⟩
  · rcases e with e | e
    · exact Option.some.inj (e.symm.trans hp)
    · exact Option.some.inj (e.symm.trans hp')
  · rw [hk']
    exact hw.2.2.2
  · rw [code_off hon, code_on ho, hst, h0, hk]
    exact hheld.symm
  · refine .leave p hon hp' (by rw [hst, h0]) ?_
    rw [hpr]
    rcases inside_state hI ho with e | hl
    · exact absurd e hr
    · exact hl.state
  · rw [hon] at e
    cases e
  · rw [hk'] at hj
    rw [hk]
    exact .tail _ hj

theorem inv_dispatch {priority : Int} {todo : List Slot} {ok : Bool} (hI : Inv s)
    (hc : s.code h = .op (.dispatch p priority todo) :: k) :
    Inv (s.apply h (effect s (s.cpu h).proc ok (.dispatch p priority todo)) k) := by
  have hw := wf_code hI hc
  have ho : (s.cpu h).on = none := stack_off hw fun _ => id
  have hidle := idle_of hI ho hc (fun _ e => by cases e) (fun _ e => by cases e)
  obtain ⟨hw', hperm⟩ : Wf _ ((effect s (s.cpu h).proc ok (.dispatch p priority todo)).code ++ k) ∧ _ :=
    effect_wf hw (on_proc hI) fun _ => Op.noConfusion
  have hk : k = [] := hw.2.1
  subst hk
  have hl : s.lock (.proc p) = some h := lock_code hI (by rw [hc]; exact .head _)
  by_cases hcond : (s.proc p).state = .runnable ∧ (s.proc p).priority = priority
  · -- no hart has the process, since this one has its lock
    have hmine : ∀ h', h' ≠ h → (s.cpu h').proc ≠ some p := fun h' hh e => by
      have hlock (hm : .proc p ∈ held Op.holds (s.code h')) : False :=
        hh (Option.some.inj ((lock_code hI hm).symm.trans hl))
      cases hI.hart h' with
      | idle _ proc => rw [proc] at e; cases e
      | enter q on proc code state =>
        rw [proc] at e
        cases e
        rw [state] at hcond
        cases hcond.1
      | inside q on proc _ state =>
        rw [proc] at e
        cases e
        rcases state with e | hleft
        · rw [e] at hcond
          cases hcond.1
        · exact hlock (by rw [code_on on]; exact hleft.lock)
      | leave q on proc code =>
        rw [proc] at e
        cases e
        exact hlock (by rw [code_off on, code]; exact .head _)
    have hOff := hI.off p fun h' e => by
      by_cases hh : h' = h
      · rw [hh, ho] at e
        cases e
      · exact hmine h' hh (inside_proc hI e)
    have he : effect s (s.cpu h).proc ok (.dispatch p priority todo) =
        { code := [.op (.swtch p), .op (.switched p)], set := some (p, { s.proc p with state := .running }),
          cproc := some (some p) } := if_pos hcond
    generalize effect s (s.cpu h).proc ok (.dispatch p priority todo) = e at he hw'
    have hcode : e.code = [.op (.swtch p), .op (.switched p)] := by rw [he]
    obtain ⟨hks, hst, hcpu⟩ : _ ∧ _ ∧ (s.apply h e []).cpu = upd s.cpu h { s.cpu h with proc := some p } :=
      apply_idle ho (by rw [he]) (by rw [he])
    have hpr : (s.apply h e []).proc = upd s.proc p { s.proc p with state := .running } := apply_set (by rw [he])
    rw [hcode] at hw' hst
    generalize hs' : s.apply h e [] = s' at hks hst hcpu hpr
    have hp' : (s'.cpu h).proc = some p := by rw [hcpu, upd_same]
    have hon : (s'.cpu h).on = none := by rw [hcpu, upd_same]; exact ho
    have hrun : (s'.proc p).state = .running := by rw [hpr, upd_same]
    refine inv_switch hI ⟨fun h' hh => by rw [hcpu, upd_ne _ _ hh], by rw [← hs', apply_lock], by rw [hcpu, upd_same],
      fun h' hh => by rw [hst, upd_ne _ _ hh], fun _ _ => by rw [hks], fun q hq => by rw [hpr, upd_ne _ _ hq], hmine,
      fun q e => ?_, by rw [hks]; exact hI.wfp p, ?_, ?_, ?_, fun _ => hp', fun _ => ⟨?_,
        ?_, fun _ => ?_⟩, fun q e => ?_, ?_,
      fun j hj => by rwa [hks] at hj⟩
    · rcases e with e | e
      · rw [hidle.1] at e
        cases e
      · exact Option.some.inj (e.symm.trans hp')
    · rw [hst, upd_same, ← ho]
      exact hw'
    · rw [code_off hon, hc, hst, upd_same]
      rfl
    · exact .enter p hon hp' (by rw [hst, upd_same]; rfl) hrun
    · rw [hks]
      exact hOff.code
    · rw [hks]
      exact hOff.lock
    · rw [hks]
      exact hOff.ready (.inl hcond.1)
    · rw [hon] at e
      cases e
    · rw [hcond.1]
      exact ⟨ProcState.noConfusion, ProcState.noConfusion⟩
  · have he : effect s (s.cpu h).proc ok (.dispatch p priority todo) =
        { code := [.release (.proc p), .op (.scheduler priority todo)] } := if_neg hcond
    rw [he] at hw' hperm ⊢
    show Inv (s.goto h [.release (.proc p), .op (.scheduler priority todo)])
    refine inv_code hI hw' (by rw [hc]; exact hperm) (fun _ => ⟨hidle.1, fun q => by simp⟩)
      (fun q e => by rw [ho] at e; cases e) (fun q hf => by cases hf) (fun j hj => ?_)
    simp at hj
    exact .inl (hj ▸ rfl)

theorem inv_switched {ok : Bool} (hI : Inv s) (hc : s.code h = .op (.switched p) :: k) :
    Inv (s.apply h (effect s (s.cpu h).proc ok (.switched p)) k) := by
  have hw := wf_code hI hc
  have ho : (s.cpu h).on = none := stack_off hw fun _ => id
  obtain ⟨hw', _⟩ : Wf _ ((effect s (s.cpu h).proc ok (.switched p)).code ++ k) ∧ _ :=
    effect_wf hw (on_proc hI) fun _ => Op.noConfusion
  have hk : k = [] := hw.2.1
  subst hk
  have hleave : (s.cpu h).proc = some p ∧ Gone (s.proc p).state := by
    rw [code_off ho] at hc
    cases hI.hart h with
    | idle _ _ code => exact absurd (hc ▸ .head _) (code p).2
    | enter q _ _ code =>
      rw [hc] at code
      cases code
    | inside q on => rw [on] at ho; cases ho
    | leave q _ proc code state =>
      rw [hc] at code
      cases code
      exact ⟨proc, state⟩
  obtain ⟨hp, hr⟩ := hleave
  have hnot : ∀ h', (s.cpu h').on ≠ some p := fun h' e => by
    rw [hI.one h' h p (inside_proc hI e) hp, ho] at e
    cases e
  have hOff := hI.off p hnot
  generalize he : effect s (s.cpu h).proc ok (.switched p) = e at hw'
  have hcode : e.code = [.release (.proc p), .op (.scheduler 0 all)] := by rw [← he]; rfl
  obtain ⟨hks, hst, hcpu⟩ : _ ∧ _ ∧ (s.apply h e []).cpu = upd s.cpu h { s.cpu h with proc := none } :=
    apply_idle ho (by rw [← he]; rfl) (by rw [← he]; rfl)
  have hpr : (s.apply h e []).proc = s.proc := apply_unset (by rw [← he]; rfl)
  rw [hcode] at hw' hst
  generalize hs' : s.apply h e [] = s' at hks hst hcpu hpr
  have hp' : (s'.cpu h).proc = none := by rw [hcpu, upd_same]
  have hon : (s'.cpu h).on = none := by rw [hcpu, upd_same]; exact ho
  refine inv_switch hI ⟨fun h' hh => by rw [hcpu, upd_ne _ _ hh], by rw [← hs', apply_lock], by rw [hcpu, upd_same],
    fun h' hh => by rw [hst, upd_ne _ _ hh], fun _ _ => by rw [hks], fun _ _ => by rw [hpr],
    fun h' hh e => hh (hI.one h' h p e hp), fun q e => ?_, by rw [hks]; exact hI.wfp p, ?_, ?_, ?_,
    fun e => absurd (by rw [← hpr]; exact e) (gone_ne hr).1, fun _ => ⟨?_, ?_, ?_⟩, fun q e => ?_, (gone_ne hr).2,
    fun j hj => by rwa [hks] at hj⟩
  · rcases e with e | e
    · exact Option.some.inj (e.symm.trans hp)
    · rw [hp'] at e
      cases e
  · rw [hst, upd_same, ← ho]
    exact hw'
  · rw [code_off hon, hc, hst, upd_same]
    rfl
  · exact .idle hon hp' fun q => by rw [hst]; simp
  · rw [hks]
    exact hOff.code
  · rw [hks]
    exact hOff.lock
  · rw [hks, hpr]
    exact hOff.ready
  · rw [hon] at e
    cases e

theorem inv_step (hI : Inv s) (e : H × Ev) : Inv (step s e) := by
  obtain ⟨h, e⟩ := e
  cases e with
  | next ok =>
    unfold step
    dsimp only
    split
    · exact hI
    · rename_i l k hc
      exact inv_acquire hI hc
    · rename_i l k hc
      exact inv_release hI hc
    · rename_i k hc
      exact inv_sched hI hc
    · rename_i p k hc
      exact inv_swtch hI hc
    · rename_i i k hs ht hc
      by_cases hd : ∃ p pr todo, i = .dispatch p pr todo
      · obtain ⟨p, pr, todo, rfl⟩ := hd
        exact inv_dispatch hI hc
      · by_cases hsw : ∃ p, i = .switched p
        · obtain ⟨p, rfl⟩ := hsw
          exact inv_switched hI hc
        · exact inv_local hI (local_effect hI hc (fun a b c e => hd ⟨a, b, c, e⟩) (fun a e => hsw ⟨a, e⟩)
            (fun e => hs (e ▸ rfl)) (fun a e => ht a (e ▸ rfl)))
  | call c =>
    unfold step
    dsimp only
    split
    · rename_i p locks status k hp hc
      exact inv_call hI hc hp c
    · exact hI
  | devintr c a =>
    unfold step
    dsimp only
    split
    · rename_i hn
      exact inv_devintr hI hn.1 c a hn.2
    · exact hI
  | timer clock a =>
    unfold step
    dsimp only
    split
    · rename_i hn
      exact inv_timer hI hn clock a
    · exact hI

theorem inv_run (es : List (H × Ev)) : Inv (run step boot es) :=
  run_keeps (f := step) (I := Inv) (fun _ e hI => inv_step hI e) es inv_boot

/-! ## One hart for each process -/

structure OneHart (s : St H) (p : Slot) : Prop where
  unique : ∀ h h', Has s h p → Has s h' p → h = h'
  /-- From the moment the process enters or leaves RUNNING until the switch is complete, its lock is held. -/
  held : ∀ h, Has s h p → Settled s h p ∨ s.lock (.proc p) = some h
  changed : ∀ h e, ((step s (h, e)).proc p).state ≠ (s.proc p).state →
    s.lock (.proc p) = some h ∧ (step s (h, e)).lock (.proc p) = some h
  running : s.lock (.proc p) = none → ((s.proc p).state = .running ↔ ∃! h, (s.cpu h).proc = some p)

/-- A step changes the processes by the writes of one operation only. -/
theorem step_proc {e : Ev} (hv : (step s (h, e)).proc p ≠ s.proc p) :
    ∃ i k ok v, s.code h = .op i :: k ∧ (effect s (s.cpu h).proc ok i).set = some (p, v) ∧
      step s (h, e) = s.apply h (effect s (s.cpu h).proc ok i) k := by
  rcases step_shape s h e with ⟨_, hs, _⟩ | ⟨i, k, ok, _, hc, _, _, hs⟩
  · exact absurd (congrFun hs.proc p) hv
  · rw [hs] at hv
    rcases apply_proc s h (effect s (s.cpu h).proc ok i) k p with e | he
    · exact absurd e hv
    · exact ⟨i, k, ok, _, hc, he, hs⟩

theorem one_hart_per_process (es : List (H × Ev)) (p : Slot) : OneHart (run step boot es) p := by
  have hI := inv_run (H := H) es
  generalize run step boot es = s at hI
  refine ⟨fun h h' e e' => hI.one h h' p (has_proc hI e) (has_proc hI e'), fun h => has_held hI,
    fun h e hv => ?_, fun hl => ?_⟩
  · obtain ⟨i, k, ok, v, hc, he, hs⟩ := step_proc (fun eq => hv (by rw [eq]))
    rw [hs, apply_set he, upd_same] at hv
    have hm : .proc p ∈ held Op.holds (s.code h) := by
      rw [hc]
      exact List.mem_append_left _ (write_holds (effect_set he) hv)
    rw [hs, apply_lock]
    exact ⟨lock_code hI hm, lock_code hI hm⟩
  · have hset (h : H) (e : (s.cpu h).proc = some p) : (s.proc p).state = .running := by
      rcases has_held hI (.inl e) with hs | hs
      · exact hs.2.2
      · rw [hl] at hs
        cases hs
    refine ⟨fun hr => ?_, fun ⟨h, e, _⟩ => hset h e⟩
    obtain ⟨h, e⟩ := hI.run p hr
    exact ⟨h, e, fun h' e' => hI.one h' h p e' e⟩

end Inv

end Xv6.Smp
