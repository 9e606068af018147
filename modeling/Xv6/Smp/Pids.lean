/-
  Xv6.Smp.Pids — process ids. A pid names one process as long as `allocpid` hands out
  positive numbers that no slot has; then `kfork` returns the pid of the child it has made.
  `nextpid` is an `int` that only grows: the first 2147483646 calls of `allocpid` meet the
  condition, and the next one makes a process with a negative pid.

  `kfork` reads `np->pid` into its local `pid` before it lets go of `np->lock`, and returns
  that (`Forks`).
-/

import Xv6.Smp.WaitProofs

namespace Xv6.Smp

open Lib
open Sched (Slot Proc Chan ProcState freeproc incr charge)

section Pids

variable {H : Type}

variable {s s' : St H} {h h' : H} {p q : Slot} {k k' : Code} {i j : Op} {ok : Bool} {v : Proc} {me : Option Slot}

/-! ## What a step does to a pid -/

theorem charge_pid (v : Proc) : (charge v).pid = v.pid := by rw [Sched.charge_eq]

theorem write_pid (hw : Write s me i q v) : v.pid = (s.proc q).pid ∨ i = .allocpid q ∧ v.pid = s.nextpid ∨
      (v.state = .unused ∧ v.pid = 0) ∧ (i = .allocMem q ∨ i = .forkCopy q ∨ (s.proc q).state = .zombie) := by
  cases hw with
  | charge => exact .inl (charge_pid _)
  | allocpid => exact .inr (.inl ⟨rfl, rfl⟩)
  | allocFail => exact .inr (.inr ⟨⟨rfl, rfl⟩, .inl rfl⟩)
  | undo => exact .inr (.inr ⟨⟨rfl, rfl⟩, .inr (.inl rfl)⟩)
  | reap _ _ _ state => exact .inr (.inr ⟨⟨rfl, rfl⟩, .inr (.inr state)⟩)
  | _ => exact .inl rfl

/-- Only `allocproc` puts a slot to use. -/
theorem write_used (hI : Inv s) (hc : s.code h = .op i :: k) (hme : (s.cpu h).proc = me) (hw : Write s me i q v)
    (hv : v.state ≠ .unused) : (s.proc q).state ≠ .unused ∨ i = .allocMem q := by
  have hown (p : Slot) (hp : me = some p) (hf : ¬i.Fits none) (hq : q = p) (hs : i ≠ .sched) (hpa : i ≠ .panic) :
      (s.proc q).state ≠ .unused := by
    have ho := on_of_proc hI hc hf (hme.trans hp)
    rw [hq, inside_running hI ho hc hs hpa]
    exact ProcState.noConfusion
  have hfit : i.Fits (s.cpu h).on := (wf_code hI hc).1
  cases hw with
  | alloc => exact .inr rfl
  | allocFail | undo | reap => exact absurd rfl hv
  | dispatch _ _ _ _ state | wake _ _ _ _ state =>
    left
    rw [state]
    exact ProcState.noConfusion
  | forkEnd p =>
    left
    rw [(hI.fork p _ q (mem_code (on_of_proc hI hc id hme) hc) rfl).1]
    exact ProcState.noConfusion
  | giveUp p | doze p | die p =>
    left
    rw [on_of_proc hI hc id hme] at hfit
    exact hown p rfl id hfit Op.noConfusion Op.noConfusion
  | charge =>
    left
    rw [charge_state] at hv
    exact hv
  | kill =>
    left
    intro hu
    rw [hu] at hv
    exact hv rfl
  | tidy | allocpid | setParent | reparent | setkilled => exact .inl hv

theorem exec_pid (hi : ∀ q, i ≠ .allocpid q) : (exec s p ok i).pid = false := by
  fun_cases exec s p ok i <;> first | rfl | exact absurd rfl (hi _)

theorem effect_pid (hi : ∀ q, i ≠ .allocpid q) : (effect s me ok i).pid = false := by
  fun_cases effect s me ok i <;> first | rfl | exact exec_pid hi

/-- `allocproc` has given slot `q` a pid, and is to find memory for it. -/
inductive Taken (q : Slot) : Code → Prop
  | unlock (k : Code) : Taken q (.release .pid :: .op (.allocMem q) :: k)
  | mem (k : Code) : Taken q (.op (.allocMem q) :: k)

/-! ## Slots between allocpid and the rest of allocproc -/

theorem taken_found (ht : Taken q k) : Found q k := by
  cases ht with
  | unlock k => exact .unlock k
  | mem k => exact .mem k

/-- Whoever is there runs on a hart, and holds the lock of the slot. -/
theorem taken_on (hI : Inv s) (ht : Taken q (s.kstack p)) :
    ∃ h, (s.cpu h).on = some p ∧ s.lock (.proc q) = some h ∧ (s.proc q).state = .unused := by
  have hf := taken_found ht
  have hon : ∃ h, (s.cpu h).on = some p := by
    by_contra hn
    exact back_found (hI.off p fun h e => hn ⟨h, e⟩).code hf
  obtain ⟨h, ho⟩ := hon
  exact ⟨h, ho, lock_code hI (by rw [code_on ho]; exact found_held hf), hI.found h p q ho hf⟩

theorem next_taken (hI : Inv s) (ho : (s.cpu h).on = some p) (hn : Next s h k') (ht : Taken q k') :
    Taken q (s.kstack p) := by
  rw [← code_on ho]
  cases hn with
  | stay => exact ht
  | panic => cases ht
  | pop c k hc hop =>
    have hw := wf_code hI hc
    rw [hc]
    -- what stands above is `release(&pid_lock)`, or a panic
    cases ht with
    | unlock k2 =>
      have hp : c = .op .panic := by
        cases c with
        | acquire l | op i => exact tops_release.mp hw.2.2.1 rfl
        | release l => exact tops_release.mp hw.2.1 rfl
      rcases hop _ hp with e | ⟨p, e⟩ <;> cases e
    | mem k2 =>
      have hp : c = .release .pid := by
        cases c with
        | acquire l => exact tops_op.mp hw.2.2.1
        | release l => exact tops_op.mp hw.2.1
        | op i => exact tops_op.mp hw.2.2.1
      rw [hp]
      exact .unlock k2
  | call p' locks status c k hc => exact absurd (taken_found ht) ((call_plain c).2 q k)
  | interrupt new noff ops =>
    rcases new with _ | ⟨c, new⟩
    · exact ht
    generalize hk : c :: new ++ s.code h = k' at ht
    cases ht with
    | mem k2 =>
      obtain ⟨rfl, _⟩ := List.cons.inj hk
      rcases ops _ (.head _) with e | ⟨_, _, e⟩ <;> cases e
    | unlock k2 =>
      obtain ⟨rfl, hk'⟩ := List.cons.inj hk
      rcases new with _ | ⟨c, new⟩
      · have hs : s.code h = .op (.allocMem q) :: k2 := hk'
        rw [hs]
        exact .mem k2
      · obtain ⟨rfl, _⟩ := List.cons.inj hk'
        rcases ops _ (.tail _ (.head _)) with e | ⟨_, _, e⟩ <;> cases e

/-! ## The invariant -/

structure Numbered (s : St H) : Prop where
  used : ∀ q, (s.proc q).state ≠ .unused → 0 < (s.proc q).pid
  uniq : ∀ q r, 0 < (s.proc q).pid → (s.proc q).pid = (s.proc r).pid → q = r
  taken : ∀ p q, Taken q (s.kstack p) → 0 < (s.proc q).pid

theorem boot_pids :
    (∀ q, q ≠ Sched.boot.initproc → (Sched.boot.proc q).pid = 0) ∧ (Sched.boot.proc Sched.boot.initproc).pid = 1 ∧
    Sched.boot.nextpid = 2 := by decide +kernel

theorem numbered_boot : Numbered (boot : St H) := by
  obtain ⟨h0, h1, _⟩ := boot_pids
  refine ⟨fun q hu => ?_, fun q r hq hr => ?_, fun p q ht => ?_⟩
  · have e : q = Sched.boot.initproc := by
      by_contra e
      exact hu (boot_state.2 q e)
    show 0 < (Sched.boot.proc q).pid
    rw [e]
    exact Int.one_pos
  · have hinit (q : Slot) (hq : 0 < (Sched.boot.proc q).pid) : q = Sched.boot.initproc := by
      by_contra e
      rw [h0 q e] at hq
      exact absurd hq (Int.lt_irrefl 0)
    have hr0 : 0 < (Sched.boot.proc r).pid := hr ▸ hq
    rw [hinit q hq, hinit r hr0]
  · rw [boot_kstack] at ht
    by_cases e : p = Sched.boot.initproc
    · rw [e] at ht
      cases ht
    · rw [upd_ne _ _ e] at ht
      cases ht

theorem numbered_shift (hI : Inv s) (hN : Numbered s) (hs : Shift s s' h k') (hn : Next s h k') : Numbered s' := by
  refine ⟨by rw [hs.proc]; exact hN.used, by rw [hs.proc]; exact hN.uniq, fun p q ht => ?_⟩
  rw [hs.proc]
  by_cases ho : (s.cpu h).on = some p
  · rw [hs.mine p ho] at ht
    exact hN.taken p q (next_taken hI ho hn ht)
  · rw [hs.other p ho] at ht
    exact hN.taken p q ht

/-! ## kfork's result -/

/-- The machine with the local `pid` of each process in `kfork`. -/
structure Forks (H : Type) where
  st : St H
  pid : Slot → Int

/-- What a process about to return from `kfork` will return. -/
def Remembers (x : Forks H) : Prop :=
  ∀ p i q, .op i ∈ x.st.kstack p → i = .setParent q ∨ i = .forkEnd q → x.pid p = (x.st.proc q).pid

theorem np_late (hi : i = .setParent q ∨ i = .forkEnd q) : i.np = some q := by
  rcases hi with rfl | rfl <;> rfl

theorem remembers_boot (pid : Slot → Int) : Remembers (⟨boot, pid⟩ : Forks H) := by
  intro p i q hi hl
  have := np_forkret (boot_mem hi)
  rw [np_late hl] at this
  cases this

variable [DecidableEq H]

/-- `pid = np->pid` is done with what `forkCopy` stands for. -/
def forkStep (x : Forks H) (e : H × Ev) : Forks H where
  st := step x.st e
  pid :=
    match e.2, (x.st.cpu e.1).proc, x.st.code e.1 with
    | .next true, some p, .op (.forkCopy q) :: _ => upd x.pid p (x.st.proc q).pid
    | _, _, _ => x.pid

/-- The child that a `kfork` ends with, in its last operation, and what it returns. -/
def kforkRet (x : Forks H) (e : H × Ev) : Option (Slot × Int) :=
  match e.2, (x.st.cpu e.1).proc, x.st.code e.1 with
  | .next _, some p, .op (.forkEnd q) :: _ => some (q, x.pid p)
  | _, _, _ => none

/-- The step is an `allocpid`. -/
def takesPid (s : St H) (e : H × Ev) : Bool :=
  match e.2, s.code e.1 with
  | .next _, .op (.allocpid _) :: _ => true
  | _, _ => false

/-- The pid it takes, if it takes one, is a pid, and is nobody's. -/
def FreshPid (s : St H) (e : H × Ev) : Prop := takesPid s e = true → 0 < s.nextpid ∧ ∀ q, (s.proc q).pid ≠ s.nextpid

structure Identify (s : St H) : Prop where
  pos : ∀ q, (s.proc q).state ≠ .unused → 0 < (s.proc q).pid
  distinct : ∀ q r, (s.proc q).state ≠ .unused → (s.proc r).state ≠ .unused → (s.proc q).pid = (s.proc r).pid → q = r

/-! ## Every step keeps the invariant -/

section

variable (hI : Inv s)

include hI

/-- The pid of a slot that another hart is filling is not taken away. -/
theorem taken_kept (hN : Numbered s) (hc : s.code h = .op i :: k) (ht : Taken q (s.kstack p))
    (ho : (s.cpu h).on ≠ some p) (hpos : ∀ q, i = .allocpid q → 0 < s.nextpid) :
    0 < ((s.apply h (effect s (s.cpu h).proc ok i) k).proc q).pid := by
  have hold := hN.taken p q ht
  obtain ⟨h', ho', hl, hu⟩ := taken_on hI ht
  have hwf := wf_code hI hc
  rcases apply_proc s h (effect s (s.cpu h).proc ok i) k q with e | he
  · rw [e]; exact hold
  rcases write_pid (effect_set he) with e | ⟨hi, e⟩ | ⟨_, rfl | rfl | hz⟩
  · rw [e]; exact hold
  · rw [e]; exact hpos _ hi
  · have : s.lock (.proc q) = some h := lock_code hI (by rw [hc]; exact .head _)
    have hh : h = h' := Option.some.inj (this.symm.trans hl)
    exact absurd (hh ▸ ho') ho
  · obtain ⟨p0, ho0⟩ := fits_on hwf.1 id
    rw [(hI.fork p0 _ q (mem_code ho0 hc) rfl).1] at hu
    cases hu
  · rw [hz] at hu
    cases hu

theorem taken_effect (hN : Numbered s) (hc : s.code h = .op i :: k) (hpos : ∀ q, i = .allocpid q → 0 < s.nextpid)
    (ht : Taken q ((s.apply h (effect s (s.cpu h).proc ok i) k).kstack p)) :
    0 < ((s.apply h (effect s (s.cpu h).proc ok i) k).proc q).pid := by
  have hwf := wf_code hI hc
  rcases effect_kstack ok hI hc p with ⟨ho, hk⟩ | ⟨ho, ⟨hk, _⟩ | ⟨_, hk⟩⟩
  · rw [hk] at ht
    by_cases hp : i = .panic
    · subst hp
      cases ht
    rcases effect_found hwf hp (taken_found ht) with ⟨_, _, hcode⟩ | ⟨rfl, _⟩
    · rw [hcode] at ht
      cases ht
    · rw [inside_proc hI ho, apply_set (by rfl), upd_same]
      exact hpos q rfl
  · rw [hk] at ht
    exact taken_kept hI hN hc ht ho hpos
  · rw [hk] at ht
    cases ht

theorem numbered_effect (hN : Numbered s) (hc : s.code h = .op i :: k)
    (hf : ∀ q, i = .allocpid q → 0 < s.nextpid ∧ ∀ r, (s.proc r).pid ≠ s.nextpid) :
    Numbered (s.apply h (effect s (s.cpu h).proc ok i) k) := by
  have htaken (p q : Slot) (ht : Taken q ((s.apply h (effect s (s.cpu h).proc ok i) k).kstack p)) :=
    taken_effect hI hN hc (fun q hi => (hf q hi).1) ht
  cases he : (effect s (s.cpu h).proc ok i).set with
  | none => exact ⟨by rw [apply_unset he]; exact hN.used, by rw [apply_unset he]; exact hN.uniq, htaken⟩
  | some w =>
    obtain ⟨q0, v⟩ := w
    have hw := effect_set he
    refine ⟨fun q hu => ?_, fun q r h0 hqr => ?_, htaken⟩
    · rw [apply_set he] at hu ⊢
      by_cases e : q = q0
      · subst e
        rw [upd_same] at hu ⊢
        rcases write_pid hw with e | ⟨hi, e⟩ | ⟨⟨e, _⟩, _⟩
        · rw [e]
          rcases write_used hI hc rfl hw hu with hold | rfl
          · exact hN.used q hold
          · obtain ⟨p, ho⟩ := fits_on (wf_code hI hc).1 id
            exact hN.taken p q (by rw [← code_on ho, hc]; exact .mem k)
        · rw [e]
          exact (hf q hi).1
        · exact absurd e hu
      · rw [upd_ne _ _ e] at hu ⊢
        exact hN.used q hu
    · rw [apply_set he] at h0 hqr
      -- only the pid of slot `q0` may be new
      rcases write_pid hw with e | ⟨hi, e⟩ | ⟨⟨_, e⟩, _⟩
      · have hsame (r : Slot) : (upd s.proc q0 v r).pid = (s.proc r).pid := by
          by_cases e' : r = q0
          · rw [e', upd_same, e]
          · rw [upd_ne _ _ e']
        rw [hsame] at h0
        rw [hsame, hsame] at hqr
        exact hN.uniq q r h0 hqr
      · by_cases eq : q = q0 <;> by_cases er : r = q0
        · rw [eq, er]
        · rw [eq, upd_same, upd_ne _ _ er, e] at hqr
          exact absurd hqr.symm ((hf q0 hi).2 r)
        · rw [er, upd_same, upd_ne _ _ eq, e] at hqr
          exact absurd hqr ((hf q0 hi).2 q)
        · rw [upd_ne _ _ eq] at h0
          rw [upd_ne _ _ eq, upd_ne _ _ er] at hqr
          exact hN.uniq q r h0 hqr
      · by_cases eq : q = q0 <;> by_cases er : r = q0
        · rw [eq, er]
        · rw [eq, upd_same, e] at h0
          exact absurd h0 (Int.lt_irrefl 0)
        · rw [er, upd_same, e] at hqr
          rw [hqr] at h0
          exact absurd h0 (Int.lt_irrefl 0)
        · rw [upd_ne _ _ eq] at h0
          rw [upd_ne _ _ eq, upd_ne _ _ er] at hqr
          exact hN.uniq q r h0 hqr

theorem numbered_step (hN : Numbered s) {e : H × Ev} (hf : FreshPid s e) : Numbered (step s e) := by
  obtain ⟨h, e⟩ := e
  rcases step_shape s h e with ⟨k', hs, hn⟩ | ⟨i, k, ok, rfl, hc, _, _, hs⟩
  · exact numbered_shift hI hN hs hn
  · rw [hs]
    refine numbered_effect hI hN hc fun q hi => hf ?_
    unfold takesPid
    rw [hc, hi]

/-! ## The child's pid -/

/-- The pid of a child in the making stays, while its parent does not work on it. -/
theorem newborn_pid (hc : s.code h = .op i :: k) (hj : .op j ∈ s.kstack p) (hn : j.np = some q)
    (hmine : (s.cpu h).on = some p → .op j ∈ k) :
    ((s.apply h (effect s (s.cpu h).proc ok i) k).proc q).pid = (s.proc q).pid := by
  have hwf := wf_code hI hc
  have hused := (hI.fork p j q hj hn).1
  rcases apply_proc s h (effect s (s.cpu h).proc ok i) k q with e | he
  · rw [e]
  rcases write_pid (effect_set he) with e | ⟨rfl, _⟩ | ⟨_, rfl | rfl | hz⟩
  · exact e
  · obtain ⟨p0, ho⟩ := fits_on hwf.1 id
    rw [hI.found h p0 q ho (by rw [← code_on ho, hc]; exact .pid k)] at hused
    cases hused
  · obtain ⟨p0, ho⟩ := fits_on hwf.1 id
    rw [hI.found h p0 q ho (by rw [← code_on ho, hc]; exact .mem k)] at hused
    cases hused
  · obtain ⟨p0, ho⟩ := fits_on hwf.1 id
    have hp := hI.forkOne p0 p _ j q (mem_code ho hc) hj rfl hn
    rw [ho] at hwf
    have := np_below hwf rfl (hmine (hp ▸ ho))
    rw [hn] at this
    cases this
  · rw [hz] at hused
    cases hused

end

theorem forkStep_pid (x : Forks H) (h : H) (e : Ev) :
    (forkStep x (h, e)).pid = x.pid ∨ ∃ p q k, (x.st.cpu h).proc = some p ∧ x.st.code h = .op (.forkCopy q) :: k ∧
      (forkStep x (h, e)).pid = upd x.pid p (x.st.proc q).pid := by
  unfold forkStep
  dsimp only
  split
  · next p q k hp hc => exact .inr ⟨p, q, k, hp, hc, rfl⟩
  · exact .inl rfl

/-- The local `pid` of a process that is past its `forkCopy` stays. -/
theorem pid_kept {x : Forks H} {e : Ev} (hI : Inv x.st) (hj : .op j ∈ x.st.kstack p)
    (hl : j = .setParent q ∨ j = .forkEnd q) :
    (forkStep x (h, e)).pid p = x.pid p := by
  rcases forkStep_pid x h e with hs | ⟨p0, q0, k, hp, hc, hs⟩
  · rw [hs]
  rw [hs]
  refine upd_ne _ _ fun e0 => ?_
  subst e0
  have ho := on_of_proc hI hc id hp
  have hw : Wf (some p) (.op (.forkCopy q0) :: k) := by
    rw [← hc, ← ho]
    exact wf_code hI rfl
  have hmem : .op j ∈ (.op (.forkCopy q0) :: k : Code) := by
    rw [← hc, code_on ho]
    exact hj
  rcases List.mem_cons.mp hmem with e1 | hk
  · rcases hl with rfl | rfl <;> cases e1
  · have := np_below hw rfl hk
    rw [np_late hl] at this
    cases this

theorem remembers_step {x : Forks H} (hI : Inv x.st) (hR : Remembers x) (e : H × Ev) : Remembers (forkStep x e) := by
  obtain ⟨h, e⟩ := e
  intro p j q hj hl
  have hn := np_late hl
  have hst : (forkStep x (h, e)).st = step x.st (h, e) := rfl
  rw [hst] at hj ⊢
  rcases step_shape x.st h e with ⟨k', hs, hnx⟩ | ⟨i, k, ok, rfl, hc, _, _, hs⟩
  · have hold : .op j ∈ x.st.kstack p := by
      by_cases ho : (x.st.cpu h).on = some p
      · rw [hs.mine p ho] at hj
        rcases next_mem hnx hj with e | e
        · rw [← code_on ho]
          exact e
        · have := e.np
          rw [hn] at this
          cases this
      · rw [hs.other p ho] at hj
        exact hj
    rw [pid_kept hI hold hl, hs.proc]
    exact hR p j q hold hl
  · rw [hs] at hj ⊢
    have hkeep (hold : .op j ∈ x.st.kstack p) (hmine : (x.st.cpu h).on = some p → .op j ∈ k) :
        (forkStep x (h, .next ok)).pid p = ((x.st.apply h (effect x.st (x.st.cpu h).proc ok i) k).proc q).pid := by
      rw [pid_kept hI hold hl, newborn_pid hI hc hold hn hmine]
      exact hR p j q hold hl
    rcases effect_kstack ok hI hc p with ⟨ho, hk⟩ | ⟨ho, ⟨hk, _⟩ | ⟨_, hk⟩⟩
    · have hme := inside_proc hI ho
      rw [hk] at hj
      rcases List.mem_append.mp hj with hj | hj
      · rcases effect_np hj hn with ⟨hi, _⟩ | hx
        · rcases np_cases hi with rfl | rfl | rfl
          -- `pid = np->pid`, then `np->parent = p`
          · rw [hme] at hj ⊢
            cases ok with
            | true =>
              rw [apply_unset rfl]
              unfold forkStep
              rw [hme, hc]
              exact upd_same _ _ _
            | false => simp [effect, exec] at hj
          · rw [hme] at hj ⊢
            have hold : .op (.setParent q) ∈ x.st.kstack p := mem_code ho hc
            rw [pid_kept hI hold (.inl rfl), apply_set (by rfl), upd_same]
            exact hR p _ q hold (.inl rfl)
          · rw [hme] at hj
            simp [effect, exec] at hj
        · rw [(effect_ctx hx).2.2] at hj
          rcases hl with rfl | rfl <;> simp at hj
      · exact hkeep (mem_below ho hc hj) fun _ => hj
    · rw [hk] at hj
      exact hkeep hj fun e => absurd e ho
    · rw [hk] at hj
      rw [np_forkret hj] at hn
      cases hn

/-! ## Runs -/

/-- Conditions on the machine are conditions on it with the locals of `kfork`. -/
theorem along_forks {C : St H → H × Ev → Prop} (es : List (H × Ev)) :
    ∀ {x : Forks H}, Along step C x.st es → Along forkStep (fun x e => C x.st e) x es := by
  induction es with
  | nil => intro _ _; trivial
  | cons e es ih =>
    intro x hx
    exact ⟨hx.1, ih (x := forkStep x e) hx.2⟩

/-- How often `allocpid` is called in a run. -/
def pidsTaken (s : St H) (es : List (H × Ev)) :
    Nat := (outs step (fun s e => if takesPid s e then some () else none) s es).length

theorem pidsTaken_cons (s : St H) (e : H × Ev) (es : List (H × Ev)) :
    pidsTaken s (e :: es) = (if takesPid s e then 1 else 0) + pidsTaken (step s e) es := by
  unfold pidsTaken
  simp only [outs, List.length_append]
  split <;> rfl

structure Low (s : St H) : Prop where
  next : 0 < s.nextpid
  pid : ∀ q, (s.proc q).pid < s.nextpid

theorem step_pids (s : St H) (e : H × Ev) :
    (takesPid s e = true ∧ (step s e).nextpid = incr s.nextpid ∧
      ∀ q, ((step s e).proc q).pid = (s.proc q).pid ∨ ((step s e).proc q).pid = s.nextpid) ∨
    (step s e).nextpid = s.nextpid ∧ ∀ q, ((step s e).proc q).pid = (s.proc q).pid ∨ ((step s e).proc q).pid = 0 := by
  obtain ⟨h, e⟩ := e
  rcases step_shape s h e with ⟨k', hs, _⟩ | ⟨i, k, ok, rfl, hc, _, _, hs⟩
  · exact .inr ⟨hs.nextpid, fun q => .inl (by rw [hs.proc])⟩
  rw [hs]
  by_cases hi : ∃ q, i = .allocpid q
  · obtain ⟨q0, rfl⟩ := hi
    cases hme : (s.cpu h).proc with
    | none => exact .inr ⟨apply_nextpid, fun q => .inl (by rw [apply_unset rfl])⟩
    | some p =>
      refine .inl ⟨by unfold takesPid; rw [hc], apply_nextpid, fun q => ?_⟩
      rw [apply_set (by rfl)]
      by_cases e : q = q0
      · exact .inr (by rw [e, upd_same])
      · exact .inl (by rw [upd_ne _ _ e])
  · have hno (q : Slot) : i ≠ .allocpid q := fun e => hi ⟨q, e⟩
    refine .inr ⟨by rw [apply_nextpid, effect_pid hno]; rfl, fun q => ?_⟩
    rcases apply_proc s h (effect s (s.cpu h).proc ok i) k q with e | he
    · exact .inl (by rw [e])
    · rcases write_pid (effect_set he) with e | ⟨e, _⟩ | ⟨⟨_, e⟩, _⟩
      · exact .inl e
      · exact absurd e (hno _)
      · exact .inr e

/-- The first 2147483646 calls of `allocpid` give fresh pids. -/
theorem fresh_few (es : List (H × Ev)) (hn : pidsTaken (boot : St H) es ≤ 2147483646) :
    Along step FreshPid (boot : St H) es := by
  have hnone : ∀ es (s : St H), pidsTaken s es = 0 → Along step FreshPid s es := by
    intro es
    induction es with
    | nil => intro _ _; trivial
    | cons e es ih =>
      intro s h0
      rw [pidsTaken_cons] at h0
      refine ⟨fun ht => ?_, ih _ (by omega)⟩
      rw [if_pos ht] at h0
      omega
  have hlow : ∀ es (s : St H), Low s → s.nextpid + pidsTaken s es ≤ 2147483648 → Along step FreshPid s es := by
    intro es
    induction es with
    | nil => intro _ _ _; trivial
    | cons e es ih =>
      intro s hl hle
      rw [pidsTaken_cons] at hle
      refine ⟨fun _ => ⟨hl.next, fun q => Int.ne_of_lt (hl.pid q)⟩, ?_⟩
      rcases step_pids s e with ⟨ht, hnext, hpid⟩ | ⟨hnext, hpid⟩
      · rw [if_pos ht] at hle
        by_cases h0 : pidsTaken (step s e) es = 0
        · exact hnone es _ h0
        have hincr : incr s.nextpid = s.nextpid + 1 := by
          have := hl.next
          unfold incr
          rw [Int.bmod_def]
          omega
        refine ih _ ⟨by rw [hnext]; have := hl.next; omega, fun q => ?_⟩ (by rw [hnext]; omega)
        have := hl.pid q
        rcases hpid q with e | e <;> rw [e] <;> omega
      · refine ih _ ⟨by rw [hnext]; exact hl.next, fun q => ?_⟩ (by rw [hnext]; split at hle <;> omega)
        have h1 := hl.pid q
        have h2 := hl.next
        rcases hpid q with e | e <;> rw [e] <;> omega
  obtain ⟨h0, h1, h2⟩ := boot_pids
  refine hlow es boot ⟨?_, fun q => ?_⟩ ?_
  · show 0 < Sched.boot.nextpid
    decide
  · show (Sched.boot.proc q).pid < Sched.boot.nextpid
    by_cases e : q = Sched.boot.initproc
    · rw [e]
      decide
    · rw [h0 q e]
      decide
  · show Sched.boot.nextpid + _ ≤ _
    omega

/-- As long as `allocpid` hands out fresh pids, as it does the first 2147483646 times, the
    pids of the processes are positive and distinct, and `kfork` returns that of its child. -/
theorem pids_identify (es : List (H × Ev)) (pid : Slot → Int) :
    (Along step FreshPid (boot : St H) es →
      Identify (run forkStep (⟨boot, pid⟩ : Forks H) es).st ∧
        ∀ e q v, kforkRet (run forkStep (⟨boot, pid⟩ : Forks H) es) e = some (q, v) →
          v = ((run forkStep (⟨boot, pid⟩ : Forks H) es).st.proc q).pid ∧ 0 < v) ∧
      (pidsTaken (boot : St H) es ≤ 2147483646 → Along step FreshPid (boot : St H) es) := by
  refine ⟨fun hf => ?_, fresh_few es⟩
  have hinv : Inv (run forkStep (⟨boot, pid⟩ : Forks H) es).st ∧ Numbered (run forkStep (⟨boot, pid⟩ : Forks H) es).st ∧
      Remembers (run forkStep (⟨boot, pid⟩ : Forks H) es) := by
    refine run_inv (f := forkStep) (C := fun x e => FreshPid x.st e)
      (I := fun x : Forks H => Inv x.st ∧ Numbered x.st ∧ Remembers x) (fun x e hf hx => ?_) es (along_forks es hf)
      ⟨inv_boot, numbered_boot, remembers_boot pid⟩
    exact ⟨inv_step hx.1 e, numbered_step hx.1 hx.2.1 hf, remembers_step hx.1 hx.2.2 e⟩
  obtain ⟨hI, hN, hR⟩ := hinv
  generalize run forkStep (⟨boot, pid⟩ : Forks H) es = x at *
  refine ⟨⟨hN.used, fun q r hq _ hqr => hN.uniq q r (hN.used q hq) hqr⟩, fun e q v hr => ?_⟩
  unfold kforkRet at hr
  split at hr
  · next p q' k _ hp hc =>
    cases hr
    have ho := on_of_proc hI hc id hp
    have hmem := mem_code ho hc
    have hused := (hI.fork p _ q hmem rfl).1
    have hv := hR p _ q hmem (.inr rfl)
    refine ⟨hv, ?_⟩
    rw [hv]
    refine hN.used q ?_
    rw [hused]
    exact ProcState.noConfusion
  · cases hr

/-- The first fork after boot. -/
theorem pids_identify_first : Identify (run forkStep (⟨boot, fun _ => 0⟩ : Forks Unit)
    (List.replicate 5 ((), .next true) ++ ((), .call .kfork) :: List.replicate 11 ((), .next true))).st :=
  have h := pids_identify (List.replicate 5 ((), .next true) ++ ((), .call .kfork) ::
    List.replicate 11 ((), .next true)) fun _ => 0
  (h.1 (h.2 (by decide +kernel))).1

end Pids

/-! ## A run that wraps -/

/-- Process `p` on the only hart of the machine, about to run `k`, with the locks `l`. -/
def alone (p : Slot) (proc : Slot → Proc) (k : Code) (l : Lock → Option Unit) (noff : Nat) (n : Int) : St Unit where
  proc := proc
  kstack := upd (fun _ => []) p k
  stack0 := fun _ => [.op (.switched p)]
  cpu := fun _ => ⟨some p, noff, some p⟩
  lock := l
  nextpid := n
  initproc := p
  hist := (boot : St Unit).hist

/-- A `kfork` for which there is no memory. -/
def failingFork : List (Unit × Ev) := ((), .call .kfork) :: List.replicate 12 ((), .next false)

/-- The first process makes `n` of them, and then one that goes well, up to the new process. -/
def manyForks (n : Nat) : List (Unit × Ev) :=
  List.replicate 5 ((), .next true) ++ (List.replicate n failingFork).flatten ++
    (((), .call .kfork) :: List.replicate 11 ((), .next true))

section Wrap

variable {p q : Slot} {P : Slot → Proc} {k : Code} {L : Lock → Option Unit} {m : Nat} {n : Int} {ok : Bool}

theorem alone_code : (alone p P k L m n).code () = k := by
  exact upd_same (fun _ => []) p k

theorem alone_goto (k' : Code) : (alone p P k L m n).goto () k' = alone p P k' L m n := by
  unfold St.goto alone
  dsimp only
  rw [upd_upd]

/-- The locks change, and with them the count of the hart. -/
theorem alone_lock (l : Lock → Option Unit) (m' : Nat) :
    ({ alone p P k L m n with lock := l, cpu := upd (alone p P k L m n).cpu () ⟨some p, m', some p⟩ } : St Unit) =
      alone p P k l m' n := by
  congr 1

variable {l : Lock} {todo : List Slot}

theorem alone_acquire (hl : L l = none) :
    step (alone p P (.acquire l :: k) L m n) ((), .next ok) = alone p P k (upd L l (some ())) (m + 1) n := by
  unfold step
  dsimp only
  rw [alone_code]
  dsimp only
  have hl' : (alone p P (.acquire l :: k) L m n).lock l = none := hl
  unfold acquire
  rw [hl']
  exact (congrArg (fun s => s.goto () k) (alone_lock _ _)).trans (alone_goto k)

theorem alone_release (hl : L l = some ()) :
    step (alone p P (.release l :: k) L (m + 1) n) ((), .next ok) = alone p P k (upd L l none) m n := by
  unfold step
  dsimp only
  rw [alone_code]
  dsimp only
  have hl' : (alone p P (.release l :: k) L (m + 1) n).lock l = some () := hl
  unfold release
  have hm : ¬((alone p P (.release l :: k) L (m + 1) n).cpu ()).noff < 1 := by
    show ¬m + 1 < 1
    omega
  rw [if_pos hl']
  exact (congrArg (fun s => s.goto () k) (alone_lock _ _)).trans (alone_goto k)

theorem alone_call (c : Call) :
    step (alone p P (.op (.body [] none) :: k) L m n) ((), .call c) = alone p P (call p [] none c ++ k) L m n := by
  unfold step
  dsimp only
  rw [alone_code]
  exact alone_goto _

/-- An operation that writes at most a process. -/
theorem alone_op {i : Op} (hs : i ≠ .sched) (ht : ∀ q, i ≠ .swtch q) {e : Eff}
    (he : effect (alone p P (.op i :: k) L m n) (some p) ok i = e) (hc : e.cproc = none) (hx : e.ctx = none)
    (hn : e.note = none) :
    step (alone p P (.op i :: k) L m n) ((), .next ok) =
      alone p (match e.set with | some (q, v) => upd P q v | none => P) (e.code ++ k) L m
        (if e.pid then incr n else n) := by
  have hstep : step (alone p P (.op i :: k) L m n) ((), .next ok) = (alone p P (.op i :: k) L m n).apply () e k := by
    unfold step
    dsimp only
    rw [alone_code]
    cases i with
    | sched => exact absurd rfl hs
    | swtch q => exact absurd rfl (ht q)
    | _ => exact congrArg (fun e => St.apply _ () e k) he
  rw [hstep]
  unfold St.apply
  rw [hc, hx, hn]
  exact alone_goto _

theorem lock_undo (hl : L l = none) : upd (upd L l (some ())) l none = L := by
  rw [upd_upd, ← hl]
  exact upd_self _ _

theorem alone_scan : step (alone p P (.op (.allocproc (q :: todo)) :: k) L m n) ((), .next ok) =
    alone p P (.acquire (.proc q) :: .op (.allocTest q todo) :: k) L m n :=
  alone_op Op.noConfusion (fun _ => Op.noConfusion) (by rfl) rfl rfl rfl

theorem alone_pid : step (alone p P (.op (.allocpid q) :: k) L m n) ((), .next ok) =
    alone p (upd P q { P q with pid := n }) (.release .pid :: .op (.allocMem q) :: k) L m (incr n) :=
  alone_op Op.noConfusion (fun _ => Op.noConfusion) (by rfl) rfl rfl rfl

/-- `allocproc` passes a slot in use. -/
theorem alone_pass (hq : (P q).state ≠ .unused) (hl : L (.proc q) = none) :
    run step (alone p P (.op (.allocproc (q :: todo)) :: k) L m n) (List.replicate 4 ((), .next ok)) =
      alone p P (.op (.allocproc todo) :: k) L m n := by
  have htest : step (alone p P (.op (.allocTest q todo) :: k) (upd L (.proc q) (some ())) (m + 1) n) ((), .next ok) =
      alone p P (.release (.proc q) :: .op (.allocproc todo) :: k) (upd L (.proc q) (some ())) (m + 1) n :=
    alone_op (i := .allocTest q todo) (e := { code := [.release (.proc q), .op (.allocproc todo)] }) Op.noConfusion
      (fun _ => Op.noConfusion) (if_neg hq) rfl rfl rfl
  simp only [List.replicate, run_cons, run_nil]
  rw [alone_scan, alone_acquire hl, htest, alone_release (upd_same _ _ _), lock_undo hl]

theorem alone_find (hq : (P q).state = .unused) (hl : L (.proc q) = none) (hpid : L .pid = none) :
    run step (alone p P (.op (.allocproc (q :: todo)) :: k) L m n) (List.replicate 6 ((), .next ok)) =
      alone p (upd P q { P q with pid := n }) (.op (.allocMem q) :: k) (upd L (.proc q) (some ()))
        (m + 1) (incr n) := by
  have htest : step (alone p P (.op (.allocTest q todo) :: k) (upd L (.proc q) (some ())) (m + 1) n) ((), .next ok) =
      alone p P (.acquire .pid :: .op (.allocpid q) :: k) (upd L (.proc q) (some ())) (m + 1) n :=
    alone_op (i := .allocTest q todo) (e := { code := [.acquire .pid, .op (.allocpid q)] }) Op.noConfusion
      (fun _ => Op.noConfusion) (if_pos hq) rfl rfl rfl
  have hpid' : upd L (.proc q) (some ()) .pid = none := (upd_ne _ _ Lock.noConfusion).trans hpid
  simp only [List.replicate, run_cons, run_nil]
  rw [alone_scan, alone_acquire hl, htest, alone_acquire hpid', alone_pid, alone_release (upd_same _ _ _),
    lock_undo hpid']

theorem alone_fail : step (alone p P (.op (.allocMem q) :: k) L m n) ((), .next false) =
    alone p (upd P q (freeproc { P q with state := .used, priority := 0, ticksUsed := 0 }))
      (.release (.proc q) :: k) L m n :=
  alone_op Op.noConfusion (fun _ => Op.noConfusion) (by rfl) rfl rfl rfl

/-- The slot of a process that never was. -/
def blank : Proc := ⟨.unused, none, false, 0, 0, 0, 0, none⟩

theorem failing_step (hall : all = p :: q :: todo) (hp : (P p).state ≠ .unused) (hq : P q = blank) :
    run step (alone p P [.op (.body [] none)] (fun _ => none) 0 n) failingFork =
      alone p P [.op (.body [] none)] (fun _ => none) 0 (incr n) := by
  have hun : (P q).state = .unused := by rw [hq]; rfl
  have hes : failingFork = ((), .call .kfork) ::
    (List.replicate 4 ((), .next false) ++ (List.replicate 6 ((), .next false) ++
      List.replicate 2 ((), .next false))) := rfl
  have hcall : step (alone p P [.op (.body [] none)] (fun _ => none) 0 n) ((), .call .kfork) =
      alone p P [.op (.allocproc (p :: q :: todo)), .op (.body [] none)] (fun _ => none) 0 n := by
    rw [← hall]
    exact alone_call .kfork
  have hback : upd (upd P q { P q with pid := n }) q
      (freeproc { upd P q { P q with pid := n } q with state := .used, priority := 0, ticksUsed := 0 }) = P := by
    rw [upd_upd]
    exact (congrArg (upd P q) hq.symm).trans (upd_self _ _)
  rw [hes, run_cons, hcall, run_append, run_append, alone_pass hp rfl, alone_find hun rfl rfl]
  simp only [List.replicate, run_cons, run_nil]
  rw [alone_fail, alone_release (upd_same _ _ _), hback, lock_undo rfl]

theorem failing_steps (hall : all = p :: q :: todo) (hp : (P p).state ≠ .unused) (hq : P q = blank) (N : Nat) :
    ∀ n, run step (alone p P [.op (.body [] none)] (fun _ => none) 0 n) (List.replicate N failingFork).flatten =
      alone p P [.op (.body [] none)] (fun _ => none) 0 (incr^[N] n) := by
  induction N with
  | zero => intro n; rfl
  | succ N ih =>
    intro n
    rw [List.replicate_succ, List.flatten_cons, run_append, failing_step hall hp hq, ih]
    rfl

theorem incr_iterate (N : Nat) (n : Int) : incr^[N] (Int.bmod n 4294967296) = Int.bmod (n + N) 4294967296 := by
  induction N generalizing n with
  | zero => exact congrArg (Int.bmod · 4294967296) (Int.add_zero n).symm
  | succ N ih =>
    rw [Function.iterate_succ_apply]
    have h1 : incr (Int.bmod n 4294967296) = Int.bmod (n + 1) 4294967296 := by
      exact Int.bmod_add_bmod
    rw [h1, ih]
    congr 1
    push_cast
    omega

theorem boot_alone : run step (boot : St Unit) (List.replicate 5 ((), .next true)) =
    alone Sched.boot.initproc
      (upd Sched.boot.proc Sched.boot.initproc { Sched.boot.proc Sched.boot.initproc with state := .running })
      [.op (.body [] none)] (fun _ => none) 0 2 := by
  have hrun : run step (boot : St Unit) (List.replicate 5 ((), .next true)) =
      { alone Sched.boot.initproc (upd Sched.boot.proc Sched.boot.initproc
          { Sched.boot.proc Sched.boot.initproc with state := .running }) [.op (.body [] none)] (fun _ => none) 0 2 with
        kstack := upd (upd (fun _ => []) Sched.boot.initproc (forkret Sched.boot.initproc))
          Sched.boot.initproc [.op (.body [] none)]
        lock := upd (upd (fun _ => none) (.proc Sched.boot.initproc) (some ()))
          (.proc Sched.boot.initproc) none } := by rfl
  rw [hrun, upd_upd, lock_undo rfl]
  rfl

theorem alone_alloc : (step (alone p P (.op (.allocMem q) :: k) L m n) ((), .next true)).proc =
    upd P q { P q with state := .used, priority := 0, ticksUsed := 0 } := by
  unfold step
  dsimp only
  rw [alone_code]
  exact apply_set (by rfl)

/-- After `N` forks that fail, the next process has the pid `nextpid` has come to. -/
theorem manyForks_pid (N : Nat) : ∃ q, ((run step (boot : St Unit) (manyForks N)).proc q).state = .used ∧
    ((run step (boot : St Unit) (manyForks N)).proc q).pid = incr^[N] 2 := by
  obtain ⟨p, q, todo, hall, hp, hne⟩ : ∃ p q todo, all = p :: q :: todo ∧ p = Sched.boot.initproc ∧ q ≠ p :=
    ⟨⟨0, by decide⟩, ⟨1, by decide⟩, _, rfl, by decide, by decide⟩
  have hblank : ∀ q, q ≠ Sched.boot.initproc → Sched.boot.proc q = blank := by decide +kernel
  have hboot := boot_alone
  rw [← hp] at hboot
  generalize hP : upd Sched.boot.proc p { Sched.boot.proc p with state := .running } = P at hboot
  have hrun : (P p).state ≠ .unused := by
    rw [← hP, upd_same]
    exact ProcState.noConfusion
  have hq : P q = blank := by
    rw [← hP, upd_ne _ _ hne]
    exact hblank q (hp ▸ hne)
  have hun : (P q).state = .unused := by
    rw [hq]
    rfl
  have hcall (n : Int) : step (alone p P [.op (.body [] none)] (fun _ => none) 0 n) ((), .call .kfork) =
      alone p P [.op (.allocproc (p :: q :: todo)), .op (.body [] none)] (fun _ => none) 0 n := by
    rw [← hall]
    exact alone_call .kfork
  have hes : List.replicate 11 ((), Ev.next true) =
    List.replicate 4 ((), Ev.next true) ++ (List.replicate 6 ((), Ev.next true) ++ [((), Ev.next true)]) := rfl
  refine ⟨q, ?_⟩
  unfold manyForks
  rw [run_append, run_append, hboot, failing_steps hall hrun hq, run_cons, hcall, hes, run_append, run_append,
    alone_pass hrun rfl, alone_find hun rfl rfl, run_cons, run_nil, alone_alloc, upd_same, upd_same]
  exact ⟨rfl, rfl⟩

/-- After 2147483646 forks that fail for want of memory, the next process has a negative pid. -/
theorem pid_wraps : ∃ q, ((run step (boot : St Unit) (manyForks 2147483646)).proc q).state = .used ∧
    ((run step (boot : St Unit) (manyForks 2147483646)).proc q).pid = -2147483648 := by
  have hn (N : Nat) (h : Int.bmod (2 + N) 4294967296 = -2147483648) : incr^[N] 2 = -2147483648 :=
    (incr_iterate N 2).trans h
  have hv (N : Nat) (h : incr^[N] 2 = -2147483648) : ∃ q,
    ((run step (boot : St Unit) (manyForks N)).proc q).state = .used ∧
      ((run step (boot : St Unit) (manyForks N)).proc q).pid = -2147483648 := h ▸ manyForks_pid N
  exact hv 2147483646 (hn 2147483646 (by decide))

end Wrap

end Xv6.Smp
