/-
  Xv6.Smp.Intr — whether interrupts are enabled (`kernel/spinlock.c`: `push_off`,
  `pop_off`; `sched` and `scheduler` of `kernel/proc.c`; `kerneltrap`). `noff` and `intena`
  stand in the CPU, but belong to the kernel thread that runs there:
  - `interrupts_per_thread`: interrupts are off while `noff` is positive, and the pop that
    undoes a thread's outermost push restores what that push found, on whatever hart.

  A step is one by the thread that a hart runs. `push_off` is two: an interrupt can come
  between its `intr_get` and its `intr_off`, and its handler may give up the hart. The
  locks are left out: a thread may go on wherever it is switched out and no hart runs it.
  So is what the rest of the kernel does, but for `intr_on` and `intr_off`, which it calls
  outside of any `push_off` and not in a handler.

  For the record each thread has its pushes that are not popped yet, and whether interrupts
  were enabled at the outermost of them. `forkret` starts with one push outstanding, which
  its hart's scheduler made.
-/

import Xv6.Lib.Run
import Xv6.Lib.Writes

namespace Xv6.Smp.Intr

open Lib

inductive Panic where
  | popOffInterruptible
  | popOff
  | schedLocks
  | schedInterruptible
  deriving DecidableEq, Repr

structure Cpu (T : Type) where
  /-- `SSTATUS_SIE`. -/
  sie : Bool
  noff : Int
  intena : Bool
  /-- None: it runs the scheduler. -/
  proc : Option T

structure Thread where
  /-- In `push_off`, what `intr_get` returned. -/
  old : Option Bool
  /-- In a handler, and where the interrupt came: `old` there. -/
  trap : Option (Option Bool)
  /-- In `sched`, its `intena`; none: it has not run yet. -/
  intena : Option Bool
  depth : Nat
  outer : Option Bool

inductive Op where
  | intrGet
  /-- `push_off` from `intr_off` on. -/
  | pushOff
  | popOff
  | intr (on : Bool)
  | trap
  | sret
  deriving DecidableEq, Repr

variable {H T : Type}

/-- `pop_off` after its checks. -/
def Cpu.popOff (c : Cpu T) : Cpu T :=
  { c with noff := c.noff - 1, sie := if c.noff - 1 = 0 ∧ c.intena = true then true else c.sie }

def exec (c : Cpu T) (x : Thread) : Op → Except Panic (Cpu T × Thread)
  | .intrGet => .ok (c, { x with old := some c.sie })
  | .pushOff =>
    match x.old with
    | none => .ok (c, x)
    | some old =>
      .ok ({ c with sie := false, intena := if c.noff = 0 then old else c.intena, noff := c.noff + 1 },
        { x with old := none, depth := x.depth + 1, outer := if x.depth = 0 then some old else x.outer })
  | .popOff =>
    if c.sie then .error .popOffInterruptible
    else if c.noff < 1 then .error .popOff
    else .ok (c.popOff, { x with depth := x.depth - 1 })
  | .intr on => .ok ({ c with sie := on }, x)
  | .trap => if c.sie then .ok ({ c with sie := false }, { x with old := none, trap := some x.old }) else .ok (c, x)
  | .sret =>
    match x.trap with
    | none => .ok (c, x)
    | some old => .ok ({ c with sie := true }, { x with old := old, trap := none })

/-- The threads: those of the processes, and the schedulers. -/
structure St (H T : Type) where
  cpu : H → Cpu T
  thread : T ⊕ H → Thread
  panic : Option Panic

def St.who (s : St H T) (h : H) : T ⊕ H :=
  match (s.cpu h).proc with
  | some t => .inl t
  | none => .inr h

inductive Ev (H T : Type) where
  | exec (h : H) (op : Op)
  | sched (h : H)
  /-- The scheduler of the hart switches to `t`. -/
  | swtch (h : H) (t : T)
  deriving DecidableEq, Repr

section

variable [DecidableEq H] [DecidableEq T]

def St.exec (s : St H T) (h : H) (op : Op) : St H T :=
  match Intr.exec (s.cpu h) (s.thread (s.who h)) op with
  | .ok (c, x) => { s with cpu := upd s.cpu h c, thread := upd s.thread (s.who h) x }
  | .error e => { s with panic := some e }

/-- `sched`, up to its `swtch`. -/
def St.sched (s : St H T) (h : H) : St H T :=
  match (s.cpu h).proc with
  | none => s
  | some t =>
    if (s.cpu h).noff ≠ 1 then { s with panic := some .schedLocks }
    else if (s.cpu h).sie then { s with panic := some .schedInterruptible }
    else
      { s with
        cpu := upd s.cpu h { s.cpu h with proc := none }
        thread := upd s.thread (.inl t) { s.thread (.inl t) with intena := some (s.cpu h).intena } }

/-- `t` goes on in `sched`, which restores its `intena`, or starts in `forkret`. -/
def St.swtch (s : St H T) (h : H) (t : T) : St H T :=
  match (s.cpu h).proc with
  | some _ => s
  | none =>
    { s with
      cpu := upd s.cpu h
        { s.cpu h with proc := some t, intena := (s.thread (.inl t)).intena.getD (s.cpu h).intena } }

def step (s : St H T) (e : Ev H T) : St H T :=
  if s.panic ≠ none then s
  else
    match e with
    | .exec h op => s.exec h op
    | .sched h => s.sched h
    | .swtch h t => s.swtch h t

end

/-- The harts run their schedulers; each process is about to start in `forkret`. -/
def init : St H T :=
  ⟨fun _ => ⟨false, 0, false, none⟩, Sum.elim (fun _ => ⟨none, none, none, 1, none⟩) fun _ =>
    ⟨none, none, none, 0, none⟩, none⟩

/-- What is assumed of a thread: it does not pop more than it pushed, turns interrupts on
    or off only outside of its pushes, and its handlers pop what they pushed. -/
def Op.Proper (x : Thread) : Op → Prop
  | .intrGet => x.old = none
  | .pushOff => x.old ≠ none
  | .popOff => x.old = none ∧ 0 < x.depth
  | .intr _ => x.old = none ∧ x.trap = none ∧ x.depth = 0
  | .trap => True
  | .sret => x.old = none ∧ x.depth = 0

/-- The scheduler switches where it has acquired `p->lock` and nothing else, and no other
    hart runs the thread. -/
def Proper (s : St H T) : Ev H T → Prop
  | .exec h op => op.Proper (s.thread (s.who h))
  | .sched h => (s.thread (s.who h)).old = none
  | .swtch h t => (s.thread (.inr h)).depth = 1 ∧ (s.thread (.inr h)).trap = none ∧ (s.thread (.inr h)).old = none ∧
      ∀ h', (s.cpu h').proc ≠ some t

/-! ## A thread on its hart -/

/-- The CPU is that of the thread it runs. The scheduler is exempt from `intena`, which is
    that of the thread it has switched to, except in a handler. -/
structure Runs (c : Cpu T) (x : Thread) : Prop where
  noff : c.noff = x.depth
  off : 0 < x.depth → c.sie = false
  intena : c.proc ≠ none ∨ x.trap ≠ none → 0 < x.depth → ∀ b, x.outer = some b → c.intena = b
  trap : x.trap ≠ none → c.sie = false ∧ (∀ b, x.old = some b → b = false) ∧ (0 < x.depth → x.outer = some false)

variable {c c' : Cpu T} {x x' : Thread}

theorem runs_pushOff (h : Runs c x) {old : Bool} (ho : x.old = some old) :
    Runs { c with sie := false, intena := if c.noff = 0 then old else c.intena, noff := c.noff + 1 }
      { x with old := none, depth := x.depth + 1, outer := if x.depth = 0 then some old else x.outer } := by
  refine ⟨?_, fun _ => rfl, fun hw _ b hb => ?_, fun ht => ⟨rfl, (fun b hb => by cases hb), fun _ => ?_⟩⟩
  · show c.noff + 1 = ((x.depth + 1 : Nat) : Int)
    rw [h.noff]
    rfl
  · show (if c.noff = 0 then old else c.intena) = b
    by_cases h0 : x.depth = 0
    · rw [if_pos (by rw [h.noff, h0]; rfl)]
      rw [if_pos h0] at hb
      exact Option.some.inj hb
    · rw [if_neg (by rw [h.noff]; omega)]
      rw [if_neg h0] at hb
      exact h.intena hw (Nat.pos_of_ne_zero h0) b hb
  · obtain ⟨_, hold, houter⟩ := h.trap ht
    show (if x.depth = 0 then some old else x.outer) = some false
    by_cases h0 : x.depth = 0
    · rw [if_pos h0, hold old ho]
    · rw [if_neg h0]
      exact houter (Nat.pos_of_ne_zero h0)

/-- The last pop restores what the outermost push found. -/
theorem popOff_sie (h : Runs c x) (hw : c.proc ≠ none ∨ x.trap ≠ none) (h1 : x.depth = 1) {b : Bool}
    (hb : x.outer = some b) :
    c.popOff.sie = b := by
  have hd : 0 < x.depth := by omega
  unfold Cpu.popOff
  rw [h.intena hw hd b hb, h.off hd, h.noff, h1]
  cases b <;> rfl

theorem popOff_off (h : Runs c x) (hd : 1 < x.depth) : c.popOff.sie = false := by
  unfold Cpu.popOff
  rw [h.off (Nat.lt_of_succ_lt hd), h.noff]
  exact if_neg fun hz => by omega

theorem exec_popOff (h : Runs c x) (hd : 0 < x.depth) :
    exec c x .popOff = .ok (c.popOff, { x with depth := x.depth - 1 }) := by
  simp only [exec, h.off hd, h.noff]
  rw [if_neg (by decide), if_neg (by omega)]

theorem runs_popOff (h : Runs c x) (hd : 0 < x.depth) (hold : x.old = none) :
    Runs c.popOff { x with depth := x.depth - 1 } := by
  refine ⟨?_, fun hp => popOff_off h (by simp only at hp; omega), fun hw _ b hb => h.intena hw hd b hb,
    fun ht => ⟨?_, fun b hb => ?_, fun _ => ?_⟩⟩
  · show c.noff - 1 = ((x.depth - 1 : Nat) : Int)
    rw [h.noff]
    omega
  · by_cases h1 : x.depth = 1
    · exact popOff_sie h (.inr ht) h1 ((h.trap ht).2.2 hd)
    · exact popOff_off h (by omega)
  · rw [hold] at hb
    cases hb
  · exact (h.trap ht).2.2 hd

theorem runs_exec (h : Runs c x) {op : Op} (hp : op.Proper x) :
    ∃ c' x', exec c x op = .ok (c', x') ∧ Runs c' x' ∧ c'.proc = c.proc := by
  cases op with
  | intrGet =>
    refine ⟨c, { x with old := some c.sie }, rfl, ⟨h.noff, h.off, h.intena, fun ht => ?_⟩, rfl⟩
    obtain ⟨hoff, _, houter⟩ := h.trap ht
    exact ⟨hoff, fun b hb => (Option.some.inj hb).symm.trans hoff, houter⟩
  | pushOff =>
    obtain ⟨old, ho⟩ := Option.ne_none_iff_exists'.mp hp
    refine ⟨_, _, ?_, runs_pushOff h ho, rfl⟩
    unfold exec
    rw [ho]
  | popOff =>
    exact ⟨c.popOff, _, exec_popOff h hp.2, runs_popOff h hp.2 hp.1, rfl⟩
  | intr on =>
    obtain ⟨_, ht, h0⟩ := hp
    refine ⟨{ c with sie := on }, x, rfl,
      ⟨h.noff, fun hd => absurd h0 (Nat.pos_iff_ne_zero.mp hd), h.intena, fun hn => absurd ht hn⟩, rfl⟩
  | trap =>
    simp only [exec]
    by_cases hs : c.sie = true
    · -- interrupts are on: no push is outstanding
      have h0 : x.depth = 0 := Nat.eq_zero_of_not_pos fun hd => by
        rw [h.off hd] at hs
        cases hs
      rw [if_pos hs]
      refine ⟨{ c with sie := false }, _, rfl,
        ⟨h.noff, fun _ => rfl, fun _ hd => absurd h0 (Nat.pos_iff_ne_zero.mp hd),
          fun _ => ⟨rfl, (fun b hb => by cases hb), ?_⟩⟩, rfl⟩
      exact fun hd => absurd h0 (Nat.pos_iff_ne_zero.mp hd)
    · rw [if_neg hs]
      exact ⟨c, x, rfl, h, rfl⟩
  | sret =>
    obtain ⟨_, h0⟩ := hp
    have hno : ¬ 0 < x.depth := by rw [h0]; exact Nat.lt_irrefl 0
    simp only [exec]
    split
    · exact ⟨c, x, rfl, h, rfl⟩
    · exact ⟨{ c with sie := true }, _, rfl,
        ⟨h.noff, fun hd => absurd hd hno, fun _ hd => absurd hd hno, fun ht => absurd rfl ht⟩, rfl⟩

/-! ## All harts -/

/-- A thread that is switched out: in `sched` with the value of `intena` it is to have, or new. -/
structure Out (x : Thread) : Prop where
  depth : x.depth = 1
  old : x.old = none
  intena : ∀ b, x.outer = some b → x.intena = some b
  trap : x.trap ≠ none → x.outer = some false

structure Waits (x : Thread) : Prop where
  depth : x.depth = 1
  old : x.old = none
  trap : x.trap = none

structure Inv (s : St H T) : Prop where
  runs : ∀ h, Runs (s.cpu h) (s.thread (s.who h))
  one : ∀ h h' t, (s.cpu h).proc = some t → (s.cpu h').proc = some t → h = h'
  out : ∀ t, (∀ h, (s.cpu h).proc ≠ some t) → Out (s.thread (.inl t))
  waits : ∀ h t, (s.cpu h).proc = some t → Waits (s.thread (.inr h))
  panic : s.panic = none ∨ s.panic = some .schedLocks

theorem inv_init : Inv (init : St H T) where
  runs := fun h => ⟨rfl, (fun hd => absurd hd (Nat.lt_irrefl 0)), (fun _ hd => absurd hd (Nat.lt_irrefl 0)),
    fun ht => absurd rfl ht⟩
  one := fun h h' t ht => by cases ht
  out := fun t _ => ⟨rfl, rfl, (fun b hb => by cases hb), fun ht => absurd rfl ht⟩
  waits := fun h t ht => by cases ht
  panic := .inl rfl

variable {s : St H T} {h h' : H} {t : T}

theorem who_some (hp : (s.cpu h).proc = some t) : s.who h = .inl t := by
  unfold St.who
  rw [hp]

theorem who_none (hp : (s.cpu h).proc = none) : s.who h = .inr h := by
  unfold St.who
  rw [hp]

theorem who_ne (hi : Inv s) (hne : h' ≠ h) : s.who h' ≠ s.who h := by
  intro he
  cases hp' : (s.cpu h').proc with
  | none =>
    rw [who_none hp'] at he
    cases hp : (s.cpu h).proc with
    | none => rw [who_none hp] at he; exact hne (Sum.inr.inj he)
    | some t => rw [who_some hp] at he; cases he
  | some t =>
    rw [who_some hp'] at he
    cases hp : (s.cpu h).proc with
    | none => rw [who_none hp] at he; cases he
    | some t' => rw [who_some hp] at he; cases he; exact hne (hi.one h' h t hp' hp)

variable [DecidableEq H] [DecidableEq T]

section

variable (hi : Inv s)

include hi

/-- The thread that a hart runs does something there. -/
theorem inv_local {c : Cpu T} {x : Thread} (hr : Runs c x) (hp : c.proc = (s.cpu h).proc) :
    Inv { s with cpu := upd s.cpu h c, thread := upd s.thread (s.who h) x } := by
  have hproc : ∀ h', (upd s.cpu h c h').proc = (s.cpu h').proc := by
    intro h'
    by_cases e : h' = h
    · rw [e, upd_same, hp]
    · rw [upd_ne _ _ e]
  have hwho : ∀ h', St.who { s with cpu := upd s.cpu h c, thread := upd s.thread (s.who h) x } h' = s.who h' := by
    intro h'
    unfold St.who
    simp only [hproc]
  refine ⟨fun h' => ?_, fun h1 h2 t ht ht' => ?_, fun t ht => ?_, fun h' t ht => ?_, hi.panic⟩
  · rw [hwho]
    by_cases e : h' = h
    · simp only [e, upd_same]
      exact hr
    · simp only [upd_ne _ _ e, upd_ne _ _ (who_ne hi e)]
      exact hi.runs h'
  · simp only [hproc] at ht ht'
    exact hi.one h1 h2 t ht ht'
  · simp only [hproc] at ht
    have hne : (.inl t : T ⊕ H) ≠ s.who h := by
      intro he
      cases hph : (s.cpu h).proc with
      | none => rw [who_none hph] at he; cases he
      | some t' => rw [who_some hph] at he; cases he; exact ht h hph
    simp only [upd_ne _ _ hne]
    exact hi.out t ht
  · simp only [hproc] at ht
    have hne : (.inr h' : T ⊕ H) ≠ s.who h := by
      intro he
      cases hph : (s.cpu h).proc with
      | none => rw [who_none hph] at he; cases he; rw [hph] at ht; cases ht
      | some t' => rw [who_some hph] at he; cases he
    simp only [upd_ne _ _ hne]
    exact hi.waits h' t ht

theorem inv_exec {op : Op} (hp : op.Proper (s.thread (s.who h))) : Inv (s.exec h op) := by
  obtain ⟨c, x, he, hr, hproc⟩ := runs_exec (hi.runs h) hp
  unfold St.exec
  rw [he]
  exact inv_local hi hr hproc

theorem runs_other (hne : h' ≠ h) (c : Cpu T) (x : Thread) {y : T ⊕ H} (hy : y ≠ s.who h') (e : Option Panic) :
    Runs (upd s.cpu h c h') (upd s.thread y x (St.who ⟨upd s.cpu h c, upd s.thread y x, e⟩ h')) := by
  have hwho : St.who ⟨upd s.cpu h c, upd s.thread y x, e⟩ h' = s.who h' := by
    unfold St.who
    simp only [upd_ne _ _ hne]
  rw [hwho, upd_ne _ _ hne, upd_ne _ _ hy.symm]
  exact hi.runs h'

theorem inv_sched (hold : (s.thread (s.who h)).old = none) : Inv (s.sched h) := by
  unfold St.sched
  split
  · exact hi
  next t hp =>
  have hr := hi.runs h
  have hw := hi.waits h t hp
  rw [who_some hp] at hr hold
  by_cases h1 : (s.cpu h).noff = 1
  · have hd : (s.thread (.inl t)).depth = 1 := by
      have := hr.noff
      omega
    have hoff : (s.cpu h).sie = false := hr.off (by omega)
    rw [if_neg (not_not_intro h1), hoff, if_neg (by decide)]
    refine ⟨fun h' => ?_, fun h1 h2 t' ht ht' => ?_, fun t' ht => ?_, fun h' t' ht => ?_, hi.panic⟩
    · by_cases e : h' = h
      · -- the scheduler has its one push, of `p->lock`
        rw [who_none (by simp only [e, upd_same])]
        simp only [e, upd_same]
        rw [upd_ne _ _ (by simp)]
        refine ⟨?_, fun _ => hoff, fun hn => ?_, fun ht => absurd hw.trap ht⟩
        · rw [hw.depth]
          exact h1
        · exact absurd hw.trap (hn.resolve_left fun hn => hn rfl)
      · exact runs_other hi e _ _ (by rw [← who_some hp]; exact (who_ne hi e).symm) _
    · have hne : ∀ h', (upd s.cpu h { s.cpu h with proc := none } h').proc = some t' → (s.cpu h').proc = some t' := by
        intro h' hq
        by_cases e : h' = h
        · rw [e, upd_same] at hq; cases hq
        · rw [upd_ne _ _ e] at hq; exact hq
      exact hi.one h1 h2 t' (hne h1 ht) (hne h2 ht')
    · by_cases e : t' = t
      · simp only [e, upd_same]
        refine ⟨hd, hold, fun b hb => ?_, fun htrap => (hr.trap htrap).2.2 (by omega)⟩
        rw [hr.intena (.inl (by rw [hp]; exact Option.some_ne_none t)) (by omega) b hb]
      have hne : (.inl t' : T ⊕ H) ≠ .inl t := fun he => e (Sum.inl.inj he)
      simp only [upd_ne _ _ hne]
      refine hi.out t' fun h' hq => ht h' ?_
      have hh : h' ≠ h := fun eh => by rw [eh, hp] at hq; exact e (Option.some.inj hq).symm
      simp only [upd_ne _ _ hh]
      exact hq
    · have hh : h' ≠ h := fun eh => by simp only [eh, upd_same] at ht; cases ht
      simp only [upd_ne _ _ hh] at ht
      exact hi.waits h' t' ht
  · rw [if_pos h1]
    exact ⟨hi.runs, hi.one, hi.out, hi.waits, .inr rfl⟩

theorem inv_swtch (hp : Proper s (.swtch h t)) : Inv (s.swtch h t) := by
  obtain ⟨hd, htrap, hold, hnot⟩ := hp
  unfold St.swtch
  split
  · exact hi
  next hnone =>
  have hr := hi.runs h
  rw [who_none hnone] at hr
  have hout := hi.out t hnot
  have hoff : (s.cpu h).sie = false := hr.off (by omega)
  refine ⟨fun h' => ?_, fun h1 h2 t' ht ht' => ?_, fun t' ht => ?_, fun h' t' ht => ?_, hi.panic⟩
  · by_cases e : h' = h
    · rw [who_some (t := t) (by simp only [e, upd_same])]
      simp only [e, upd_same]
      refine ⟨?_, fun _ => hoff, fun _ _ b hb => ?_, fun ht => ⟨hoff, fun b hb => ?_, fun _ => hout.trap ht⟩⟩
      · rw [hout.depth, ← hd]
        exact hr.noff
      · rw [hout.intena b hb]
        rfl
      · rw [hout.old] at hb
        cases hb
    · have := runs_other hi e
        { s.cpu h with proc := some t, intena := (s.thread (.inl t)).intena.getD (s.cpu h).intena }
        (s.thread (.inr h)) (y := .inr h) (by rw [← who_none hnone]; exact (who_ne hi e).symm) s.panic
      rw [upd_self] at this
      exact this
  · have hcases : ∀ h', (upd s.cpu h
      { s.cpu h with proc := some t, intena := (s.thread (.inl t)).intena.getD (s.cpu h).intena } h').proc =
        some t' → h' = h ∧ t' = t ∨ (s.cpu h').proc = some t' := by
      intro h' hq
      by_cases e : h' = h
      · rw [e, upd_same] at hq
        exact .inl ⟨e, (Option.some.inj hq).symm⟩
      · rw [upd_ne _ _ e] at hq
        exact .inr hq
    rcases hcases h1 ht with ⟨e1, et⟩ | hq1
    · rcases hcases h2 ht' with ⟨e2, _⟩ | hq2
      · exact e1.trans e2.symm
      · exact absurd (et ▸ hq2) (hnot h2)
    · rcases hcases h2 ht' with ⟨_, et⟩ | hq2
      · exact absurd (et ▸ hq1) (hnot h1)
      · exact hi.one h1 h2 t' hq1 hq2
  · refine hi.out t' fun h' hq => ht h' ?_
    have hh : h' ≠ h := fun eh => by rw [eh, hnone] at hq; cases hq
    simp only [upd_ne _ _ hh]
    exact hq
  · by_cases e : h' = h
    · rw [e]
      exact ⟨hd, hold, htrap⟩
    · simp only [upd_ne _ _ e] at ht
      exact hi.waits h' t' ht

theorem inv_step {e : Ev H T} (hp : Proper s e) : Inv (step s e) := by
  unfold step
  split
  · exact hi
  · cases e with
    | exec h op => exact inv_exec hi hp
    | sched h => exact inv_sched hi hp
    | swtch h t => exact inv_swtch hi hp

/-- The pop that leaves a thread with no push. -/
theorem step_popOff (hpanic : s.panic = none) (hp : (s.cpu h).proc = some t)
    (hd : (s.thread (.inl t)).depth = 1) {b : Bool} (hb : (s.thread (.inl t)).outer = some b) :
    ((step s (.exec h .popOff)).cpu h).sie = b ∧ ((step s (.exec h .popOff)).thread (.inl t)).depth = 0 := by
  have hr := hi.runs h
  rw [who_some hp] at hr
  have hexec := exec_popOff hr (by omega)
  unfold step
  rw [if_neg (not_not_intro hpanic)]
  simp only [St.exec, who_some hp, hexec, upd_same]
  refine ⟨popOff_sie hr (.inl (by rw [hp]; exact Option.some_ne_none t)) hd hb, ?_⟩
  rw [hd]

end

/-- On any number of harts, whatever the threads do, be switched out and go on elsewhere
    included: interrupts are off where `noff` is positive; the pop that leaves a process's
    thread with no push enables them exactly if its outermost push found them enabled; and
    the panics of `pop_off` are not reached. -/
theorem interrupts_per_thread (es : List (Ev H T)) (hu : Along step Proper init es) :
    (∀ h, 0 < ((run step init es).cpu h).noff → ((run step init es).cpu h).sie = false) ∧
    (∀ h t b, (run step init es).panic = none → ((run step init es).cpu h).proc = some t →
      ((run step init es).thread (.inl t)).depth = 1 → ((run step init es).thread (.inl t)).outer = some b →
      ((step (run step init es) (.exec h .popOff)).cpu h).sie = b ∧
        ((step (run step init es) (.exec h .popOff)).thread (.inl t)).depth = 0) ∧
    (run step init es).panic ≠ some .popOffInterruptible ∧ (run step init es).panic ≠ some .popOff := by
  have hi : Inv (run step init es) := run_inv (I := Inv) (fun s e hp hi => inv_step hi hp) es hu inv_init
  refine ⟨fun h hn => ?_, fun h t b hpanic hp hd hb => ?_, ?_, ?_⟩
  · have hr := hi.runs h
    refine hr.off ?_
    have := hr.noff
    omega
  · exact step_popOff hi hpanic hp hd hb
  · rcases hi.panic with h | h <;> rw [h] <;> decide
  · rcases hi.panic with h | h <;> rw [h] <;> decide

/-- The thread starts on hart `false`, enables interrupts, pushes and is switched out; hart
    `true`, whose scheduler pushed with interrupts off, goes on with it. -/
def migration : List (Ev Bool Unit) :=
  [.exec false .intrGet, .exec false .pushOff, .swtch false (), .exec false .popOff, .exec false (.intr true),
   .exec false .intrGet, .exec false .pushOff, .sched false, .exec true .intrGet, .exec true .pushOff, .swtch true ()]

theorem interrupts_per_thread_migration :
    ((run step init migration).cpu true).sie = false ∧
    ((step (run step init migration) (.exec true .popOff)).cpu true).sie = true := by
  have hu : Along step Proper init migration := by
    refine ⟨rfl, Option.some_ne_none _, ⟨rfl, rfl, rfl, fun h' => ?_⟩, ⟨rfl, Nat.zero_lt_one⟩,
      ⟨rfl, rfl, rfl⟩, rfl, Option.some_ne_none _, rfl,
      rfl, Option.some_ne_none _, ⟨rfl, rfl, rfl, fun h' => ?_⟩, trivial⟩
    · revert h'
      decide +kernel
    · revert h'
      decide +kernel
  obtain ⟨hoff, hpop, _⟩ := interrupts_per_thread migration hu
  exact ⟨hoff true (by decide +kernel),
    (hpop true () true (by decide +kernel) (by decide +kernel) (by decide +kernel) (by decide +kernel)).1⟩

end Xv6.Smp.Intr
