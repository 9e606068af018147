/-
  Xv6.Ipc.Sleeplock — sleep-locks (`kernel/sleeplock.c`), as a program under the spinlock
  `lk->lk` (see `Xv6.Lib.Monitor`). At most one process has a sleep-lock, and none sleeps
  while it is free (`sleeplock_excludes`).

  For the record the data also holds who has the lock: from the assignments in
  `acquiresleep` to the last `release` in `releasesleep`.
-/

import Xv6.Lib.Signals

namespace Xv6.Ipc.Sleeplock

open Lib Monitor

structure Data (P : Type) where
  locked : Bool
  pid : Nat
  has : P → Bool

inductive Chan where
  | lk
  deriving DecidableEq, Repr

inductive Call where
  | acquiresleep
  | releasesleep
  deriving DecidableEq, Repr

inductive Loc where
  /-- `acquiresleep` at the head of its loop. -/
  | acquire
  | release
  /-- `releasesleep` after its `wakeup`. -/
  | released
  deriving DecidableEq, Repr

def start : Call → Loc
  | .acquiresleep => .acquire
  | .releasesleep => .release

def initsleeplock {P : Type} : Data P := ⟨false, 0, fun _ => false⟩

variable {P : Type} [FinEnum P] (pid : P → Nat)

def step (p : P) (d : Data P) : Loc → Data P × Act Chan Loc
  | .acquire =>
    if d.locked then (d, .sleep .lk .acquire)
    else (⟨true, pid p, upd d.has p true⟩, .leave)
  | .release => (⟨false, 0, d.has⟩, .wake .lk .released)
  | .released => (⟨d.locked, d.pid, upd d.has p false⟩, .leave)

/-- Any number of processes that use one lock. -/
def sleeplock : Prog P Chan (Data P) Loc Call Unit Empty :=
  { start := fun _ => start
    step := fun p _ d l _ => step pid p d l
    env := fun d _ => d }

def Data.holdingsleep (d : Data P) (p : P) : Bool := d.locked && d.pid == pid p

def byOwner : Usage P (Data P) Loc Call Unit :=
  ⟨fun d _ p a => a = .releasesleep → d.has p = true, fun _ _ _ _ _ => True, fun _ _ => True⟩

/-! ## Who has the lock -/

structure Owned (d : Data P) (ls : P → Option Loc) : Prop where
  one : ∀ p q, d.has p = true → d.has q = true → p = q
  /-- It is locked until `releasesleep` has passed its assignments. -/
  locked : ∀ p, d.has p = true → ls p = some .released ∨ d.locked = true ∧ d.pid = pid p
  owner : d.locked = true → ∃ p, d.has p = true
  release : ∀ p, ls p = some .release → d.has p = true
  released : ∀ p, ls p = some .released → d.has p = true ∧ d.locked = false

variable {pid} {d : Data P} {ls : P → Option Loc} {p q : P}

theorem owned_call (h : Owned pid d ls) (hp : ls p = none) {a : Call} (ha : a = .releasesleep → d.has p = true) :
    Owned pid d (upd ls p (some (start a))) := by
  refine ⟨h.one, fun q hq => ?_, h.owner, fun q hq => ?_, fun q hq => ?_⟩
  · refine (h.locked q hq).imp_left fun hr => ?_
    have hne : q ≠ p := fun e => by rw [e, hp] at hr; cases hr
    rw [upd_ne _ _ hne]
    exact hr
  · by_cases e : q = p
    · rw [e, upd_same] at hq
      cases a with
      | acquiresleep => cases hq
      | releasesleep => rw [e]; exact ha rfl
    · rw [upd_ne _ _ e] at hq
      exact h.release q hq
  · by_cases e : q = p
    · rw [e, upd_same] at hq
      cases a <;> cases hq
    · rw [upd_ne _ _ e] at hq
      exact h.released q hq

section exec

/-! While `p` is inside, the others are at most in the loop of `acquiresleep`. -/

variable (h : Owned pid d ls) (hall : ∀ q l, q ≠ p → ls q = some l → l = .acquire)

include hall

theorem loc_inside {o : Option Loc} {l : Loc} (hl : l ≠ .acquire) (hq : upd ls p o q = some l) :
    q = p ∧ o = some l := by
  by_cases e : q = p
  · rw [e, upd_same] at hq
    exact ⟨e, hq⟩
  · rw [upd_ne _ _ e] at hq
    exact absurd (hall q l e hq) hl

include h

theorem owned_locked (hp : ls p ≠ some .released) (hq : d.has q = true) : d.locked = true ∧ d.pid = pid q := by
  refine (h.locked q hq).resolve_left fun hr => ?_
  by_cases e : q = p
  · rw [e] at hr
    exact hp hr
  · cases hall q _ e hr

/-- `acquiresleep` finds the lock taken. -/
theorem owned_sleep (hp : ls p = some .acquire) : Owned pid d (upd ls p (some .acquire)) := by
  refine ⟨h.one, fun q hq => .inr (owned_locked h hall (by rw [hp]; decide) hq), h.owner,
    fun q hq => ?_, fun q hq => ?_⟩
  · cases (loc_inside hall (by decide) hq).2
  · cases (loc_inside hall (by decide) hq).2

/-- `acquiresleep` takes the lock: nobody has it, since it is not locked. -/
theorem owned_take (hp : ls p = some .acquire) (hfree : d.locked = false) :
    Owned pid ⟨true, pid p, upd d.has p true⟩ (upd ls p none) := by
  have honly : ∀ q, upd d.has p true q = true → q = p := by
    intro q hq
    by_contra e
    rw [upd_ne _ _ e] at hq
    have := (owned_locked h hall (by rw [hp]; decide) hq).1
    rw [hfree] at this
    cases this
  refine ⟨fun q r hq hr => (honly q hq).trans (honly r hr).symm, fun q hq => .inr ⟨rfl, by rw [honly q hq]⟩,
    fun _ => ⟨p, upd_same _ _ _⟩, fun q hq => ?_, fun q hq => ?_⟩
  · cases (loc_inside hall (by decide) hq).2
  · cases (loc_inside hall (by decide) hq).2

theorem owned_release (hp : ls p = some .release) : Owned pid ⟨false, 0, d.has⟩ (upd ls p (some .released)) := by
  have hhas := h.release p hp
  refine ⟨h.one, fun q hq => .inl ?_, (fun hl => by cases hl), fun q hq => ?_, fun q hq => ?_⟩
  · rw [h.one q p hq hhas, upd_same]
  · cases (loc_inside hall (by decide) hq).2
  · exact ⟨by rw [(loc_inside hall (by decide) hq).1]; exact hhas, rfl⟩

theorem owned_leave (hp : ls p = some .released) : Owned pid ⟨d.locked, d.pid, upd d.has p false⟩ (upd ls p none) := by
  obtain ⟨hhas, hfree⟩ := h.released p hp
  have hnone : ∀ q, upd d.has p false q ≠ true := by
    intro q hq
    by_cases e : q = p
    · rw [e, upd_same] at hq
      cases hq
    · rw [upd_ne _ _ e] at hq
      exact e (h.one q p hq hhas)
  refine ⟨fun q r hq => absurd hq (hnone q), fun q hq => absurd hq (hnone q), fun hl => ?_,
    fun q hq => ?_, fun q hq => ?_⟩
  · rw [hfree] at hl
    cases hl
  · cases (loc_inside hall (by decide) hq).2
  · cases (loc_inside hall (by decide) hq).2

end exec

theorem keeps_owned : Keeps (sleeplock pid) byOwner (· = .acquire) (Owned pid) := by
  refine ⟨fun d ls p a h hp _ ha => owned_call h hp ha, fun d ls p _ l _ h hp hall _ => ?_, fun d ls x => x.elim⟩
  show Owned pid (step pid p d l).1 (upd ls p (step pid p d l).2.loc) ∧ ∀ c l',
    (step pid p d l).2 = .sleep c l' → l' = .acquire
  cases l with
  | acquire =>
    by_cases hl : d.locked = true
    · simp only [step, if_pos hl]
      exact ⟨owned_sleep h hall hp, fun c l' e => by cases e; rfl⟩
    · simp only [step, if_neg hl]
      exact ⟨owned_take h hall hp (Bool.eq_false_iff.mpr hl), fun c l' e => by cases e⟩
  | release => exact ⟨owned_release h hall hp, fun c l' e => by cases e⟩
  | released => exact ⟨owned_leave h hall hp, fun c l' e => by cases e⟩

omit [FinEnum P] in
/-- `holdingsleep`, asked by a process that is not in a call, says whether it has the lock. -/
theorem holdingsleep_iff (hpid : Function.Injective pid) (h : Owned pid d ls) (hp : ls p = none) :
    d.holdingsleep pid p = true ↔ d.has p = true := by
  unfold Data.holdingsleep
  rw [Bool.and_eq_true, beq_iff_eq]
  refine ⟨fun ⟨hl, he⟩ => ?_, fun hhas => ?_⟩
  · obtain ⟨q, hq⟩ := h.owner hl
    rcases h.locked q hq with hr | ⟨_, hq'⟩
    · rw [(h.released q hr).2] at hl
      cases hl
    · rw [← hpid (hq'.symm.trans he)]
      exact hq
  · refine (h.locked p hhas).resolve_left fun hr => ?_
    rw [hp] at hr
    cases hr

/-! ## Sleepers -/

/-- There is reason to sleep while it is locked. -/
theorem signals_sleeplock :
    Signals (m := sleeplock pid) (u := byOwner) (Owned pid) (fun d (_ : Chan) => d.locked = true)
      (fun _ _ => False) := by
  refine ⟨fun d ls p _ l _ h hp _ => ?_, fun d x => x.elim⟩
  show Pays _ _ d l (step pid p d l).1 (step pid p d l).2
  cases l with
  | acquire =>
    by_cases hl : d.locked = true
    · simp only [step, if_pos hl]
      exact ⟨hl, fun _ _ => hl⟩
    · simp only [step, if_neg hl]
      exact fun _ _ => rfl
  | release => exact fun c hc => absurd rfl hc
  | released => exact fun c hc => hc.resolve_right id

/-- Any processes, any interleaving of their calls and of kills: at most one process has
    the lock, and while `lk->lk` is free and the lock is not locked nobody sleeps on it. -/
theorem sleeplock_excludes (pid : P → Nat) (es : List (Ev P Call Unit Empty))
    (hu : Along (St.step (sleeplock pid)) byOwner.Meets (St.init initsleeplock) es) :
    (∀ p q, (run (St.step (sleeplock pid)) (St.init initsleeplock) es).data.has p = true →
      (run (St.step (sleeplock pid)) (St.init initsleeplock) es).data.has q = true → p = q) ∧
    ((run (St.step (sleeplock pid)) (St.init initsleeplock) es).holder = none →
      (run (St.step (sleeplock pid)) (St.init initsleeplock) es).data.locked = false →
      ∀ p l, (run (St.step (sleeplock pid)) (St.init initsleeplock) es).phase p ≠ .asleep .lk l) := by
  have h0 : Owned pid (initsleeplock (P := P)) fun _ => none :=
    ⟨(fun p q hp => by cases hp), (fun p hp => by cases hp), (fun hl => by cases hl), (fun p hp => by cases hp),
      fun p hp => by cases hp⟩
  have hown := (data_inv keeps_owned es hu h0).2.2
  have hsig := signals_inv keeps_owned signals_sleeplock es hu h0
  refine ⟨hown.one, fun hn hfree p l hp => ?_⟩
  have hl := hsig.free hn p .lk (by rw [hp]; rfl)
  rw [hfree] at hl
  cases hl

inductive Who where
  | owner
  | sleeper
  deriving DecidableEq, Repr

def Who.number : Who → Nat
  | .owner => 1
  | .sleeper => 2

instance : FinEnum Who :=
  .ofList [.owner, .sleeper] fun p => by cases p <;> simp

/-- `owner` takes the lock, `sleeper` sleeps on it and is killed in its sleep; `owner`
    releases the lock, and `sleeper` takes it. -/
def killedSleeper : List (Ev Who Call Unit Empty) :=
  [.call .owner .acquiresleep, .exec .owner (), .call .sleeper .acquiresleep, .exec .sleeper (),
    .doze .sleeper, .kill .sleeper,
   .call .owner .releasesleep, .exec .owner (), .visit .owner, .visit .owner, .visit .owner,
   .exec .owner (), .resume .sleeper, .exec .sleeper ()]

theorem sleeplock_excludes_killed :
    (run (St.step (sleeplock Who.number)) (St.init initsleeplock) killedSleeper).data.has .sleeper = true ∧
    (run (St.step (sleeplock Who.number)) (St.init initsleeplock) killedSleeper).data.has .owner ≠ true := by
  have h1 : (run (St.step (sleeplock Who.number)) (St.init initsleeplock) killedSleeper).data.has .sleeper =
    true := by decide +kernel
  have hu : Along (St.step (sleeplock Who.number)) byOwner.Meets (St.init initsleeplock) killedSleeper := by
    refine ⟨(fun e => by cases e), fun _ _ => trivial, (fun e => by cases e), fun _ _ => trivial,
      trivial, fun _ _ => trivial, fun _ => ?_,
      fun _ _ => trivial, trivial, trivial, trivial, fun _ _ => trivial, trivial, fun _ _ => trivial, trivial⟩
    decide +kernel
  refine ⟨h1, fun h0 => ?_⟩
  exact absurd ((sleeplock_excludes _ killedSleeper hu).1 .owner .sleeper h0 h1) (by decide)

end Xv6.Ipc.Sleeplock
