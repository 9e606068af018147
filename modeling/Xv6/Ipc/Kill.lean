/-
  Xv6.Ipc.Kill — `kkill` and the interruptible wait loops: `piperead` and `pipewrite`
  (`Xv6.Ipc.Pipe`), `consoleread` (`Xv6.Ipc.Console`), and here `sys_pause` and `sys_sleep` with
  the clock that they wait for (`kernel/sysproc.c`, `clockintr` in `kernel/trap.c`) and `kwait`
  with the exits that it waits for (`kernel/proc.c`).

  Each loop tests `killed(p)` and then calls `sleep`, and each of the two takes `p->lock` by
  itself, under a condition lock that `kkill` does not take. A process that `kkill` marks before
  the test, or when it sleeps, does not sleep on (`kills_seen`). One that it marks between the
  test and `sleep`'s `acquire(&p->lock)` does (`kill_slept_through`).
-/

import Xv6.Ipc.PipeProofs
import Xv6.Ipc.ConsoleProofs

namespace Xv6.Ipc

open Lib Monitor

/-! ## sys_pause and sys_sleep -/

namespace Pause

structure Data where
  ticks : BitVec 32
  returns : List Int

inductive Call where
  | sysPause (n : Int)
  | sysSleep (n : Int)
  | clockintr
  deriving DecidableEq, Repr

inductive Loc where
  | enter (n : BitVec 32)
  /-- The head of the loop. -/
  | loop (n ticks0 : BitVec 32)
  /-- The process is not killed. -/
  | nap (n ticks0 : BitVec 32)
  | clockintr
  | clocked
  deriving DecidableEq, Repr

/-- `sys_pause` takes a negative `n` for 0; in `sys_sleep` the comparison with an unsigned
    number takes it for a large one. -/
def start : Call → Loc
  | .sysPause n => .enter (BitVec.ofInt 32 (if n < 0 then 0 else n))
  | .sysSleep n => .enter (BitVec.ofInt 32 n)
  | .clockintr => .clockintr

def Data.ret (d : Data) (r : Int) : Data := { d with returns := d.returns ++ [r] }

def step (killed : Bool) (d : Data) : Loc → Data × Act Unit Loc
  | .enter n => (d, .go (.loop n d.ticks))
  | .loop n ticks0 =>
    if d.ticks - ticks0 < n then
      if killed then (d.ret (-1), .leave) else (d, .go (.nap n ticks0))
    else (d.ret 0, .leave)
  | .nap n ticks0 => (d, .sleep () (.loop n ticks0))
  | .clockintr => ({ d with ticks := d.ticks + 1#32 }, .wake () .clocked)
  | .clocked => (d, .leave)

/-- Any number of processes that pause, under `tickslock`. -/
def pause (P : Type) : Prog P Unit Data Loc Call Unit Empty :=
  { start := fun _ => start
    step := fun _ killed d l _ => step killed d l
    env := fun d _ => d }

/-- Where a call is bound to sleep, with its test of `killed` behind it. -/
def Armed : Loc → Prop
  | .nap _ _ => True
  | _ => False

def noKillArmed {P : Type} : Usage P Data Loc Call Unit :=
  { call := fun _ _ _ _ => True
    exec := fun _ _ _ _ _ => True
    kill := fun _ l => ¬ Armed l }

theorem alert_pause {P : Type} [FinEnum P] : Alert (m := pause P) (u := noKillArmed) fun _ => Armed := by
  refine ⟨fun d p a => by cases a <;> exact id, fun p k d l i _ => ?_, fun d x => x.elim, fun d l h => h⟩
  show Tests (fun _ => Armed) k d l (step k d l).1 (step k d l).2
  cases l with
  | enter n => exact False.elim
  | loop n ticks0 =>
    unfold step
    dsimp only
    split
    · split
      · trivial
      · rename_i hk
        exact fun _ => .inl (by simpa using hk)
    · trivial
  | nap n ticks0 => exact ⟨.inr trivial, fun _ => id⟩
  | clockintr => exact False.elim
  | clocked => trivial

end Pause

/-! ## kwait -/

namespace Wait

inductive State where
  | unused
  | live
  | zombie
  deriving DecidableEq, Repr

structure Proc (P : Type) where
  parent : Option P
  state : State
  deriving DecidableEq, Repr

abbrev Data (P : Type) := P → Proc P

inductive Call (P : Type) where
  | kwait
  | kexit
  /-- `np->parent = p` in `kfork`. -/
  | kfork (np : P)
  deriving DecidableEq, Repr

inductive Loc (P : Type) where
  /-- The scan of the table for children. -/
  | scan (havekids : Bool) (todo : List P)
  /-- There are children, and the process is not killed. -/
  | nap
  /-- The loop of `reparent`. -/
  | reparent (todo : List P)
  | exitLast
  | fork (np : P)
  deriving DecidableEq, Repr

variable {P : Type} [FinEnum P] (initproc : P)

def start : Call P → Loc P
  | .kwait => .scan false (FinEnum.toList P)
  | .kexit => .reparent (FinEnum.toList P)
  | .kfork np => .fork np

/-- A step of process `p`; `ok` says whether `copyout` succeeds. -/
def step (p : P) (killed : Bool) (d : Data P) (l : Loc P) (ok : Bool) : Data P × Act P (Loc P) :=
  match l with
  | .scan havekids (q :: todo) =>
    if (d q).parent = some p then
      if (d q).state = .zombie then
        if ok then (upd d q ⟨none, .unused⟩, .leave) else (d, .leave)
      else (d, .go (.scan true todo))
    else (d, .go (.scan havekids todo))
  | .scan havekids [] => if havekids = false ∨ killed then (d, .leave) else (d, .go .nap)
  | .nap => (d, .sleep p (.scan false (FinEnum.toList P)))
  | .reparent (q :: todo) =>
    if (d q).parent = some p then (upd d q { d q with parent := some initproc }, .wake initproc (.reparent todo))
    else (d, .go (.reparent todo))
  | .reparent [] =>
    match (d p).parent with
    | some q => (d, .wake q .exitLast)
    | none => (d, .go .exitLast)
  | .exitLast => (upd d p { d p with state := .zombie }, .leave)
  | .fork np => (upd d np ⟨some p, .live⟩, .leave)

/-- The processes under `wait_lock`; a process waits on itself. -/
def wait : Prog P P (Data P) (Loc P) (Call P) Bool Empty :=
  { start := fun _ => start
    step := step initproc
    env := fun d _ => d }

/-- Where a call is bound to sleep, with its test of `killed` behind it. -/
def Armed : Loc P → Prop
  | .nap => True
  | _ => False

def noKillArmed : Usage P (Data P) (Loc P) (Call P) Bool :=
  { call := fun _ _ _ _ => True
    exec := fun _ _ _ _ _ => True
    kill := fun _ l => ¬ Armed l }

theorem alert_wait : Alert (m := wait initproc) (u := noKillArmed) fun _ => Armed := by
  refine ⟨fun d p a => by cases a <;> exact id, fun p k d l ok _ => ?_, fun d x => x.elim, fun d l h => h⟩
  show Tests (fun _ => Armed) k d l (step initproc p k d l ok).1 (step initproc p k d l ok).2
  cases l with
  | scan havekids todo =>
    cases todo with
    | nil =>
      unfold step
      dsimp only
      split
      · trivial
      · rename_i h
        exact fun _ => .inl (by simpa using fun hk => h (.inr hk))
    | cons q todo =>
      unfold step
      dsimp only
      split
      · split
        · split <;> trivial
        · exact False.elim
      · exact False.elim
  | nap => exact ⟨.inr trivial, fun _ => id⟩
  | reparent todo =>
    cases todo with
    | nil | cons q todo =>
      unfold step
      dsimp only
      split <;> exact False.elim
  | exitLast | fork np => trivial

end Wait

/-! ## All the loops -/

/-- Whenever the own lock of a killed process is free, the process is not asleep. -/
def KillSeen {P C D L : Type} (s : St P C D L) : Prop :=
  ∀ p, (s.phase p).falls = false → s.killed p = true → ∀ c l, s.phase p ≠ .asleep c l

theorem killSeen_of_awake {P C D L : Type} {Armed : D → L → Prop} {s : St P C D L} (h : Awake Armed s) :
    KillSeen s := by
  intro p _ hk c l hp
  have := h.waits p c (by rw [hp]; rfl)
  rw [hk] at this
  cases this

/-- In every run in which no kill lands on a process between its test of `killed` and the
    `acquire(&p->lock)` of its `sleep`, no kill is slept through. -/
theorem kills_seen {P : Type} [FinEnum P] (initproc : P) :
    (∀ buf es, Along (St.step (Pipe.pipe P)) Pipe.noKillArmed.Meets (St.init (Pipe.pipealloc buf)) es →
      KillSeen (run (St.step (Pipe.pipe P)) (St.init (Pipe.pipealloc buf)) es)) ∧
    (∀ buf es, Along (St.step (Console.console P)) Console.noKillArmed.Meets (St.init (Console.init buf)) es →
      KillSeen (run (St.step (Console.console P)) (St.init (Console.init buf)) es)) ∧
    (∀ d es, Along (St.step (Pause.pause P)) Pause.noKillArmed.Meets (St.init d) es →
      KillSeen (run (St.step (Pause.pause P)) (St.init d) es)) ∧
    (∀ d es, Along (St.step (Wait.wait initproc)) Wait.noKillArmed.Meets (St.init d) es →
      KillSeen (run (St.step (Wait.wait initproc)) (St.init d) es)) :=
  ⟨fun _ es h => killSeen_of_awake (alert_inv Pipe.alert_pipe es h),
    fun _ es h => killSeen_of_awake (alert_inv Console.alert_console es h),
    fun _ es h => killSeen_of_awake (alert_inv Pause.alert_pause es h),
    fun _ es h => killSeen_of_awake (alert_inv (Wait.alert_wait initproc) es h)⟩

/-- Process 0 reads from an empty pipe; the kill comes when it sleeps. -/
def wokenReader : List (Ev (Fin 1) Pipe.Call (Option (BitVec 8)) Empty) :=
  [.call 0 (.piperead 1), .exec 0 none, .exec 0 none, .doze 0, .kill 0]

theorem kills_seen_reader :
    (run (St.step (Pipe.pipe (Fin 1))) (St.init (Pipe.pipealloc fun _ => 0#8)) wokenReader).killed 0 = true ∧
    KillSeen (run (St.step (Pipe.pipe (Fin 1))) (St.init (Pipe.pipealloc fun _ => 0#8)) wokenReader) :=
  ⟨by decide +kernel, (kills_seen 0).1 (fun _ => 0#8) wokenReader
    ⟨trivial, fun _ _ => trivial, fun _ _ => trivial, trivial, fun l hl => (by cases hl), trivial⟩⟩

/-- Process 0 reads from an empty pipe; the kill comes right after its test. -/
def killedReader : List (Ev (Fin 1) Pipe.Call (Option (BitVec 8)) Empty) :=
  [.call 0 (.piperead 1), .exec 0 none, .kill 0, .exec 0 none, .doze 0]

/-- Process 1 has a child, process 2, and waits; the kill comes right after its test. -/
def killedParent : List (Ev (Fin 4) (Wait.Call (Fin 4)) Bool Empty) :=
  [.call 1 .kwait, .exec 1 true, .exec 1 true, .exec 1 true, .exec 1 true, .exec 1 true, .kill 1, .exec 1 true, .doze 1]

/-- Process 2 is a child of 1, and 1 of the first process. -/
def family : Wait.Data (Fin 4) := fun q =>
  if q = 2 then ⟨some 1, .live⟩ else if q = 1 then ⟨some 0, .live⟩ else if q = 0 then ⟨none, .live⟩ else ⟨none, .unused⟩

/-- They fall asleep killed. -/
theorem kill_slept_through :
    ((run (St.step (Pipe.pipe (Fin 1))) (St.init (Pipe.pipealloc fun _ => 0#8)) killedReader).phase 0 =
        .asleep .nread (.read 1) ∧
      (run (St.step (Pipe.pipe (Fin 1))) (St.init (Pipe.pipealloc fun _ => 0#8)) killedReader).killed 0 = true) ∧
    ((run (St.step (Wait.wait 0)) (St.init family) killedParent).phase 1 = .asleep 1 (.scan false [0, 1, 2, 3]) ∧
      (run (St.step (Wait.wait 0)) (St.init family) killedParent).killed 1 = true) := by
  decide +kernel

end Xv6.Ipc
