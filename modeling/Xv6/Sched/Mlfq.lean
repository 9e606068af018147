/-
  Xv6.Sched.Mlfq — the MLFQ scheduler on one hart (`kernel/proc.c`: `scheduler`, `yield`,
  `sleep`, `wakeup`, `kfork`, `kexit`, `kwait`, `kkill`; `kernel/trap.c`: the timer
  interrupt in `usertrap` and `kerneltrap`).

  On one hart a stretch of kernel code with interrupts off is one step: the scheduler's
  scan up to its `swtch`, a critical section, a trap up to its `yield`. `cur` is `c->proc`;
  the running process makes calls while it is set, the scheduler scans while it is not.
  Between its steps a process may be interrupted by the timer, so `kfork`, which lets go
  of its locks twice, is three steps and keeps its local `np` in between. What else a
  process does between two of these calls (file system, memory) does not touch the fields
  here and is no step.

  Left out: the process's memory, files and name; which of the locks is held.
-/

import Xv6.Param
import Xv6.Lib.Run
import Xv6.Lib.Writes
import Xv6.Lib.First

namespace Xv6.Sched

open Lib

/-- `enum procstate`. -/
inductive ProcState where
  | unused | used | sleeping | runnable | running | zombie
  deriving DecidableEq, Repr

abbrev Slot := Fin NPROC

/-- What a process sleeps on: `&ticks`, a process (in `kwait`), or some other address. -/
inductive Chan where
  | ticks
  | proc (p : Slot)
  | addr (a : Nat)
  deriving DecidableEq, Repr

structure Proc where
  state : ProcState
  chan : Option Chan
  killed : Bool
  xstate : Int
  priority : Int
  ticksUsed : Int
  pid : Int
  parent : Option Slot
  deriving DecidableEq, Repr

/-- Where a process is in `kfork`, with its local `np`. -/
inductive Kfork where
  | no
  /-- `allocproc` is done, `np->lock` released. -/
  | alloced (np : Slot)
  /-- `np->parent` is set, `wait_lock` released. -/
  | parented (np : Slot)
  deriving DecidableEq, Repr

structure St where
  proc : Slot → Proc
  kfork : Slot → Kfork
  /-- `c->proc`. -/
  cur : Option Slot
  nextpid : Int
  ticks : Nat
  initproc : Slot
  panicked : Bool

/-! ## proc.c -/

def freeproc (p : Proc) : Proc :=
  { p with pid := 0, parent := none, chan := none, killed := false, xstate := 0, state := .unused }

/-- The increment of a C `int`. -/
def incr (n : Int) : Int := Int.bmod (n + 1) 4294967296

/-- A scan of the process table for the first slot that passes a test. -/
def findSlot (s : Slot → Proc) (c : Proc → Bool) : Option Slot := first fun p => c (s p)

/-- `allocproc`: the first UNUSED slot; `ok` says whether its memory could be allocated. -/
def allocproc (s : St) (ok : Bool) : Option Slot × St :=
  match findSlot s.proc (·.state = .unused) with
  | none => (none, s)
  | some np =>
    let p := { s.proc np with pid := s.nextpid, state := .used, priority := 0, ticksUsed := 0 }
    let s := { s with nextpid := incr s.nextpid }
    if ok then (some np, { s with proc := upd s.proc np p })
    else (none, { s with proc := upd s.proc np (freeproc p) })

/-- `wakeup`, called by process `me` (or by the scheduler's hart with none). -/
def wakeup (s : Slot → Proc) (me : Option Slot) (c : Chan) : Slot → Proc := fun p =>
  if me ≠ some p ∧ (s p).state = .sleeping ∧ (s p).chan = some c then { s p with state := .runnable } else s p

/-- `reparent`'s loop, with its `wakeup(initproc)`. -/
def reparent (s : St) (p : Slot) : Slot → Proc :=
  (List.finRange NPROC).foldl (fun t pp =>
    if (t pp).parent = some p then wakeup (upd t pp { t pp with parent := some s.initproc }) (some p) (.proc s.initproc)
    else t) s.proc

/-- The scheduler's scan: priority 0, then 1, then 2, each from slot 0 on. -/
def scan (s : Slot → Proc) : Option Slot :=
  [0, 1, 2].findSome? fun (priority : Int) => findSlot s fun p => p.state = .runnable ∧ p.priority = priority

/-- `yield`, up to the `swtch` to the scheduler. -/
def yield (s : St) (p : Slot) : St :=
  { s with proc := upd s.proc p { s.proc p with state := .runnable }, cur := none }

/-! ## trap.c -/

def clockintr (s : St) : St :=
  { s with ticks := (s.ticks + 1) % 4294967296, proc := wakeup s.proc s.cur .ticks }

/-- The demotion rule in `usertrap`. -/
def charge (p : Proc) : Proc :=
  let p := { p with ticksUsed := incr p.ticksUsed }
  if p.priority = 0 ∧ p.ticksUsed ≥ 5 then { p with priority := 1, ticksUsed := 0 }
  else if p.priority = 1 ∧ p.ticksUsed ≥ 10 then { p with priority := 2, ticksUsed := 0 }
  else p

/-- The accounting touches the two scheduling fields only. -/
theorem charge_eq (p : Proc) :
    charge p = { p with priority := (charge p).priority, ticksUsed := (charge p).ticksUsed } := by
  unfold charge
  dsimp only
  split
  · rfl
  · split <;> rfl

/-- A timer interrupt taken in user mode. A killed process goes on to `kexit`. -/
def usertrap (s : St) (p : Slot) : St :=
  let s := clockintr s
  if (s.proc p).killed then s
  else if (s.proc p).state = .running then yield { s with proc := upd s.proc p (charge (s.proc p)) } p
  else yield s p

/-- A timer interrupt taken in the kernel, or by the scheduler with no process. -/
def kerneltrap (s : St) : St :=
  match (clockintr s).cur with
  | some p => yield (clockintr s) p
  | none => clockintr s

/-! ## The machine -/

inductive Ev where
  /-- One turn of the scheduler's loop. -/
  | scheduler
  /-- A timer interrupt, in user mode or not. -/
  | timer (user : Bool)
  /-- A device's interrupt handler wakes what waits for it. -/
  | devintr (c : Chan)
  /-- The running process calls `sleep(c)`, `wakeup(c)`. -/
  | sleep (c : Chan)
  | wakeup (c : Chan)
  /-- The three stretches of `kfork`; `ok` says whether memory could be allocated. -/
  | kforkAlloc (ok : Bool)
  | kforkParent
  | kforkRunnable
  | kexit (status : Int)
  /-- One turn of `kwait`'s loop; `ok` says whether `copyout` succeeds. -/
  | kwait (ok : Bool)
  | kkill (pid : Int)
  | setkilled
  deriving DecidableEq, Repr

/-- `kexit`'s `reparent(p)` and `wakeup(p->parent)`. -/
def bereave (s : St) (p : Slot) : Slot → Proc :=
  match (reparent s p p).parent with
  | some q => wakeup (reparent s p) (some p) (.proc q)
  | none => reparent s p

/-- `kexit` from `acquire(&wait_lock)` on. -/
def kexit (s : St) (p : Slot) (status : Int) : St :=
  if p = s.initproc then { s with panicked := true }
  else
    let t := bereave s p
    { s with proc := upd t p { t p with xstate := status, state := .zombie }, cur := none }

def sleep (s : St) (p : Slot) (c : Chan) : St :=
  { s with proc := upd s.proc p { s.proc p with chan := some c, state := .sleeping }, cur := none }

/-- One turn of `kwait`'s loop, under `wait_lock`. -/
def kwait (s : St) (p : Slot) (ok : Bool) : St :=
  match findSlot s.proc fun pp => pp.parent = some p ∧ pp.state = .zombie with
  | some pp => if ok then { s with proc := upd s.proc pp (freeproc (s.proc pp)) } else s
  | none =>
    if (findSlot s.proc (·.parent = some p)).isNone ∨ (s.proc p).killed then s
    else sleep s p (.proc p)

def kkill (s : St) (pid : Int) : St :=
  match findSlot s.proc (·.pid = pid) with
  | none => s
  | some q =>
    let p := { s.proc q with killed := true }
    { s with proc := upd s.proc q (if p.state = .sleeping then { p with state := .runnable } else p) }

/-- A call made by the running process `p`, which is not inside `kfork`. -/
def call (s : St) (p : Slot) : Ev → St
  | .sleep c => sleep s p c
  | .wakeup c => { s with proc := wakeup s.proc (some p) c }
  | .kforkAlloc ok =>
    match allocproc s ok with
    | (some np, s) => { s with kfork := upd s.kfork p (.alloced np) }
    | (none, s) => s
  | .kexit status => kexit s p status
  | .kwait ok => kwait s p ok
  | .kkill pid => kkill s pid
  | .setkilled => { s with proc := upd s.proc p { s.proc p with killed := true } }
  | .timer true => usertrap s p
  | _ => s

/-- The rest of `kfork`, by the running process `p`. -/
def finishFork (s : St) (p : Slot) : Ev → Kfork → St
  | .kforkParent, .alloced np =>
    { s with proc := upd s.proc np { s.proc np with parent := some p }, kfork := upd s.kfork p (.parented np) }
  | .kforkRunnable, .parented np =>
    { s with proc := upd s.proc np { s.proc np with state := .runnable }, kfork := upd s.kfork p .no }
  | _, _ => s

def raw (s : St) (e : Ev) : St :=
  match e, s.cur with
  | .timer false, _ => kerneltrap s
  | .devintr c, cur => { s with proc := wakeup s.proc cur c }
  | .scheduler, none =>
    -- the process returns from `sched`; one that slept clears its `chan` at once
    match scan s.proc with
    | some p => { s with proc := upd s.proc p { s.proc p with state := .running, chan := none }, cur := some p }
    | none => s
  | _, none => s
  | e, some p => if s.kfork p = .no then call s p e else finishFork s p e (s.kfork p)

def step (s : St) (e : Ev) : St := if s.panicked then s else raw s e

def procinit : St :=
  { proc := fun _ => ⟨.unused, none, false, 0, 0, 0, 0, none⟩
    kfork := fun _ => .no
    cur := none
    nextpid := 1
    ticks := 0
    initproc := ⟨0, by decide⟩
    panicked := false }

/-- `userinit`: the state `scheduler` starts from. -/
def boot : St :=
  match allocproc procinit true with
  | (some p, s) => { s with proc := upd s.proc p { s.proc p with state := .runnable }, initproc := p }
  | (none, s) => s

def dispatch (s : St) (e : Ev) : Option Slot :=
  if s.panicked = false ∧ e = .scheduler ∧ s.cur = none then scan s.proc else none

end Xv6.Sched
