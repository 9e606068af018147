/-
  Xv6.Smp.Threads — processes and schedulers on any number of harts (`kernel/proc.c`:
  `scheduler`, `sched`, `yield`, `sleep`, `wakeup`, `forkret`, `allocproc`, `kfork`,
  `reparent`, `kexit`, `kwait`, `kkill`; the interrupts of `kernel/trap.c`).

  A step is one lock acquisition, one release, one `swtch`, or a stretch of code between
  two of these, by one hart. The code a thread has still to run stands on its kernel stack
  (`kstack p` for a process, `stack0 h` for the scheduler of a hart): a `swtch` changes
  only the stack that the hart runs on. An operation of the program replaces itself by the
  code it goes on with; a loop keeps the slots it has still to visit.

  What the rest of the kernel does is `body`: it takes and releases other locks, sleeps on
  addresses that are not processes, wakes what sleeps there, and makes the calls modelled
  here, in any order. An interrupt comes whenever the hart holds no spin lock; the source
  also turns interrupts off at some such points. A panic stops its thread for good.

  Left out: the process's memory, files and name (`ok` says whether an allocation or a
  `copyout` succeeds); the locks of the file system and of the allocator, which `kfork`
  takes and releases while it holds `np->lock`.
-/

import Xv6.Sched.Mlfq
import Xv6.Lib.Locks

namespace Xv6.Smp

open Lib
open Sched (Slot Proc Chan freeproc incr charge)

inductive Lock where
  | proc (p : Slot)
  | wait
  | pid
  | other (a : Nat)
  deriving DecidableEq, Repr

inductive Op where
  | panic
  /-- The scan of one lane, the test in it, `swtch(&c->context, &p->context)` and the return from it. -/
  | scheduler (priority : Int) (todo : List Slot)
  | dispatch (p : Slot) (priority : Int) (todo : List Slot)
  | swtch (p : Slot)
  | switched (p : Slot)
  | sched
  | yield
  /-- `p->state = RUNNABLE` in `yield`. -/
  | giveUp (p : Slot)
  | charge
  | sleep (c : Chan) (l : Lock)
  /-- `p->chan = chan; p->state = SLEEPING` in `sleep`, and `p->chan = 0` after it. -/
  | doze (p : Slot) (c : Chan)
  | tidy (p : Slot)
  /-- The loop of `wakeup`, and its body for one slot, whose lock is held. -/
  | wakeup (c : Option Chan) (todo : List Slot)
  | wake (c : Option Chan) (q : Slot) (todo : List Slot)
  /-- The loop of `allocproc` for `kfork`, its test, and the code after `found`. -/
  | allocproc (todo : List Slot)
  | allocTest (q : Slot) (todo : List Slot)
  | allocpid (q : Slot)
  | allocMem (q : Slot)
  /-- `kfork` after `allocproc`: up to `np->parent = p`, and up to its end. -/
  | forkCopy (q : Slot)
  | setParent (q : Slot)
  | forkEnd (q : Slot)
  | kexit (status : Int)
  | reparent (status : Int) (todo : List Slot)
  /-- `kexit` after its `wakeup(p->parent)`. -/
  | exitLast (status : Int)
  | die (p : Slot) (status : Int)
  | zombieExit (p : Slot)
  /-- The loop of `kwait`, its body for a child, whose lock is held, and `killed(p)`. -/
  | kwaitScan (havekids : Bool) (todo : List Slot)
  | kwaitTest (q : Slot) (todo : List Slot)
  | kwaitKilled (p : Slot)
  /-- `return pid`. -/
  | kwaitRet (pid : Int)
  | kkill (pid : Int) (todo : List Slot)
  | killTest (pid : Int) (q : Slot) (todo : List Slot)
  | setkilled (p : Slot)
  /-- `if (killed(p)) kexit(-1)` in `usertrap`. -/
  | killedTest (p : Slot)
  /-- The rest of the kernel, with the locks it holds; inside `kexit(status)` this is the closing of the files. -/
  | body (locks : List Nat) (status : Option Int)
  deriving DecidableEq, Repr

/-- The locks that an operation, or what it turns into, releases. -/
def Op.holds : Op → List Lock
  | .dispatch p _ _ | .switched p | .zombieExit p | .killedTest p | .giveUp p | .doze p _ |
    .tidy p | .setkilled p => [.proc p]
  | .wake _ q _ | .allocTest q _ | .allocMem q | .forkCopy q | .forkEnd q | .killTest _ q _ => [.proc q]
  | .allocpid q => [.pid, .proc q]
  | .setParent _ | .reparent _ _ | .exitLast _ | .kwaitScan _ _ => [.wait]
  | .die p _ => [.wait, .proc p]
  | .kwaitTest q _ => [.proc q, .wait]
  | .kwaitKilled p => [.proc p, .wait]
  | .body locks _ => locks.map .other
  | _ => []

abbrev Code := List (Lib.Code Lock Op)

def all : List Slot := List.finRange NPROC

structure Cpu where
  /-- `c->proc`. -/
  proc : Option Slot
  noff : Nat
  /-- The process on whose kernel stack the hart runs; `none` is the scheduler's own. -/
  on : Option Slot
  deriving DecidableEq, Repr

inductive Event where
  | born (p : Slot) (pid : Int)
  /-- A fork that failed gives its slot back. -/
  | undone (p : Slot)
  | exited (p : Slot) (pid : Int) (status : Int)
  | reaped (parent p : Slot) (pid : Int) (status : Int)
  /-- `kwait` returns `pid`. -/
  | returned (parent : Slot) (pid : Int)
  deriving DecidableEq, Repr

structure St (H : Type) where
  proc : Slot → Proc
  kstack : Slot → Code
  stack0 : H → Code
  cpu : H → Cpu
  /-- `lk->cpu`, if the lock is locked. -/
  lock : Lock → Option H
  nextpid : Int
  initproc : Slot
  hist : List Event

variable {H : Type} [DecidableEq H]

def St.code (s : St H) (h : H) : Code :=
  match (s.cpu h).on with
  | some p => s.kstack p
  | none => s.stack0 h

def St.goto (s : St H) (h : H) (k : Code) : St H :=
  match (s.cpu h).on with
  | some p => { s with kstack := upd s.kstack p k }
  | none => { s with stack0 := upd s.stack0 h k }

/-- The code stops; what it was about to do stays on the stack. -/
def St.panic (s : St H) (h : H) : St H := s.goto h (.op .panic :: s.code h)

/-! ## Locks -/

def acquire (s : St H) (h : H) (l : Lock) (k : Code) : St H :=
  match s.lock l with
  | none =>
    { s with lock := upd s.lock l (some h), cpu := upd s.cpu h { s.cpu h with noff := (s.cpu h).noff + 1 } }.goto h k
  | some h' => if h' = h then s.panic h else s

def release (s : St H) (h : H) (l : Lock) (k : Code) : St H :=
  if s.lock l = some h then
    if (s.cpu h).noff < 1 then s.panic h
    else { s with lock := upd s.lock l none, cpu := upd s.cpu h { s.cpu h with noff := (s.cpu h).noff - 1 } }.goto h k
  else s.panic h

/-! ## swtch -/

/-- `sched`, up to its return in another turn of the process. -/
def sched (s : St H) (h : H) (k : Code) : St H :=
  match (s.cpu h).proc with
  | none => s.panic h
  | some p =>
    if s.lock (.proc p) ≠ some h ∨ (s.cpu h).noff ≠ 1 ∨ (s.proc p).state = .running then s.panic h
    else { s.goto h k with cpu := upd s.cpu h { s.cpu h with on := none } }

/-- The scheduler's `swtch` to process `p`. -/
def swtch (s : St H) (h : H) (p : Slot) (k : Code) : St H :=
  { s.goto h k with cpu := upd s.cpu h { s.cpu h with on := some p } }

/-! ## The code of proc.c -/

/-- `forkret`, on the stack of a process that has not run yet. -/
def forkret (p : Slot) : Code := [.release (.proc p), .op (.body [] none)]

structure Eff where
  /-- The code it goes on with. -/
  code : Code
  /-- The process whose fields it writes. -/
  set : Option (Slot × Proc) := none
  /-- What it writes to `c->proc`. -/
  cproc : Option (Option Slot) := none
  /-- The process whose context it sets up to return to `forkret`. -/
  ctx : Option Slot := none
  /-- Whether it takes `nextpid`. -/
  pid : Bool := false
  note : Option Event := none

def Op.stop (i : Op) : Eff := { code := [.op .panic, .op i] }

variable (s : St H)

/-- An operation of process `p`, where `p = myproc()`. -/
def exec (p : Slot) (ok : Bool) : Op → Eff
  | .yield => { code := [.acquire (.proc p), .op (.giveUp p)] }
  | .giveUp p => { code := [.op .sched, .release (.proc p)], set := some (p, { s.proc p with state := .runnable }) }
  | .charge => { code := [], set := if (s.proc p).state = .running then some (p, charge (s.proc p)) else none }
  | .sleep c l => { code := [.acquire (.proc p), .release l, .op (.doze p c), .acquire l] }
  | .doze p c =>
    { code := [.op .sched, .op (.tidy p)], set := some (p, { s.proc p with chan := some c, state := .sleeping }) }
  | .tidy p => { code := [.release (.proc p)], set := some (p, { s.proc p with chan := none }) }
  -- kfork
  | .allocproc [] => { code := [] }
  | .allocproc (q :: todo) => { code := [.acquire (.proc q), .op (.allocTest q todo)] }
  | .allocTest q todo =>
    if (s.proc q).state = .unused then { code := [.acquire .pid, .op (.allocpid q)] }
    else { code := [.release (.proc q), .op (.allocproc todo)] }
  | .allocpid q =>
    { code := [.release .pid, .op (.allocMem q)], set := some (q, { s.proc q with pid := s.nextpid }), pid := true }
  | .allocMem q =>
    let v : Proc := { s.proc q with state := .used, priority := 0, ticksUsed := 0 }
    if ok then { code := [.op (.forkCopy q)], set := some (q, v), ctx := some q, note := some (.born q v.pid) }
    else { code := [.release (.proc q)], set := some (q, freeproc v) }
  | .forkCopy q =>
    if ok then { code := [.release (.proc q), .acquire .wait, .op (.setParent q)] }
    else { code := [.release (.proc q)], set := some (q, freeproc (s.proc q)), note := some (.undone q) }
  | .setParent q =>
    { code := [.release .wait, .acquire (.proc q), .op (.forkEnd q)]
      set := some (q, { s.proc q with parent := some p }) }
  | .forkEnd q => { code := [.release (.proc q)], set := some (q, { s.proc q with state := .runnable }) }
  -- kexit
  | .kexit status => if p = s.initproc then Op.stop (.kexit status) else { code := [.op (.body [] (some status))] }
  | .body [] (some status) => { code := [.acquire .wait, .op (.reparent status all)] }
  | .reparent status (q :: todo) =>
    if (s.proc q).parent = some p then
      { code := [.op (.wakeup (some (.proc s.initproc)) all), .op (.reparent status todo)]
        set := some (q, { s.proc q with parent := some s.initproc }) }
    else { code := [.op (.reparent status todo)] }
  | .reparent status [] =>
    { code := [.op (.wakeup ((s.proc p).parent.map .proc) all), .op (.exitLast status)] }
  | .exitLast status => { code := [.acquire (.proc p), .op (.die p status)] }
  | .die p status =>
    { code := [.release .wait, .op .sched, .op (.zombieExit p)]
      set := some (p, { s.proc p with xstate := status, state := .zombie })
      note := some (.exited p (s.proc p).pid status) }
  | .zombieExit p => Op.stop (.zombieExit p)
  -- kwait
  | .kwaitScan havekids (q :: todo) =>
    if (s.proc q).parent = some p then { code := [.acquire (.proc q), .op (.kwaitTest q todo)] }
    else { code := [.op (.kwaitScan havekids todo)] }
  | .kwaitTest q todo =>
    if (s.proc q).state = .zombie then
      if ok then
        { code := [.release (.proc q), .release .wait, .op (.kwaitRet (s.proc q).pid)]
          set := some (q, freeproc (s.proc q))
          note := some (.reaped p q (s.proc q).pid (s.proc q).xstate) }
      else { code := [.release (.proc q), .release .wait] }
    else { code := [.release (.proc q), .op (.kwaitScan true todo)] }
  | .kwaitScan havekids [] =>
    if havekids then { code := [.acquire (.proc p), .op (.kwaitKilled p)] } else { code := [.release .wait] }
  | .kwaitKilled p =>
    if (s.proc p).killed then { code := [.release (.proc p), .release .wait] }
    else { code := [.release (.proc p), .op (.sleep (.proc p) .wait), .op (.kwaitScan false all)] }
  | .kwaitRet pid => { code := [], note := some (.returned p pid) }
  -- kkill, setkilled, killed
  | .kkill _ [] => { code := [] }
  | .kkill pid (q :: todo) => { code := [.acquire (.proc q), .op (.killTest pid q todo)] }
  | .killTest pid q todo =>
    if (s.proc q).pid = pid then
      let v : Proc := { s.proc q with killed := true }
      { code := [.release (.proc q)]
        set := some (q, if v.state = .sleeping then { v with state := .runnable } else v) }
    else { code := [.release (.proc q), .op (.kkill pid todo)] }
  | .setkilled p => { code := [.release (.proc p)], set := some (p, { s.proc p with killed := true }) }
  | .killedTest p =>
    if (s.proc p).killed then { code := [.release (.proc p), .op (.kexit (-1))] } else { code := [.release (.proc p)] }
  -- the rest of the kernel moves by its calls, the others are in `effect` or above
  | i => { code := [.op i] }

/-- An operation where `me = myproc()`: the scheduler's, `wakeup`, and those of a process. -/
def effect (me : Option Slot) (ok : Bool) : Op → Eff
  | .panic => { code := [.op .panic] }
  | .scheduler priority [] => { code := [.op (.scheduler (if priority < 2 then priority + 1 else 0) all)] }
  | .scheduler priority (p :: todo) => { code := [.acquire (.proc p), .op (.dispatch p priority todo)] }
  | .dispatch p priority todo =>
    if (s.proc p).state = .runnable ∧ (s.proc p).priority = priority then
      { code := [.op (.swtch p), .op (.switched p)]
        set := some (p, { s.proc p with state := .running })
        cproc := some (some p) }
    else { code := [.release (.proc p), .op (.scheduler priority todo)] }
  | .switched p =>
    -- a process was found: the search restarts from priority 0
    { code := [.release (.proc p), .op (.scheduler 0 all)], cproc := some none }
  | .wakeup _ [] => { code := [] }
  | .wakeup c (q :: todo) =>
    if me = some q then { code := [.op (.wakeup c todo)] } else { code := [.acquire (.proc q), .op (.wake c q todo)] }
  | .wake c q todo =>
    { code := [.release (.proc q), .op (.wakeup c todo)]
      set := if (s.proc q).state = .sleeping ∧ (s.proc q).chan = c then some (q, { s.proc q with state := .runnable })
        else none }
  | i =>
    match me with
    | some p => exec s p ok i
    | none => i.stop

/-- The operation is done, and the thread goes on with its code and then `k`. -/
def St.apply (h : H) (e : Eff) (k : Code) : St H :=
  { s with
    proc := (match e.set with | some (q, v) => upd s.proc q v | none => s.proc)
    kstack := (match e.ctx with | some q => upd s.kstack q (forkret q) | none => s.kstack)
    cpu := (match e.cproc with | some c => upd s.cpu h { s.cpu h with proc := c } | none => s.cpu)
    nextpid := if e.pid then incr s.nextpid else s.nextpid
    hist := e.note.toList ++ s.hist }.goto h (e.code ++ k)

/-! ## Calls and interrupts -/

inductive Call where
  | acquire (a : Nat)
  | release (a : Nat)
  /-- `sleep(c, lk)`, `wakeup(c)` on something that is not a process; `sleep`'s callers hold `lk`. -/
  | sleep (c : Chan) (a : Nat)
  | wakeup (c : Chan)
  | yield
  /-- A timer interrupt in user mode: charge the process, then `yield`. -/
  | usertrap
  | kfork
  | kexit (status : Int)
  | kwait
  | kkill (pid : Int)
  | setkilled
  | killed
  deriving DecidableEq, Repr

def Chan.isProc : Chan → Bool
  | .proc _ => true
  | _ => false

/-- What the rest of the kernel, run by process `p` with `locks` held, goes on with when it makes a call; the code of
    `kexit` makes the first four only. -/
def call (p : Slot) (locks : List Nat) (status : Option Int) : Call → Code
  | .acquire a => [.acquire (.other a), .op (.body (a :: locks) status)]
  | .release a =>
    if a ∈ locks then [.release (.other a), .op (.body (locks.erase a) status)]
    else [.op .panic, .op (.body locks status)]
  | .sleep c a =>
    if Chan.isProc c = false ∧ a ∈ locks then [.op (.sleep c (.other a)), .op (.body locks status)]
    else [.op (.body locks status)]
  | .wakeup c =>
    if Chan.isProc c = false then [.op (.wakeup (some c) all), .op (.body locks status)] else [.op (.body locks status)]
  | c =>
    if status.isSome then [.op (.body locks status)]
    else
      let code : Code := match c with
        | .yield => [.op .yield]
        | .usertrap => [.op .charge, .op .yield]
        | .kfork => [.op (.allocproc all)]
        | .kexit st => [.op (.kexit st)]
        | .kwait => [.acquire .wait, .op (.kwaitScan false all)]
        | .kkill pid => [.op (.kkill pid all)]
        | .setkilled => [.acquire (.proc p), .op (.setkilled p)]
        | .killed => [.acquire (.proc p), .op (.killedTest p)]
        | _ => []
      code ++ [.op (.body locks status)]

/-- A device's interrupt handler: it wakes what waits for the device, under the device's lock. -/
def devintr (c : Chan) (a : Nat) : Code := [.acquire (.other a), .op (.wakeup (some c) all), .release (.other a)]

inductive Ev where
  /-- The hart goes on; `ok` says whether memory can be allocated, and copied to, where the code does so. -/
  | next (ok : Bool)
  | call (c : Call)
  /-- An interrupt of a device, and of the timer, with `clockintr`'s `wakeup(&ticks)` or without. -/
  | devintr (c : Chan) (a : Nat)
  | timer (clock : Bool) (tickslock : Nat)
  deriving DecidableEq, Repr

def step (e : H × Ev) : St H :=
  match e with
  | (h, .next ok) =>
    match s.code h with
    | [] => s
    | .acquire l :: k => acquire s h l k
    | .release l :: k => release s h l k
    | .op .sched :: k => sched s h k
    | .op (.swtch p) :: k => swtch s h p k
    | .op i :: k => s.apply h (effect s (s.cpu h).proc ok i) k
  | (h, .call c) =>
    match (s.cpu h).proc, s.code h with
    | some p, .op (.body locks status) :: k => s.goto h (call p locks status c ++ k)
    | _, _ => s
  | (h, .devintr c a) =>
    if (s.cpu h).noff = 0 ∧ Chan.isProc c = false then s.goto h (devintr c a ++ s.code h) else s
  | (h, .timer clock tickslock) =>
    if (s.cpu h).noff = 0 then
      s.goto h ((if clock then devintr .ticks tickslock else []) ++
        (if (s.cpu h).proc.isSome then [.op .yield] else []) ++
        s.code h)
    else s

/-- After `userinit`: the first process can run, and every hart enters `scheduler`. -/
def boot : St H :=
  { proc := Sched.boot.proc
    kstack := upd (fun _ => []) Sched.boot.initproc (forkret Sched.boot.initproc)
    stack0 := fun _ => [.op (.scheduler 0 all)]
    cpu := fun _ => ⟨none, 0, none⟩
    lock := fun _ => none
    nextpid := Sched.boot.nextpid
    initproc := Sched.boot.initproc
    hist := [.born Sched.boot.initproc (Sched.boot.proc Sched.boot.initproc).pid] }

end Xv6.Smp
