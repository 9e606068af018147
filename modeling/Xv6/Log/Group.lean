/-
  Xv6.Log.Group — group commit (`kernel/log.c`: `begin_op`, `log_write`, `end_op`,
  `commit`; `kernel/proc.c`: `sleep`, `wakeup`, `kkill` as they act on `&log`).

  Any number of processes. Each critical section under `log.lock` is one step: a pass of
  `begin_op`'s loop (admitted, or asleep on `&log`), `log_write`, `end_op`'s first
  section (the operation is over; the last one sets `committing` and goes on to `commit`,
  any other wakes the sleepers) and its second (`committing` cleared, sleepers woken).
  `commit` runs between these two without the lock, one step per block it writes. A
  `kkill` may wake a sleeper at any time; it then runs `begin_op`'s loop again. A process
  calls `log_write` and `end_op` only inside its own operation. After a panic nothing
  moves.

  Ghost state: each operation has an id and the blocks it has `log_write`n; `done` holds
  the operations that ended since the last commit, `cur` the home blocks the running
  commit has written, `hist` what each finished commit wrote and for which operations.
-/

import Xv6.Param
import Xv6.Lib.Run
import Xv6.Lib.Count

namespace Xv6.Log

open Lib

/-! ## The critical sections -/

inductive Panic where
  | logCommitting
  | tooBig
  | outsideTrans
  deriving DecidableEq, Repr

def Panic.msg : Panic → String
  | .logCommitting => "log.committing"
  | .tooBig => "too big a transaction"
  | .outsideTrans => "log_write outside of trans"

/-- `struct log`, without its place on disk. -/
structure LogSt where
  outstanding : Int
  committing : Bool
  /-- `log.lh.block[0..n)`. -/
  lh : List Nat
  deriving DecidableEq, Repr

/-- One pass of `begin_op`'s loop: admitted, or `none` to sleep on `&log`. -/
def beginOp (l : LogSt) : Option LogSt :=
  if l.committing then none
  else if l.lh.length + (l.outstanding + 1) * MAXOPBLOCKS > LOGBLOCKS then none
  else some { l with outstanding := l.outstanding + 1 }

/-- `log_write`. A block already in the header is absorbed; the test for a full header
    comes first. -/
def logWrite (l : LogSt) (b : Nat) : Except Panic LogSt :=
  if l.lh.length ≥ LOGBLOCKS then .error .tooBig
  else if l.outstanding < 1 then .error .outsideTrans
  else if b ∈ l.lh then .ok l
  else .ok { l with lh := l.lh ++ [b] }

/-- `end_op`'s first section, with `do_commit`. -/
def endOp (l : LogSt) : Except Panic (LogSt × Bool) :=
  let l := { l with outstanding := l.outstanding - 1 }
  if l.committing then .error .logCommitting
  else if l.outstanding = 0 then .ok ({ l with committing := true }, true)
  else .ok (l, false)

/-! ## The machine -/

namespace Group

/-- Where `commit` is. -/
inductive Pc where
  | start
  | writeLog (tail : Nat)
  | writeHead
  | install (tail : Nat)
  | clear
  | eraseHead
  | fin
  deriving DecidableEq, Repr

inductive PSt where
  | idle
  /-- In `begin_op`, runnable, about to take `log.lock` again. -/
  | woken
  /-- In `begin_op`, SLEEPING on `&log`. -/
  | asleep
  /-- In operation `o`, which has logged `ws`. -/
  | inOp (o : Nat) (ws : List Nat)
  | commit (pc : Pc)
  deriving DecidableEq, Repr

abbrev Op := Nat × List Nat

structure Commit where
  ops : List Op
  blocks : List Nat
  deriving DecidableEq, Repr

structure St (P : Type) where
  log : LogSt
  proc : P → PSt
  nextOp : Nat
  done : List Op
  cur : List Nat
  hist : List Commit
  panic : Option Panic

variable {P : Type}

def init : St P := ⟨⟨0, false, []⟩, fun _ => .idle, 0, [], [], [], none⟩

inductive Ev (P : Type) where
  | beginOp (p : P)
  | kkill (p : P)
  | logWrite (p : P) (b : Nat)
  | endOp (p : P)
  | commit (p : P)
  deriving DecidableEq, Repr

/-- `wakeup(&log)`. -/
def wakeup (proc : P → PSt) : P → PSt := fun p => if proc p = .asleep then .woken else proc p

variable [DecidableEq P]

def setProc (s : St P) (p : P) (st : PSt) : St P := { s with proc := upd s.proc p st }

def tryBegin (s : St P) (p : P) : St P :=
  match beginOp s.log with
  | some l => setProc { s with log := l, nextOp := s.nextOp + 1 } p (.inOp s.nextOp [])
  | none => setProc s p .asleep

/-- One step of `commit`, and `end_op`'s second section after it. -/
def commitStep (s : St P) (p : P) : Pc → St P
  | .start => setProc s p (.commit (if s.log.lh.length > 0 then .writeLog 0 else .fin))
  | .writeLog tail => setProc s p (.commit (if tail < s.log.lh.length then .writeLog (tail + 1) else .writeHead))
  | .writeHead => setProc s p (.commit (.install 0))
  | .install tail =>
    match s.log.lh[tail]? with
    | some b => setProc { s with cur := s.cur ++ [b] } p (.commit (.install (tail + 1)))
    | none => setProc s p (.commit .clear)
  | .clear => setProc { s with log := { s.log with lh := [] } } p (.commit .eraseHead)
  | .eraseHead => setProc s p (.commit .fin)
  | .fin =>
    { s with log := { s.log with committing := false }, proc := wakeup (upd s.proc p .idle),
             hist := s.hist ++ [⟨s.done, s.cur⟩], done := [], cur := [] }

def raw (s : St P) : Ev P → St P
  | .beginOp p =>
    match s.proc p with
    | .idle => tryBegin s p
    | .woken => tryBegin s p
    | _ => s
  | .kkill p => if s.proc p = .asleep then setProc s p .woken else s
  | .logWrite p b =>
    match s.proc p with
    | .inOp o ws =>
      match logWrite s.log b with
      | .ok l => setProc { s with log := l } p (.inOp o (ws ++ [b]))
      | .error e => { s with panic := some e }
    | _ => s
  | .endOp p =>
    match s.proc p with
    | .inOp o ws =>
      match endOp s.log with
      | .ok (l, true) => setProc { s with log := l, done := s.done ++ [(o, ws)] } p (.commit .start)
      | .ok (l, false) => { s with log := l, done := s.done ++ [(o, ws)], proc := wakeup (upd s.proc p .idle) }
      | .error e => { s with panic := some e }
    | _ => s
  | .commit p =>
    match s.proc p with
    | .commit pc => commitStep s p pc
    | _ => s

def step (s : St P) (e : Ev P) : St P := if s.panic.isSome then s else raw s e

end Group

end Xv6.Log
