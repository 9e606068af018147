/-
  Xv6.Ipc.Pipe — pipes (`kernel/pipe.c`: `pipewrite`, `piperead`, `pipeclose`), as a
  program under `pi->lock` (see `Xv6.Lib.Monitor`).

  A step is one turn of a loop, or a part of one between two critical sections of other
  locks: `killed(pr)` takes `pr->lock`, and so does `sleep`, and `wakeup` takes the lock of
  every process. `nread` and `nwrite` are the 32-bit counters, which wrap. What `copyin`
  reads, and whether it or `copyout` succeeds, is the step's input.

  For the record the data also holds the bytes that writers put in and readers took out,
  in order, and what each call returned.

  Left out: the return of the pipe's memory by the last `pipeclose`; no call is made on a
  pipe after it, since `fileclose` makes it when no file refers to the pipe.
-/

import Xv6.Lib.Signals
import Xv6.Lib.Fifo

namespace Xv6.Ipc.Pipe

open Lib

abbrev PIPESIZE : Nat := 512

theorem pipesize_pos : 0 < PIPESIZE := Nat.zero_lt_succ 511

structure Pipe where
  data : Fin PIPESIZE → BitVec 8
  nread : BitVec 32
  nwrite : BitVec 32
  readopen : Bool
  writeopen : Bool

inductive Ret where
  | write (n ret : Int)
  /-- With the number of bytes that the call took out of the pipe, and the state of the pipe at its return. -/
  | read (n ret : Int) (removed : Nat) (empty writeopen : Bool)
  deriving DecidableEq, Repr

structure Data where
  pipe : Pipe
  accepted : List (BitVec 8)
  delivered : List (BitVec 8)
  returns : List Ret

/-- `&pi->nread` and `&pi->nwrite`. -/
inductive Chan where
  | nread
  | nwrite
  deriving DecidableEq, Repr

inductive Call where
  | pipewrite (n : Int)
  | piperead (n : Int)
  | pipeclose (writable : Bool)
  deriving DecidableEq, Repr

inductive Loc where
  /-- `pipewrite` at the head of its loop; `i₀` is `i` when it last took `pi->lock`. -/
  | write (n : Int) (i i₀ : Nat)
  /-- It has found the pipe open for reading, and its process not killed. -/
  | writeTested (n : Int) (i i₀ : Nat)
  /-- The pipe is full, and readers have been woken. -/
  | writeSleep (n : Int) (i : Nat)
  | writeRet (n : Int) (i : Nat)
  /-- `piperead` at the head of its first loop. -/
  | read (n : Int)
  /-- The pipe is empty, and its process not killed. -/
  | readSleep (n : Int)
  /-- The second loop; `start` counts the bytes that left the pipe before it. -/
  | readCopy (n : Int) (i start : Nat)
  | readRet (n ret : Int) (start : Nat)
  | close (writable : Bool)
  | closed
  deriving DecidableEq, Repr

def Pipe.empty (pi : Pipe) : Prop := pi.nread = pi.nwrite

/-- The test of `pipewrite` for a full pipe. -/
def Pipe.full (pi : Pipe) : Prop := pi.nwrite = pi.nread + BitVec.ofNat 32 PIPESIZE

instance (pi : Pipe) : Decidable pi.empty := inferInstanceAs (Decidable (_ = _))

instance (pi : Pipe) : Decidable pi.full := inferInstanceAs (Decidable (_ = _))

/-- `pi->data[pi->nwrite++ % PIPESIZE] = ch`. -/
def Data.put (d : Data) (ch : BitVec 8) : Data :=
  { d with
    pipe := { d.pipe with
      data := upd d.pipe.data (Fifo.slot pipesize_pos d.pipe.nwrite) ch
      nwrite := d.pipe.nwrite + 1#32 }
    accepted := d.accepted ++ [ch] }

/-- `ch = pi->data[pi->nread % PIPESIZE]` copied out, and `pi->nread++`. -/
def Data.take (d : Data) : Data :=
  { d with
    pipe := { d.pipe with nread := d.pipe.nread + 1#32 }
    delivered := d.delivered ++ [d.pipe.data (Fifo.slot pipesize_pos d.pipe.nread)] }

def Data.ret (d : Data) (r : Ret) : Data := { d with returns := d.returns ++ [r] }

def readReturn (d : Data) (n ret : Int) (start : Nat) : Ret :=
  .read n ret (d.delivered.length - start) d.pipe.empty d.pipe.writeopen

open Monitor (Act)

/-- A step of a call; `copy` is what `copyin` reads, or that a copy fails. -/
def step (killed : Bool) (d : Data) (l : Loc) (copy : Option (BitVec 8)) : Data × Act Chan Loc :=
  match l with
  | .write n i i₀ =>
    if (i : Int) < n then
      if d.pipe.readopen = false ∨ killed then (d.ret (.write n (-1)), .leave)
      else (d, .go (.writeTested n i i₀))
    else (d, .wake .nread (.writeRet n i))
  | .writeTested n i i₀ =>
    if d.pipe.full then (d, .wake .nread (.writeSleep n i))
    else
      match copy with
      | none => (d, .wake .nread (.writeRet n i))
      | some ch => (d.put ch, .go (.write n (i + 1) i₀))
  | .writeSleep n i => (d, .sleep .nwrite (.write n i i))
  | .writeRet n i => (d.ret (.write n i), .leave)
  | .read n =>
    if d.pipe.empty ∧ d.pipe.writeopen then
      if killed then (d.ret (readReturn d n (-1) d.delivered.length), .leave) else (d, .go (.readSleep n))
    else (d, .go (.readCopy n 0 d.delivered.length))
  | .readSleep n => (d, .sleep .nread (.read n))
  | .readCopy n i start =>
    if (i : Int) < n then
      if d.pipe.empty then (d, .wake .nwrite (.readRet n i start))
      else
        match copy with
        | none => (d, .wake .nwrite (.readRet n (if i = 0 then -1 else i) start))
        | some _ => (d.take, .go (.readCopy n (i + 1) start))
    else (d, .wake .nwrite (.readRet n i start))
  | .readRet n ret start => (d.ret (readReturn d n ret start), .leave)
  | .close writable =>
    if writable then ({ d with pipe := { d.pipe with writeopen := false } }, .wake .nread .closed)
    else ({ d with pipe := { d.pipe with readopen := false } }, .wake .nwrite .closed)
  | .closed => (d, .leave)

def start : Call → Loc
  | .pipewrite n => .write n 0 0
  | .piperead n => .read n
  | .pipeclose writable => .close writable

/-- Any number of processes that use one pipe. -/
def pipe (P : Type) : Monitor.Prog P Chan Data Loc Call (Option (BitVec 8)) Empty :=
  { start := fun _ => start
    step := fun _ => step
    env := fun d _ => d }

/-- `pipealloc`; the buffer holds what the page held. -/
def pipealloc (data : Fin PIPESIZE → BitVec 8) : Data := ⟨⟨data, 0#32, 0#32, true, true⟩, [], [], []⟩

end Xv6.Ipc.Pipe
