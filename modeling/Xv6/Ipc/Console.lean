/-
  Xv6.Ipc.Console — console input (`kernel/console.c`: `consoleread`, `consoleintr`), as a
  program under `cons.lock` (see `Xv6.Lib.Monitor`), and what it is for: a queue of committed
  characters and a line that is still edited (`line`).

  `consoleintr` is called for one input byte at a time. The parties are the processes that
  read and the harts whose interrupt handler calls `consoleintr`. `r`, `w` and `e` are the
  32-bit indices, which wrap. Whether `copyout` succeeds is the step's input.

  For the record, both hold what each `consoleread` returned; the queue also holds all that
  was ever committed and all that reads took out of it.

  Left out: the echo, and `procdump` for ^P.
-/

import Xv6.Lib.Signals
import Xv6.Lib.Fifo

namespace Xv6.Ipc.Console

open Lib

abbrev INPUT_BUF_SIZE : Nat := 128

theorem size_pos : 0 < INPUT_BUF_SIZE := Nat.zero_lt_succ 127

abbrev Char8 := BitVec 8

/-- `C(x)`. -/
def ctrl (x : Char) : Char8 := BitVec.ofNat 8 (x.toNat - 64)

def newline : Char8 := 10#8

def carriageReturn : Char8 := 13#8

def delete : Char8 := 127#8

structure Cons where
  buf : Fin INPUT_BUF_SIZE → Char8
  r : BitVec 32
  w : BitVec 32
  e : BitVec 32

/-- Why a `consoleread` returned. -/
inductive End where
  /-- It has `n` bytes. -/
  | count
  | newline
  | eof
  | killed
  | fault
  deriving DecidableEq, Repr

/-- What a `consoleread` of `n` bytes returned, and the bytes it copied out. -/
structure Ret where
  n : Int
  ret : Int
  got : List Char8
  why : End
  deriving DecidableEq, Repr

inductive Call where
  | consoleread (n : Int)
  | consoleintr (c : Char8)
  deriving DecidableEq, Repr

/-- Where a call stands; `got` are the bytes copied out so far. -/
inductive Loc where
  | read (target n : Int) (got : List Char8)
  /-- There is no input, and the process is not killed. -/
  | readSleep (target n : Int) (got : List Char8)
  | intr (c : Char8)
  | intrRet
  deriving DecidableEq, Repr

def start : Call → Loc
  | .consoleread n => .read n n []
  | .consoleintr c => .intr c

open Monitor (Act)

/-! ## console.c -/

structure Data where
  cons : Cons
  returns : List Ret

def Data.ret (d : Data) (r : Ret) : Data := { d with returns := d.returns ++ [r] }

def killLine : Nat → Cons → Cons
  | 0, s => s
  | k + 1, s =>
    if s.e ≠ s.w ∧ s.buf (Fifo.slot size_pos (s.e - 1#32)) ≠ newline then killLine k { s with e := s.e - 1#32 }
    else s

/-- `consoleintr`; the result says whether it calls `wakeup(&cons.r)`. -/
def consoleintr (s : Cons) (c : Char8) : Cons × Bool :=
  if c = ctrl 'P' then (s, false)
  -- `e` runs back to `w` at the latest
  else if c = ctrl 'U' then (killLine (s.e - s.w).toNat s, false)
  else if c = ctrl 'H' ∨ c = delete then
    if s.e ≠ s.w then ({ s with e := s.e - 1#32 }, false) else (s, false)
  else if c ≠ 0#8 ∧ (s.e - s.r).toNat < INPUT_BUF_SIZE then
    let c := if c = carriageReturn then newline else c
    let s := { s with buf := upd s.buf (Fifo.slot size_pos s.e) c, e := s.e + 1#32 }
    if c = newline ∨ c = ctrl 'D' ∨ (s.e - s.r).toNat = INPUT_BUF_SIZE then ({ s with w := s.e }, true)
    else (s, false)
  else (s, false)

/-- A step of a call; `ok` says whether `copyout` succeeds. -/
def step (killed : Bool) (d : Data) (l : Loc) (ok : Bool) : Data × Act Unit Loc :=
  match l with
  | .read target n got =>
    if 0 < n then
      if d.cons.r = d.cons.w then
        if killed then (d.ret ⟨target, -1, got, .killed⟩, .leave) else (d, .go (.readSleep target n got))
      else
        let c := d.cons.buf (Fifo.slot size_pos d.cons.r)
        let d' := { d with cons := { d.cons with r := d.cons.r + 1#32 } }
        if c = ctrl 'D' then
          let d' := if n < target then { d' with cons := { d'.cons with r := d'.cons.r - 1#32 } } else d'
          (d'.ret ⟨target, target - n, got, .eof⟩, .leave)
        else if ok = false then (d'.ret ⟨target, target - n, got, .fault⟩, .leave)
        else if c = newline then (d'.ret ⟨target, target - (n - 1), got ++ [c], .newline⟩, .leave)
        else (d', .go (.read target (n - 1) (got ++ [c])))
    else (d.ret ⟨target, target - n, got, .count⟩, .leave)
  | .readSleep target n got => (d, .sleep () (.read target n got))
  | .intr c =>
    let d' := { d with cons := (consoleintr d.cons c).1 }
    if (consoleintr d.cons c).2 then (d', .wake () .intrRet) else (d', .go .intrRet)
  | .intrRet => (d, .leave)

/-- Any number of readers and interrupt handlers. -/
def console (P : Type) : Monitor.Prog P Unit Data Loc Call Bool Empty :=
  { start := fun _ => start
    step := fun _ => step
    env := fun d _ => d }

def init (buf : Fin INPUT_BUF_SIZE → Char8) : Data := ⟨⟨buf, 0#32, 0#32, 0#32⟩, []⟩

/-! ## What it is for -/

structure Line where
  committed : List Char8
  edit : List Char8
  /-- All that was ever committed, and all that was taken. -/
  log : List Char8
  taken : List Char8
  returns : List Ret

/-- A character is typed; the result says whether the line was committed. -/
def Line.type (s : Line) (c : Char8) : Line × Bool :=
  if c = ctrl 'P' then (s, false)
  else if c = ctrl 'U' then ({ s with edit := [] }, false)
  else if c = ctrl 'H' ∨ c = delete then ({ s with edit := s.edit.dropLast }, false)
  -- NUL is dropped, and what does not fit
  else if c ≠ 0#8 ∧ s.committed.length + s.edit.length < INPUT_BUF_SIZE then
    let c := if c = carriageReturn then newline else c
    let edit := s.edit ++ [c]
    if c = newline ∨ c = ctrl 'D' ∨ s.committed.length + edit.length = INPUT_BUF_SIZE then
      ({ s with committed := s.committed ++ edit, edit := [], log := s.log ++ edit }, true)
    else ({ s with edit := edit }, false)
  else (s, false)

def Line.ret (s : Line) (r : Ret) : Line := { s with returns := s.returns ++ [r] }

/-- The first committed character is taken. -/
def Line.take (s : Line) (c : Char8) (rest : List Char8) : Line := { s with committed := rest, taken := s.taken ++ [c] }

/-- A read takes characters one by one. It ends after `n`, after a newline, and at a ^D, which
    it takes only if it has nothing else. -/
def Line.step (killed : Bool) (s : Line) (l : Loc) (ok : Bool) : Line × Act Unit Loc :=
  match l with
  | .read target n got =>
    if 0 < n then
      match s.committed with
      | [] => if killed then (s.ret ⟨target, -1, got, .killed⟩, .leave) else (s, .go (.readSleep target n got))
      | c :: rest =>
        if c = ctrl 'D' then
          if n < target then (s.ret ⟨target, target - n, got, .eof⟩, .leave)
          else ((s.take c rest).ret ⟨target, target - n, got, .eof⟩, .leave)
        else if ok = false then ((s.take c rest).ret ⟨target, target - n, got, .fault⟩, .leave)
        else if c = newline then ((s.take c rest).ret ⟨target, target - (n - 1), got ++ [c], .newline⟩, .leave)
        else (s.take c rest, .go (.read target (n - 1) (got ++ [c])))
    else (s.ret ⟨target, target - n, got, .count⟩, .leave)
  | .readSleep target n got => (s, .sleep () (.read target n got))
  | .intr c => if (s.type c).2 then ((s.type c).1, .wake () .intrRet) else ((s.type c).1, .go .intrRet)
  | .intrRet => (s, .leave)

def line (P : Type) : Monitor.Prog P Unit Line Loc Call Bool Empty :=
  { start := fun _ => start
    step := fun _ => Line.step
    env := fun s _ => s }

def Line.init : Line := ⟨[], [], [], [], []⟩

end Xv6.Ipc.Console
