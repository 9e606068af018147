/-
  Xv6.Log.Commit — the on-disk redo log (`kernel/log.c`): the header block, and the
  single-block disk writes that `commit` and `recover_from_log` make, in order.

  The log region is the header block `log.start` and the LOGBLOCKS blocks after it; a
  home block is any other. A transaction in memory is `log.lh.block[0..n)` and what the
  buffer cache holds for those blocks. Every `bwrite` writes one whole block and the
  writes reach the disk in order, so a crash leaves a prefix of them on it. Reads of the
  log's own blocks go through the cache, which holds what was last written to them
  (`Xv6.Bio`): here they read the disk.

  In the header, `n` and the block numbers are 32-bit, little-endian, at byte offsets 0
  and 4 + 4 * i; `write_head` leaves the entries at and past `n` as they were. A header
  with more than LOGBLOCKS entries overruns `log.lh.block` in `read_head`; none is ever
  written.
-/

import Xv6.Param
import Xv6.Lib.Bytes
import Xv6.Lib.Writes

namespace Xv6

abbrev Block := Lib.Bytes BSIZE

abbrev Disk := Nat → Block

namespace Log

open Lib

/-! ## The header block -/

/-- The value of a 32-bit word read as a C `int`. -/
def toInt32 (v : Nat) : Int := Int.bmod v (4294967296)

/-- `hb->block[i] = log.lh.block[i]` for each entry from index `i` on. -/
def putEntries (b : Block) : Nat → List Nat → Block
  | _, [] => b
  | i, x :: xs => putEntries (b.putLE (4 + 4 * i) 4 x) (i + 1) xs

/-- The header buffer `b` after `write_head` filled it in from `log.lh`. -/
def putHead (b : Block) (lh : List Nat) : Block := putEntries (b.putLE 0 4 lh.length) 0 lh

/-- `read_head`: `log.lh` as the header block `b` has it. -/
def readHead (b : Block) : List Nat :=
  (List.range (toInt32 (b.getLE 0 4)).toNat).map fun i => b.getLE (4 + 4 * i) 4

/-! ## The writes -/

variable (start : Nat)

/-- `write_log` from `tail` on: the cached contents of each block go to the log. -/
def writeLog (cache : Nat → Block) : Nat → List Nat → List (Nat × Block)
  | _, [] => []
  | tail, b :: bs => (start + tail + 1, cache b) :: writeLog cache (tail + 1) bs

/-- `write_head`: the header buffer, filled in and written. -/
def writeHead (lh : List Nat) (d : Disk) : List (Nat × Block) := [(start, putHead (d start) lh)]

/-- `install_trans` from `tail` on: each log block goes to its home location. -/
def installTrans : Nat → List Nat → Disk → List (Nat × Block)
  | _, [], _ => []
  | tail, b :: bs, d => (b, d (start + tail + 1)) :: installTrans (tail + 1) bs (upd d b (d (start + tail + 1)))

/-- The writes of two stages of a run, the second started from the disk the first leaves. -/
def andThen (f g : Disk → List (Nat × Block)) (d : Disk) : List (Nat × Block) := f d ++ g (putAll (f d) d)

def commit (lh : List Nat) (cache : Nat → Block) (d : Disk) : List (Nat × Block) :=
  if lh.length > 0 then
    andThen (fun _ => writeLog start cache 0 lh)                -- the modified blocks, to the log
      (andThen (writeHead start lh)                             -- the real commit
        (andThen (installTrans start 0 lh)                      -- to the home locations
          (writeHead start []))) d                              -- erase the transaction
  else []

def recoverFromLog (d : Disk) : List (Nat × Block) :=
  andThen (installTrans start 0 (readHead (d start))) (writeHead start []) d

/-! ## Crashes -/

/-- The disk after a run of `recover_from_log` that crashed after `k` of its writes. -/
def recoverCrash (d : Disk) (k : Nat) : Disk := putAll ((recoverFromLog start d).take k) d

/-- The disk after a run of `recover_from_log` that completed. -/
def recovered (d : Disk) : Disk := putAll (recoverFromLog start d) d

/-- The disk after a crash in `commit` past `k` of its writes, the recoveries that
    crashed past `ks` of theirs, and the first one that completed. -/
def crashed (lh : List Nat) (cache : Nat → Block) (d : Disk) (k : Nat) (ks : List Nat) : Disk :=
  recovered start (ks.foldl (recoverCrash start) (putAll ((commit start lh cache d).take k) d))

/-- The first `write_head` of `commit` is among its first `k` writes. -/
def HeadReached (lh : List Nat) (cache : Nat → Block) (d : Disk) (k : Nat) : Prop :=
  ∃ w ∈ (commit start lh cache d).take k, w.1 = start

def Home (b : Nat) : Prop := b < start ∨ start + LOGBLOCKS < b

instance (b : Nat) : Decidable (Home start b) := inferInstanceAs (Decidable (_ ∨ _))

/-- A transaction in memory, `log.lh.block[0..n)`: it fits the log and names 32-bit home
    blocks. -/
structure Txn where
  block : List Nat
  fits : block.length ≤ LOGBLOCKS
  home : ∀ b ∈ block, Home start b
  wide : ∀ b ∈ block, b < 4294967296

/-- The log is empty on disk: no transaction waits to be installed. -/
def Clean (d : Disk) : Prop := readHead (d start) = []

/-- The home blocks with the whole transaction applied. -/
def applied (lh : List Nat) (cache : Nat → Block) (d : Disk) : Disk := fun b => if b ∈ lh then cache b else d b

/-- Two disks hold the same home blocks. -/
def HomeEq (d e : Disk) : Prop := ∀ b, Home start b → d b = e b

end Log

end Xv6
