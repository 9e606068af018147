/-
  Xv6.Bio.Cache — the buffer cache under the log (`kernel/bio.c`; `kernel/log.c`:
  `log_write`, `write_log`, `write_head`, `install_trans`, `commit`).

  Any number of processes. Each critical section under `bcache.lock` is one step, so every
  state here is one in which that lock is free. `bread` is three steps (`bget`'s section,
  `acquiresleep`, the read from disk), `brelse` two (`releasesleep`, then `refcnt--`), and
  `log_write` of a new block two (`bpin`, then `log.lh.n++`), between which `log.lock` stays
  held (`pinning`). The process whose `end_op` found no operation left runs `commit`, one
  step per call it makes. The disk takes whole blocks; `virtio_disk_rw` looks at `blockno`
  only, and every caller passes ROOTDEV.

  How the rest of the kernel uses the cache: it reads and changes home blocks only, changes
  a buffer only between `bread` and `brelse`, calls `log_write` after a change and before
  `brelse`, and never calls `bread` for a block it holds already (it would wait for itself).
  A process is otherwise free in what it does when; that it calls `log_write` only inside
  an operation is not needed, since `log_write` checks `log.outstanding`.

  Ghost state: `use` says for each process and buffer where it is between `bget` and the
  end of `brelse`, with the block it asked for; `hist` holds every block that was logged,
  with its contents; `unpinned` counts the `bunpin`s of the running `install_trans`.
-/

import Xv6.Lib.Ring
import Xv6.Log.Commit
import Xv6.Log.Group

namespace Xv6.Bio

open Lib Log

abbrev Idx := Fin NBUF

/-- `struct buf`, without its place in the list and its lock. -/
structure Buf where
  valid : Bool
  dev : Nat
  blockno : Nat
  refcnt : Int
  data : Block

inductive Use where
  | idle
  /-- In `bget`'s `acquiresleep`, for block `b`. -/
  | waiting (b : Nat)
  /-- The lock is taken, `bread` has not returned. -/
  | locked (b : Nat)
  /-- `bread(b)` returned; `dirty` once changed, until `log_write` (or `bwrite`). -/
  | holding (b : Nat) (dirty : Bool)
  /-- In `brelse`, after `releasesleep`. -/
  | releasing (b : Nat)
  deriving DecidableEq, Repr

inductive Panic where
  | noBuffers
  | brelse
  | log (p : Log.Panic)
  deriving DecidableEq, Repr

def Panic.msg : Panic → String
  | .noBuffers => "bget: no buffers"
  | .brelse => "brelse"
  | .log p => p.msg

/-! ## Where `commit` is -/

/-- The part of `commit` that runs, with its loop's `tail`. -/
inductive Phase where
  | writeLog (tail : Nat)
  | writeHead
  | install (tail : Nat)
  | eraseHead
  deriving DecidableEq, Repr

/-- Its two buffers: the log's own (`to`, `lbuf`, `buf`) and the home block's (`from`,
    `dbuf`). -/
inductive Reg where
  | log
  | home
  deriving DecidableEq, Repr

inductive Micro where
  | test
  | bget (r : Reg)
  | acquiresleep (r : Reg)
  | fill (r : Reg)
  | copy
  | bwrite
  | bunpin
  | releasesleep (r : Reg)
  | unref (r : Reg)
  deriving DecidableEq, Repr

inductive Pc where
  | start
  | body (ph : Phase) (m : Micro)
  | clear
  | fin
  deriving DecidableEq, Repr

structure Committer (P : Type) where
  p : P
  pc : Pc
  lbuf : Idx
  dbuf : Idx

def Committer.reg {P : Type} (c : Committer P) : Reg → Idx
  | .log => c.lbuf
  | .home => c.dbuf

def Committer.setReg {P : Type} (c : Committer P) (i : Idx) : Reg → Committer P
  | .log => { c with lbuf := i }
  | .home => { c with dbuf := i }

structure St (P : Type) where
  buf : Idx → Buf
  ring : Links Idx
  /-- The holder of each buffer's sleep-lock. -/
  lock : Idx → Option P
  disk : Disk
  log : LogSt
  /-- `log_write` between `bpin` and `log.lh.n++`, with `log.lock` held. -/
  pinning : Option (P × Idx)
  commit : Option (Committer P)
  use : P → Idx → Use
  unpinned : Nat
  hist : List (Nat × Block)
  panic : Option Panic

variable {P : Type} [DecidableEq P]

def setUse (s : St P) (p : P) (i : Idx) (u : Use) : St P := { s with use := upd s.use p (upd (s.use p) i u) }

def setBuf (s : St P) (i : Idx) (b : Buf) : St P := { s with buf := upd s.buf i b }

/-! ## bio.c -/

/-- `binit`'s loop over the buffers. -/
def binit : Links Idx := (List.finRange NBUF).foldl (fun r i => r.pushFront i) .empty

/-- The order of `bget`'s first loop: `b = head.next; b != &head; b = b->next`. -/
def recent (s : St P) : List Idx := Links.walk s.ring.next NBUF (s.ring.next none)

/-- The order of its second loop: `b = head.prev; b != &head; b = b->prev`. -/
def oldest (s : St P) : List Idx := Links.walk s.ring.prev NBUF (s.ring.prev none)

/-- `bget` under `bcache.lock`: the block's buffer, or the least recently used free one. -/
def bget (s : St P) (dev blockno : Nat) : Except Panic (Idx × St P) :=
  match (recent s).find? fun i => (s.buf i).dev = dev ∧ (s.buf i).blockno = blockno with
  | some i => .ok (i, setBuf s i { s.buf i with refcnt := (s.buf i).refcnt + 1 })
  | none =>
    match (oldest s).find? fun i => (s.buf i).refcnt = 0 with
    | some i => .ok (i, setBuf s i { s.buf i with dev := dev, blockno := blockno, valid := false, refcnt := 1 })
    | none => .error .noBuffers

/-- `bread`'s part after `bget`. -/
def fill (s : St P) (i : Idx) : St P :=
  if (s.buf i).valid then s
  else setBuf s i { s.buf i with data := s.disk (s.buf i).blockno, valid := true }

def bwrite (s : St P) (i : Idx) : St P := { s with disk := upd s.disk (s.buf i).blockno (s.buf i).data }

/-- `brelse` under `bcache.lock`. -/
def unref (s : St P) (i : Idx) : St P :=
  let s := setBuf s i { s.buf i with refcnt := (s.buf i).refcnt - 1 }
  if (s.buf i).refcnt = 0 then { s with ring := (s.ring.unlink i).pushFront i } else s

def bpin (s : St P) (i : Idx) : St P := setBuf s i { s.buf i with refcnt := (s.buf i).refcnt + 1 }

def bunpin (s : St P) (i : Idx) : St P := setBuf s i { s.buf i with refcnt := (s.buf i).refcnt - 1 }

/-- `memmove` and the like: new contents for a locked buffer. -/
def setData (s : St P) (i : Idx) (d : Block) : St P := setBuf s i { s.buf i with data := d }

/-! ## The calls a process makes -/

def callBget (s : St P) (p : P) (b : Nat) : Except Panic (Option (Idx × St P)) :=
  match bget s ROOTDEV b with
  | .ok (i, t) => .ok (if s.use p i = .idle then some (i, setUse t p i (.waiting b)) else none)
  | .error e => .error e

/-- `acquiresleep`, once the lock is free. -/
def callAcquire (s : St P) (p : P) (i : Idx) : Option (St P) :=
  match s.use p i, s.lock i with
  | .waiting b, none => some (setUse { s with lock := upd s.lock i (some p) } p i (.locked b))
  | _, _ => none

def callFill (s : St P) (p : P) (i : Idx) : Option (St P) :=
  match s.use p i with
  | .locked b => some (setUse (fill s i) p i (.holding b false))
  | _ => none

/-- `releasesleep`, the first part of `brelse`. -/
def callRelease (s : St P) (p : P) (i : Idx) : Option (St P) :=
  match s.use p i with
  | .holding b false => some (setUse { s with lock := upd s.lock i none } p i (.releasing b))
  | _ => none

def callUnref (s : St P) (p : P) (i : Idx) : Option (St P) :=
  match s.use p i with
  | .releasing _ => some (setUse (unref s i) p i .idle)
  | _ => none

/-! ## commit -/

variable (start : Nat)

/-- The log's own block in each phase. -/
def Phase.block (start : Nat) : Phase → Nat
  | .writeLog tail => start + tail + 1
  | .install tail => start + tail + 1
  | .writeHead | .eraseHead => start

def Phase.tail : Phase → Nat
  | .writeLog tail => tail
  | .install tail => tail
  | .writeHead | .eraseHead => 0

/-- The block each of its buffers is for. -/
def blockOf (start : Nat) (lh : List Nat) (ph : Phase) : Reg → Nat
  | .log => ph.block start
  | .home => lh.getD ph.tail 0

/-- The order of the calls within a phase. -/
def Micro.next : Phase → Micro → Pc
  | ph, .test => .body ph (.bget .log)
  | ph, .bget r => .body ph (.acquiresleep r)
  | ph, .acquiresleep r => .body ph (.fill r)
  | .writeHead, .fill .log => .body .writeHead .copy
  | .eraseHead, .fill .log => .body .eraseHead .copy
  | ph, .fill .log => .body ph (.bget .home)
  | ph, .fill .home => .body ph .copy
  | ph, .copy => .body ph .bwrite
  | .writeLog tail, .bwrite => .body (.writeLog tail) (.releasesleep .home)
  | .install tail, .bwrite => .body (.install tail) .bunpin
  | ph, .bwrite => .body ph (.releasesleep .log)
  | ph, .bunpin => .body ph (.releasesleep .log)
  | ph, .releasesleep r => .body ph (.unref r)
  | .writeLog tail, .unref .home => .body (.writeLog tail) (.releasesleep .log)
  | .writeLog tail, .unref .log => .body (.writeLog (tail + 1)) .test
  | .install tail, .unref .log => .body (.install tail) (.releasesleep .home)
  | .install tail, .unref .home => .body (.install (tail + 1)) .test
  | .writeHead, .unref _ => .body (.install 0) .test
  | .eraseHead, .unref _ => .fin

/-- The loop tests, and the calls of `write_head`. -/
def testPc (lh : List Nat) : Phase → Pc
  | .writeLog tail => if tail < lh.length then .body (.writeLog tail) (.bget .log) else .body .writeHead .test
  | .install tail => if tail < lh.length then .body (.install tail) (.bget .log) else .clear
  | ph => .body ph (.bget .log)

/-- One call inside a phase; `none` while it has to wait. -/
def micro (s : St P) (c : Committer P) (ph : Phase) : Micro → Except Panic (Option (St P × Committer P))
  | .test => .ok (some (s, c))
  | .bget r =>
    match callBget s c.p (blockOf start s.log.lh ph r) with
    | .ok (some (i, t)) => .ok (some (t, c.setReg i r))
    | .ok none => .ok none
    | .error e => .error e
  | .acquiresleep r => .ok ((callAcquire s c.p (c.reg r)).map (·, c))
  | .fill r => .ok ((callFill s c.p (c.reg r)).map (·, c))
  | .copy =>
    match ph with
    | .writeLog _ =>
      .ok (some (setUse (setData s c.lbuf (s.buf c.dbuf).data) c.p c.lbuf (.holding (s.buf c.lbuf).blockno true), c))
    | .install _ => .ok (some (setData s c.dbuf (s.buf c.lbuf).data, c))
    | _ =>
      .ok (some (setUse (setData s c.lbuf (putHead (s.buf c.lbuf).data s.log.lh)) c.p c.lbuf
        (.holding (s.buf c.lbuf).blockno true), c))
  | .bwrite =>
    match ph with
    | .install _ => .ok (some (bwrite s c.dbuf, c))
    | _ => .ok (some (setUse (bwrite s c.lbuf) c.p c.lbuf (.holding (s.buf c.lbuf).blockno false), c))
  | .bunpin => .ok (some ({ bunpin s c.dbuf with unpinned := s.unpinned + 1 }, c))
  | .releasesleep r => .ok ((callRelease s c.p (c.reg r)).map (·, c))
  | .unref r => .ok ((callUnref s c.p (c.reg r)).map (·, c))

/-- One step of `commit`, and `end_op`'s second section after it. -/
def commitStep (s : St P) (c : Committer P) : St P :=
  match c.pc with
  | .start =>
    let pc := if s.log.lh.length > 0 then .body (.writeLog 0) .test else .fin
    { s with commit := some { c with pc := pc } }
  | .body ph .test => { s with commit := some { c with pc := testPc s.log.lh ph } }
  | .body ph m =>
    match micro start s c ph m with
    | .ok (some (t, c)) => { t with commit := some { c with pc := m.next ph } }
    | .ok none => s
    | .error e => { s with panic := some e }
  | .clear =>
    { s with log := { s.log with lh := [] }, unpinned := 0, commit := some { c with pc := .body .eraseHead .test } }
  | .fin => { s with log := { s.log with committing := false }, commit := none }

/-! ## The machine -/

inductive Ev (P : Type) where
  | bget (p : P) (b : Nat)
  | acquiresleep (p : P) (i : Idx)
  | fill (p : P) (i : Idx)
  | modify (p : P) (i : Idx) (d : Block)
  | logWrite (p : P) (i : Idx)
  /-- `log.lh.n++` after `bpin`. -/
  | listed
  | releasesleep (p : P) (i : Idx)
  | unref (p : P) (i : Idx)
  | beginOp
  | endOp (p : P)
  | commit

/-- Not in `commit`. -/
def client (s : St P) (p : P) : Prop := ∀ c, s.commit = some c → c.p ≠ p

instance (s : St P) (p : P) : Decidable (client s p) :=
  match h : s.commit with
  | none => isTrue fun c hc => by rw [h] at hc; cases hc
  | some c => decidable_of_iff (c.p ≠ p) ⟨fun hp c' hc => by rw [h] at hc; cases hc; exact hp, fun hp => hp c h⟩

/-- `log_write` up to `bpin`. -/
def logWriteAt (s : St P) (p : P) (i : Idx) (b : Nat) : St P :=
  match logWrite s.log (s.buf i).blockno with
  | .error e => { s with panic := some (.log e) }
  | .ok _ =>
    let t := setUse { s with hist := s.hist ++ [((s.buf i).blockno, (s.buf i).data)] } p i (.holding b false)
    if (s.buf i).blockno ∈ s.log.lh then t else { bpin t i with pinning := some (p, i) }

def raw (s : St P) : Ev P → St P
  | .bget p b =>
    if client s p ∧ Home start b then
      match callBget s p b with
      | .ok (some (_, t)) => t
      | .ok none => s
      | .error e => { s with panic := some e }
    else s
  | .acquiresleep p i => if client s p then (callAcquire s p i).getD s else s
  | .fill p i => if client s p then (callFill s p i).getD s else s
  | .modify p i d =>
    match s.use p i with
    | .holding b _ => if client s p ∧ Home start b then setUse (setData s i d) p i (.holding b true) else s
    | _ => s
  | .logWrite p i =>
    match s.use p i, s.pinning with
    | .holding b _, none => if client s p ∧ Home start b then logWriteAt s p i b else s
    | _, _ => s
  | .listed =>
    match s.pinning with
    | some (_, i) => { s with log := { s.log with lh := s.log.lh ++ [(s.buf i).blockno] }, pinning := none }
    | none => s
  | .releasesleep p i =>
    if client s p then
      if s.lock i = some p then (callRelease s p i).getD s else { s with panic := some .brelse }
    else s
  | .unref p i => if client s p then (callUnref s p i).getD s else s
  | .beginOp => if s.pinning = none then { s with log := (beginOp s.log).getD s.log } else s
  | .endOp p =>
    if client s p ∧ s.pinning = none then
      match endOp s.log with
      | .ok (l, true) => { s with log := l, commit := some ⟨p, .start, ⟨0, by decide⟩, ⟨0, by decide⟩⟩ }
      | .ok (l, false) => { s with log := l }
      | .error e => { s with panic := some (.log e) }
    else s
  | .commit =>
    match s.commit with
    | some c => commitStep start s c
    | none => s

def step (s : St P) (e : Ev P) : St P := if s.panic.isSome then s else raw start s e

/-- No process uses a buffer, the log is idle, and the cache agrees with the disk: as after
    `binit`, or after `initlog`'s recovery went through the cache. -/
structure Fresh (s : St P) : Prop where
  ring : ∃ l, s.ring.Ring l ∧ l.Nodup ∧ ∀ i, i ∈ l
  refcnt : ∀ i, (s.buf i).refcnt = 0
  dev : ∀ i, (s.buf i).dev = 0 ∨ (s.buf i).dev = ROOTDEV
  uniq : ∀ i j, (s.buf i).dev ≠ 0 → (s.buf i).dev = (s.buf j).dev → (s.buf i).blockno = (s.buf j).blockno → i = j
  clean : ∀ i, (s.buf i).valid → (s.buf i).dev = ROOTDEV → (s.buf i).data = s.disk (s.buf i).blockno
  lock : ∀ i, s.lock i = none
  use : ∀ p i, s.use p i = .idle
  log : s.log = ⟨0, false, []⟩
  pinning : s.pinning = none
  commit : s.commit = none
  unpinned : s.unpinned = 0
  hist : s.hist = []

/-- The state after `binit`, with disk `d`. -/
def init (d : Disk) : St P :=
  { buf := fun _ => ⟨false, 0, 0, 0, Bytes.zero⟩
    ring := binit
    lock := fun _ => none
    disk := d
    log := ⟨0, false, []⟩
    pinning := none
    commit := none
    use := fun _ _ => .idle
    unpinned := 0
    hist := []
    panic := none }

end Xv6.Bio
