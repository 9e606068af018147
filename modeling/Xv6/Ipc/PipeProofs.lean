/-
  Xv6.Ipc.PipeProofs — pipes deliver in order what was written (`pipe_fifo`), and who waits
  for a pipe is woken, unless a writer leaves killed after it has put bytes in
  (`pipe_no_lost_wakeup`, `killed_writer_loses_wakeup`); see `Xv6.Ipc.Pipe`.
-/

import Xv6.Ipc.Pipe

namespace Xv6.Ipc.Pipe

open Lib Monitor

theorem pipesize_dvd : PIPESIZE ∣ Fifo.values 32 := by decide

/-! ## The ring -/

def Pipe.bytes (pi : Pipe) : List (BitVec 8) := Fifo.queue pipesize_pos pi.data pi.nread pi.nwrite

/-- The count is in bounds, and what was put in is what was taken out, followed by what is
    in the pipe. -/
structure Data.InOrder (d : Data) : Prop where
  bound : (d.pipe.nwrite - d.pipe.nread).toNat ≤ PIPESIZE
  fifo : d.accepted = d.delivered ++ d.pipe.bytes

theorem not_full_lt {pi : Pipe} (hb : Fifo.dist pi.nread pi.nwrite ≤ PIPESIZE) (hf : ¬ pi.full) :
    Fifo.dist pi.nread pi.nwrite < PIPESIZE := by
  refine lt_of_le_of_ne hb fun he => hf ?_
  have h := Fifo.adv_dist pi.nread pi.nwrite
  rw [he] at h
  exact h.symm

variable {d : Data}

theorem inOrder_put (h : d.InOrder) (hf : ¬ d.pipe.full) (ch : BitVec 8) : (d.put ch).InOrder := by
  obtain ⟨hb, hfifo⟩ := h
  have hlt := not_full_lt hb hf
  have hsize : PIPESIZE < Fifo.values 32 := by decide
  have hroom : Fifo.dist d.pipe.nread d.pipe.nwrite + 1 < Fifo.values 32 := by omega
  constructor
  · show Fifo.dist d.pipe.nread (d.pipe.nwrite + 1#32) ≤ PIPESIZE
    rw [Fifo.dist_succ_right hroom]
    exact hlt
  · show d.accepted ++ [ch] = d.delivered ++
      Fifo.queue pipesize_pos (upd d.pipe.data (Fifo.slot pipesize_pos d.pipe.nwrite) ch) d.pipe.nread
      (d.pipe.nwrite + 1#32)
    rw [Fifo.queue_push _ _ hroom, Fifo.queue_write _ pipesize_dvd _ hlt, upd_same, ← List.append_assoc, hfifo]
    rfl

theorem inOrder_take (h : d.InOrder) (he : ¬ d.pipe.empty) : d.take.InOrder := by
  obtain ⟨hb, hfifo⟩ := h
  have hne : Fifo.dist d.pipe.nread d.pipe.nwrite ≠ 0 := fun h0 => he (Fifo.dist_eq_zero.mp h0)
  obtain ⟨n, hn⟩ := Nat.exists_eq_succ_of_ne_zero hne
  constructor
  · show Fifo.dist (d.pipe.nread + 1#32) d.pipe.nwrite ≤ PIPESIZE
    have hb' : Fifo.dist d.pipe.nread d.pipe.nwrite ≤ PIPESIZE := hb
    rw [Fifo.dist_succ_left hn]
    omega
  · rw [Pipe.bytes, Fifo.queue_pop _ _ he] at hfifo
    show d.accepted = d.delivered ++ [_] ++ _
    rw [hfifo, List.append_assoc]
    rfl

/-! ## What holds where a call stands -/

/-- A `piperead` took out as many bytes as it returns, and returns 0 for `n > 0` only at the
    end of an empty pipe. -/
def Ret.Ok : Ret → Prop
  | .write _ _ => True
  | .read n ret removed empty writeopen =>
    (0 ≤ ret → (removed : Int) = ret) ∧ (ret < 0 → removed = 0) ∧ (ret = 0 → 0 < n → empty = true ∧ writeopen = false)

structure Data.Good (d : Data) : Prop where
  inOrder : d.InOrder
  returns : ∀ r ∈ d.returns, r.Ok

def Fact (d : Data) : Loc → Prop
  | .write _ i i₀ => i₀ ≤ i ∧ (i₀ < i → d.pipe.readopen = true)
  | .writeTested _ i i₀ => i₀ ≤ i ∧ d.pipe.readopen = true
  | .writeSleep _ _ => d.pipe.full ∧ d.pipe.readopen = true
  | .readSleep _ => d.pipe.empty ∧ d.pipe.writeopen = true
  | .readCopy _ i start => d.delivered.length = start + i ∧ (i = 0 → d.pipe.empty → d.pipe.writeopen = false)
  | .readRet n ret start => (readReturn d n ret start).Ok
  | _ => True

theorem good_ret (h : d.Good) {r : Ret} (hr : r.Ok) : (d.ret r).Good := by
  refine ⟨⟨h.inOrder.bound, h.inOrder.fifo⟩, fun r' hr' => ?_⟩
  rcases List.mem_append.mp hr' with h1 | h1
  · exact h.returns r' h1
  · rw [List.mem_singleton.mp h1]; exact hr

/-- The end of the copy loop: `ret` bytes are out, or none if `ret` is -1. -/
theorem readReturn_ok {n : Int} {i start : Nat} (h : Fact d (.readCopy n i start)) {ret : Int}
    (hret : ret = i ∨ (i = 0 ∧ ret = -1)) (hz : ret = 0 → 0 < n → d.pipe.empty) : (readReturn d n ret start).Ok := by
  obtain ⟨hlen, hwo⟩ := h
  have hrem : d.delivered.length - start = i := by omega
  refine ⟨fun h0 => ?_, fun h0 => ?_, fun h0 hn => ?_⟩
  · rw [hrem]; omega
  · rw [hrem]; omega
  · have he := hz h0 hn
    have hi : i = 0 := by omega
    exact ⟨decide_eq_true he, hwo hi he⟩

variable {P : Type}

theorem local_pipe (u : Usage P Data Loc Call (Option (BitVec 8))) : Local (m := pipe P) (u := u) Data.Good Fact := by
  refine ⟨fun d p a hd => ?_, fun p k d l i hd hl hu => ?_, fun d x => x.elim⟩
  · cases a with
    | pipewrite n => exact ⟨le_refl 0, fun h => absurd h (by omega)⟩
    | piperead n | pipeclose writable => trivial
  show Leaves Data.Good Fact (step k d l i).1 (step k d l i).2
  cases l with
  | write n j j₀ =>
    unfold step
    dsimp only
    split
    · split
      · exact good_ret hd trivial
      · rename_i hro
        have hopen : d.pipe.readopen = true := by simpa using fun h => hro (.inl h)
        exact ⟨hd, hl.1, hopen⟩
    · exact ⟨hd, trivial⟩
  | writeTested n j j₀ =>
    unfold step
    dsimp only
    split
    · exact ⟨hd, ‹_›, hl.2⟩
    · split
      · exact ⟨hd, trivial⟩
      · exact ⟨⟨inOrder_put hd.inOrder ‹_› _, hd.returns⟩, Nat.le_succ_of_le hl.1, fun _ => hl.2⟩
  | writeSleep n j => exact ⟨hd, fun _ => ⟨le_refl j, fun h => absurd h (by omega)⟩⟩
  | writeRet n j => exact good_ret hd trivial
  | read n =>
    unfold step
    dsimp only
    split
    · split
      · exact good_ret hd ⟨(fun h => by omega), (fun _ => by omega), fun h => by omega⟩
      · exact ⟨hd, ‹_›⟩
    · rename_i he
      have hclosed : d.pipe.empty → d.pipe.writeopen = false := fun hemp => by simpa using fun hwo => he ⟨hemp, hwo⟩
      exact ⟨hd, rfl, fun _ => hclosed⟩
  | readSleep n => exact ⟨hd, fun _ => trivial⟩
  | readCopy n j st =>
    unfold step
    dsimp only
    split
    · split
      · exact ⟨hd, readReturn_ok hl (.inl rfl) fun _ _ => ‹_›⟩
      rename_i he
      split
      · refine ⟨hd, ?_⟩
        by_cases hj0 : j = 0
        · rw [if_pos hj0]; exact readReturn_ok hl (.inr ⟨hj0, rfl⟩) fun h => by omega
        · rw [if_neg hj0]; exact readReturn_ok hl (.inl rfl) fun h => by omega
      · refine ⟨⟨inOrder_take hd.inOrder he, hd.returns⟩, ?_, fun h => by omega⟩
        show (d.delivered ++ [_]).length = _
        rw [List.length_append, hl.1, List.length_singleton]
        omega
    · exact ⟨hd, readReturn_ok hl (.inl rfl) fun h hn => by omega⟩
  | readRet n ret st => exact good_ret hd hl
  | close writable =>
    cases writable with
    | true | false => exact ⟨⟨⟨hd.inOrder.bound, hd.inOrder.fifo⟩, hd.returns⟩, trivial⟩
  | closed => exact hd

theorem good_pipealloc (buf : Fin PIPESIZE → BitVec 8) : (pipealloc buf).Good := by
  have h0 : Fifo.dist 0#32 0#32 = 0 := Fifo.dist_eq_zero.mpr rfl
  refine ⟨⟨show Fifo.dist 0#32 0#32 ≤ PIPESIZE by rw [h0]; exact Nat.zero_le _, ?_⟩, fun r hr => by cases hr⟩
  show [] = [] ++ Fifo.contents pipesize_pos buf 0#32 (Fifo.dist 0#32 0#32)
  rfl

/-- Any processes, any calls, in any interleaving and for any number of bytes: the pipe
    delivers in order what it accepted, holds at most PIPESIZE bytes, and a `piperead` that
    returns `i > 0` has taken out `i` bytes, one that returns 0 has seen the end. -/
theorem pipe_fifo [FinEnum P] (buf : Fin PIPESIZE → BitVec 8) (es : List (Ev P Call (Option (BitVec 8)) Empty)) :
    (run (St.step (pipe P)) (St.init (pipealloc buf)) es).data.InOrder ∧
    ∀ n ret removed empty writeopen,
      Ret.read n ret removed empty writeopen ∈ (run (St.step (pipe P)) (St.init (pipealloc buf)) es).data.returns →
        (0 < ret → (removed : Int) = ret) ∧ (ret = 0 → 0 < n → empty = true ∧ writeopen = false) := by
  have hk := keeps_local (local_pipe (P := P) Usage.any)
  have hg := (data_inv hk es (along_any _ _ es) ⟨good_pipealloc buf, fun p l hl => by cases hl⟩).2.2.1
  refine ⟨hg.inOrder, fun n ret removed empty writeopen hr => ?_⟩
  obtain ⟨h1, -, h3⟩ := hg.returns _ hr
  exact ⟨fun h => h1 (le_of_lt h), h3⟩

/-! ## Sleepers -/

/-- Readers wait while the pipe is empty and may get more bytes, writers while it is full and
    may be read. -/
def Reason (d : Data) : Chan → Prop
  | .nread => d.pipe.empty ∧ d.pipe.writeopen = true
  | .nwrite => d.pipe.full ∧ d.pipe.readopen = true

/-- The wakeups that a call owes: a writer that has put bytes in since it took the lock, a
    reader in its copy loop. -/
def Owe : Loc → Chan → Prop
  | .write _ i i₀, .nread => i₀ < i
  | .writeTested _ i i₀, .nread => i₀ < i
  | .readCopy _ _ _, .nwrite => True
  | _, _ => False

/-- A `pipewrite` that has put bytes in since it took the lock, and has more to write, does not
    find its process killed. -/
def unkilledWriter : Usage P Data Loc Call (Option (BitVec 8)) :=
  { call := fun _ _ _ _ => True
    exec := fun _ killed _ l _ => ∀ n i i₀, l = .write n i i₀ → i₀ < i → (i : Int) < n → killed = false
    kill := fun _ _ => True }

/-- A step that changes neither the pipe nor what is owed. -/
theorem same_reason {d d' : Data} {l l' : Loc} (hp : d'.pipe = d.pipe) {c : Chan} (ho : Owe l c → Owe l' c)
    (h : Reason d c ∨ Owe l c) : Reason d' c ∨ Owe l' c := by
  rcases h with h | h
  · refine .inl ?_
    unfold Reason at h ⊢
    rw [hp]
    exact h
  · exact .inr (ho h)

theorem reason_of_not_owe {d d' : Data} {l : Loc} (hp : d'.pipe = d.pipe) {c : Chan} (ho : ¬ Owe l c)
    (h : Reason d c ∨ Owe l c) : Reason d' c := by
  have h1 := h.resolve_right ho
  unfold Reason at h1 ⊢
  rw [hp]
  exact h1

theorem signals_pipe :
    Signals (m := pipe P) (u := unkilledWriter) (fun d ls => d.Good ∧ ∀ p l, ls p = some l → Fact d l) Reason Owe := by
  refine ⟨fun d ls p k l i hj hl hu => ?_, fun d x => x.elim⟩
  have hf := hj.2 p l hl
  show Pays Reason Owe d l (step k d l i).1 (step k d l i).2
  cases l with
  | write n j j₀ =>
    unfold step
    dsimp only
    split
    · rename_i hjn
      split
      · -- the return of -1: nothing was put in since the lock was taken
        rename_i hout
        have hnot : ¬ j₀ < j := by
          intro hlt
          rcases hout with hro | hk
          · rw [hf.2 hlt] at hro; cases hro
          · rw [hu n j j₀ rfl hlt hjn] at hk; cases hk
        intro c
        refine reason_of_not_owe rfl ?_
        cases c with
        | nread => exact hnot
        | nwrite => exact id
      · intro c
        refine same_reason rfl ?_
        cases c with
        | nread | nwrite => exact id
    · intro c hc
      refine same_reason rfl ?_
      cases c with
      | nread => exact absurd rfl hc
      | nwrite => exact id
  | writeTested n j j₀ =>
    unfold step
    dsimp only
    split
    · intro c hc
      refine same_reason rfl ?_
      cases c with
      | nread => exact absurd rfl hc
      | nwrite => exact id
    · rename_i hfull
      split
      · intro c hc
        refine same_reason rfl ?_
        cases c with
        | nread => exact absurd rfl hc
        | nwrite => exact id
      · intro c h
        cases c with
        | nread => exact .inr (Nat.lt_succ_of_le hf.1)
        | nwrite => exact absurd (h.resolve_right id).1 hfull
  | writeSleep n j | readSleep n =>
    refine ⟨hf, fun c h => ?_⟩
    exact reason_of_not_owe rfl (by cases c <;> exact id) h
  | writeRet n j | readRet n ret st | closed =>
    intro c h
    exact reason_of_not_owe rfl (by cases c <;> exact id) h
  | read n =>
    unfold step
    dsimp only
    split
    · split
      · intro c h
        exact reason_of_not_owe rfl (by cases c <;> exact id) h
      · intro c h
        exact same_reason rfl (by cases c <;> exact id) h
    · intro c h
      exact same_reason rfl (by cases c <;> exact fun h => h.elim) h
  | readCopy n j st =>
    have hwake : ∀ l', Pays Reason Owe d (.readCopy n j st) d (.wake .nwrite l') := by
      intro l' c hc
      refine same_reason rfl ?_
      cases c with
      | nread => exact False.elim
      | nwrite => exact absurd rfl hc
    unfold step
    dsimp only
    split
    · split
      · exact hwake _
      rename_i he
      split
      · exact hwake _
      · intro c h
        cases c with
        | nread => exact absurd (h.resolve_right id).1 he
        | nwrite => exact .inr trivial
    · exact hwake _
  | close writable =>
    cases writable with
    | true =>
      intro c hc h
      cases c with
      | nread => exact absurd rfl hc
      | nwrite => exact .inl (h.resolve_right id)
    | false =>
      intro c hc h
      cases c with
      | nread => exact .inl (h.resolve_right id)
      | nwrite => exact absurd rfl hc

/-- While `pi->lock` is free, nobody sleeps on `&pi->nread` if there are bytes or no writer,
    and nobody on `&pi->nwrite` if there is room or no reader. -/
structure NoLostWakeup (s : St P Chan Data Loc) : Prop where
  readers : s.holder = none → ¬ s.data.pipe.empty ∨ s.data.pipe.writeopen = false → ∀ p l, s.phase p ≠ .asleep .nread l
  writers : s.holder = none → ¬ s.data.pipe.full ∨ s.data.pipe.readopen = false → ∀ p l, s.phase p ≠ .asleep .nwrite l

/-- No wakeup is lost in a run in which no `pipewrite` finds its process killed after it has
    put bytes in. -/
theorem pipe_no_lost_wakeup [FinEnum P] (buf : Fin PIPESIZE → BitVec 8)
    (es : List (Ev P Call (Option (BitVec 8)) Empty))
    (hu : Along (St.step (pipe P)) unkilledWriter.Meets (St.init (pipealloc buf)) es) :
    NoLostWakeup (run (St.step (pipe P)) (St.init (pipealloc buf)) es) := by
  have hk := keeps_local (local_pipe (P := P) unkilledWriter)
  have hs := signals_inv hk signals_pipe es hu ⟨good_pipealloc buf, fun p l hl => by cases hl⟩
  refine ⟨fun hn hor p l hp => ?_, fun hn hor p l hp => ?_⟩
  · have hr := hs.free hn p .nread (by rw [hp]; rfl)
    rcases hor with h | h
    · exact h hr.1
    · rw [hr.2] at h; cases h
  · have hr := hs.free hn p .nwrite (by rw [hp]; rfl)
    rcases hor with h | h
    · exact h hr.1
    · rw [hr.2] at h; cases h

/-- Process 1 reads from the empty pipe and falls asleep; process 0 writes one byte. -/
def readThenWrite : List (Ev (Fin 2) Call (Option (BitVec 8)) Empty) :=
  [.call 1 (.piperead 1), .exec 1 none, .exec 1 none, .doze 1,
   .call 0 (.pipewrite 1), .exec 0 none, .exec 0 (some 7#8), .exec 0 none]

theorem pipe_no_lost_wakeup_write :
    Along (St.step (pipe (Fin 2))) unkilledWriter.Meets (St.init (pipealloc fun _ => 0#8)) readThenWrite ∧
    NoLostWakeup (run (St.step (pipe (Fin 2))) (St.init (pipealloc fun _ => 0#8)) readThenWrite) := by
  have hu : Along (St.step (pipe (Fin 2))) unkilledWriter.Meets (St.init (pipealloc fun _ => 0#8)) readThenWrite := by
    refine along_unkilled (fun s e hs => ?_) readThenWrite (by decide) fun _ => rfl
    cases e with
    | exec p i => exact fun l _ n j j₀ _ _ _ => hs p
    | kill p => exact fun l _ => trivial
    | _ => trivial
  exact ⟨hu, pipe_no_lost_wakeup _ _ hu⟩

/-- The reader again, and a writer of two bytes that is killed after the first. -/
def killedWriter : List (Ev (Fin 2) Call (Option (BitVec 8)) Empty) :=
  [.call 1 (.piperead 1), .exec 1 none, .exec 1 none, .doze 1,
   .call 0 (.pipewrite 2), .exec 0 none, .exec 0 (some 7#8), .kill 0, .exec 0 none]

/-- The writer returns -1 without a wakeup: the reader sleeps on although there is a byte. -/
theorem killed_writer_loses_wakeup :
    (run (St.step (pipe (Fin 2))) (St.init (pipealloc fun _ => 0#8)) killedWriter).holder = none ∧
    ¬ (run (St.step (pipe (Fin 2))) (St.init (pipealloc fun _ => 0#8)) killedWriter).data.pipe.empty ∧
    (run (St.step (pipe (Fin 2))) (St.init (pipealloc fun _ => 0#8)) killedWriter).phase 1 = .asleep .nread (.read 1) ∧
    (run (St.step (pipe (Fin 2))) (St.init (pipealloc fun _ => 0#8)) killedWriter).data.returns = [.write 2 (-1)] := by
  decide +kernel

/-! ## Kills -/

/-- Where a call is bound to sleep, with its test of `killed` behind it. -/
def Armed (d : Data) : Loc → Prop
  | .writeTested _ _ _ => d.pipe.full
  | .writeSleep _ _ => True
  | .readSleep _ => True
  | _ => False

def noKillArmed : Usage P Data Loc Call (Option (BitVec 8)) :=
  { call := fun _ _ _ _ => True
    exec := fun _ _ _ _ _ => True
    kill := fun d l => ¬ Armed d l }

theorem alert_pipe : Alert (m := pipe P) (u := noKillArmed) Armed := by
  refine ⟨fun d p a => by cases a <;> exact id, fun p k d l i _ => ?_, fun d x => x.elim, fun d l h => h⟩
  show Tests Armed k d l (step k d l i).1 (step k d l i).2
  cases l with
  | write n j j₀ =>
    unfold step
    dsimp only
    split
    · split
      · trivial
      · rename_i h
        exact fun _ => .inl (by simpa using fun hk => h (.inr hk))
    · exact False.elim
  | writeTested n j j₀ =>
    unfold step
    dsimp only
    split
    · exact fun _ => .inr ‹_›
    · split <;> exact False.elim
  | writeSleep n j | readSleep n => exact ⟨.inr trivial, fun _ => id⟩
  | writeRet n j => trivial
  | read n =>
    unfold step
    dsimp only
    split
    · split
      · trivial
      · rename_i h
        exact fun _ => .inl (by simpa using h)
    · exact False.elim
  | readCopy n j st =>
    unfold step
    dsimp only
    split
    · split
      · exact False.elim
      · split <;> exact False.elim
    · exact False.elim
  | readRet n ret st => trivial
  | close writable => cases writable <;> exact False.elim
  | closed => trivial

end Xv6.Ipc.Pipe
