/-
  Xv6.Ipc.Fault — readers whose `copyout` fails (`kernel/pipe.c`: `piperead`;
  `kernel/console.c`: `consoleread`). A reader copies bytes out one at a time, holding the lock;
  any of the copies may fail. `piperead` advances `nread` after the copy and loses nothing;
  `consoleread` advances `cons.r` before it, and the byte whose copy fails is gone
  (`failed_copy_iff`).
-/

import Xv6.Ipc.ConsoleProofs
import Xv6.Ipc.Pipe

namespace Xv6.Ipc.Fault

open Lib Monitor

/-- The turns that a call makes without letting go of the lock, one for each input. -/
def stretch {D L I C : Type} (step : D → L → I → D × Act C L) : D → L → List I → D × L
  | d, l, [] => (d, l)
  | d, l, i :: is =>
    match step d l i with
    | (d', .go l') => stretch step d' l' is
    | (d', .wake _ l') => (d', l')
    | (d', .sleep _ l') => (d', l')
    | (d', .leave) => (d', l)

theorem add_succ (x : BitVec 32) (k : Nat) : x + 1#32 + BitVec.ofNat 32 k = x + BitVec.ofNat 32 (k + 1) := by
  rw [Nat.add_comm k 1, BitVec.ofNat_add, BitVec.add_assoc]

/-- A `piperead` that leaves its copy loop has advanced `nread` by what it counts. -/
theorem pipe_stretch (killed : Bool) (copies : List (Option (BitVec 8))) {n ret : Int} {start : Nat}
    {d' : Pipe.Data} :
    ∀ {d : Pipe.Data} {i : Nat}, stretch (Pipe.step killed) d (.readCopy n i start) copies =
      (d', .readRet n ret start) →
    ∃ k, d'.pipe = { d.pipe with nread := d.pipe.nread + BitVec.ofNat 32 k } ∧
    d'.delivered.length = d.delivered.length + k ∧
      (ret = i + k ∨ ret = -1 ∧ i + k = 0) := by
  induction copies with
  | nil =>
    intro d i h
    cases h
  | cons copy copies ih =>
    intro d i h
    have hstay : d.pipe = { d.pipe with nread := d.pipe.nread + BitVec.ofNat 32 0 } := by simp
    cases copy with
    | none =>
      simp only [stretch, Pipe.step] at h
      split_ifs at h
      all_goals
        cases h
        exact ⟨0, hstay, rfl, by omega⟩
    | some ch =>
      simp only [stretch, Pipe.step] at h
      split_ifs at h
      · cases h
        exact ⟨0, hstay, rfl, by omega⟩
      · obtain ⟨k, h1, h2, h3⟩ := ih h
        refine ⟨k + 1, ?_, ?_, by omega⟩
        · rw [h1]
          simp only [Pipe.Data.take, add_succ]
        · rw [h2]
          simp only [Pipe.Data.take, List.length_append, List.length_singleton]
          omega
      · cases h
        exact ⟨0, hstay, rfl, by omega⟩

/-- How many of the committed characters a `consoleread` of `n` bytes copies out: those of
    the line, up to a ^D. -/
def wanted : Nat → List Console.Char8 → Nat
  | 0, _ => 0
  | _, [] => 0
  | n + 1, c :: cs => if c = Console.ctrl 'D' then 0 else if c = Console.newline then 1 else wanted n cs + 1

section

variable (killed : Bool) (oks : List Bool) (target : Int)

/-- If one of these copies fails, `consoleread` has advanced `cons.r` by one more than it has
    stored. -/
theorem console_fault : ∀ (d : Console.Data) (n : Int) (got : List Console.Char8),
    false ∈ oks.take (wanted n.toNat d.cons.committed) →
    ∃ k r, (stretch (Console.step killed) d (.read target n got) oks).1.returns = d.returns ++ [r] ∧ r.why = .fault ∧
      r.got.length = got.length + k ∧
      (stretch (Console.step killed) d (.read target n got) oks).1.cons.r = d.cons.r + BitVec.ofNat 32 (k + 1) := by
  induction oks with
  | nil =>
    intro d n got h
    simp at h
  | cons ok oks ih =>
    intro d n got h
    cases hn : n.toNat with
    | zero => simp [hn, wanted] at h
    | succ m =>
      have hpos : 0 < n := by omega
      by_cases hempty : d.cons.r = d.cons.w
      · rw [Console.committed_nil.mpr hempty, hn] at h
        simp [wanted] at h
      rw [Console.committed_cons hempty, hn] at h
      simp only [stretch, Console.step, if_pos hpos, if_neg hempty]
      unfold wanted at h
      split_ifs at h with hD hnl
      · simp at h
      · obtain rfl : ok = false := by simpa using h
        simp only [if_neg hD]
        exact ⟨0, _, rfl, rfl, rfl, rfl⟩
      · simp only [if_neg hD]
        cases ok with
        | false => exact ⟨0, _, rfl, rfl, rfl, rfl⟩
        | true =>
          simp only [Bool.true_eq_false, if_false, if_neg hnl]
          rw [show m = (n - 1).toNat by omega] at h
          rcases List.mem_cons.mp h with h | h
          · cases h
          obtain ⟨k, r, h1, h2, h3, h4⟩ := ih { d with cons := { d.cons with r := d.cons.r + 1#32 } } _ (got ++ [_]) h
          refine ⟨k + 1, r, h1, h2, ?_, ?_⟩
          · rw [h3, List.length_append, List.length_singleton]
            omega
          · rw [h4, add_succ]

/-- If they all succeed, it does not return for a failed copy. -/
theorem console_no_fault : ∀ {d : Console.Data} {n : Int} {got : List Console.Char8} {r : Console.Ret},
    false ∉ oks.take (wanted n.toNat d.cons.committed) →
    (stretch (Console.step killed) d (.read target n got) oks).1.returns = d.returns ++ [r] → r.why ≠ .fault := by
  induction oks with
  | nil =>
    intro d n got r h hr
    simp [stretch] at hr
  | cons ok oks ih =>
    intro d n got r h hr
    -- what a turn returns, if the call ends with it
    have hret : ∀ {d₀ : Console.Data} {r₀ : Console.Ret}, (d₀.ret r₀).returns = d.returns ++ [r] →
      d₀.returns = d.returns →
        r₀.why ≠ .fault → r.why ≠ .fault := by
      intro d₀ r₀ he h0 hw
      rw [Console.Data.ret, h0] at he
      cases List.append_cancel_left he
      exact hw
    simp only [stretch, Console.step] at hr
    split_ifs at hr with hpos hempty hk hD hlt hok hnl
    · exact hret hr rfl (by simp)
    · cases oks with
      | nil | cons ok oks => simp [stretch, Console.step] at hr
    · exact hret hr rfl (by simp)
    · exact hret hr rfl (by simp)
    · obtain ⟨m, hm⟩ : ∃ m, n.toNat = m + 1 := ⟨n.toNat - 1, by omega⟩
      refine absurd ?_ h
      rw [Console.committed_cons hempty, hm, wanted, if_neg hD, hok]
      split <;> simp
    · exact hret hr rfl (by simp)
    · refine ih (fun hm => h ?_) hr
      rw [Console.committed_cons hempty, show n.toNat = (n - 1).toNat + 1 by omega, wanted, if_neg hD, if_neg hnl]
      exact List.mem_cons_of_mem _ hm
    · exact hret hr rfl (by simp)

end

/-- A reader whose copy fails has advanced by the bytes it stored and counted: `piperead` always,
    `consoleread` exactly if it can copy all the committed characters that it wants. -/
theorem failed_copy_iff (killed : Bool) (copies : List (Option (BitVec 8))) (oks : List Bool) (p : Pipe.Data)
    (d : Console.Data) (n target : Int) (i start : Nat) (got : List Console.Char8) :
    ((∀ p' ret, stretch (Pipe.step killed) p (.readCopy n i start) copies = (p', .readRet n ret start) →
        ∃ k, p'.pipe = { p.pipe with nread := p.pipe.nread + BitVec.ofNat 32 k } ∧
        p'.delivered.length = p.delivered.length + k ∧
          (ret = i + k ∨ ret = -1 ∧ i + k = 0)) ∧
      ∀ d' l r, stretch (Console.step killed) d (.read target n got) oks = (d', l) → d'.returns = d.returns ++ [r] →
        r.why = .fault → d'.cons.r = d.cons.r + BitVec.ofNat 32 (r.got.length - got.length)) ↔
    false ∉ oks.take (wanted n.toNat d.cons.committed) := by
  constructor
  · intro ⟨_, hcons⟩ hf
    obtain ⟨k, r, hr, hw, hk, he⟩ := console_fault killed oks target _ _ got hf
    have he' := he.symm.trans (hcons _ _ r rfl hr hw)
    rw [hk, Nat.add_sub_cancel_left, ← add_succ, BitVec.add_assoc] at he'
    simp at he'
  · intro h
    refine ⟨fun p' ret hp => pipe_stretch killed copies hp, fun d' l r hd hr hw => absurd hw ?_⟩
    exact console_no_fault killed oks target h (by rw [hd]; exact hr)

/-- One byte of input, a reader that asks for it, and a `copyout` that fails: the call returns 0
    and the byte is gone. -/
theorem console_byte_lost :
    ((stretch (Console.step false) ⟨⟨fun _ => 97#8, 0#32, 1#32, 1#32⟩, []⟩ (.read 1 1 []) [false]).1.cons.r = 1#32) ∧
    (stretch (Console.step false) ⟨⟨fun _ => 97#8, 0#32, 1#32, 1#32⟩, []⟩ (.read 1 1 []) [false]).1.returns =
    [⟨1, 0, [], .fault⟩] := by
  decide

end Xv6.Ipc.Fault
