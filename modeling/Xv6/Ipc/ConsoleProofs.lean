/-
  Xv6.Ipc.ConsoleProofs — the console refines the queue and the edit line
  (`console_refines_line`; see `Xv6.Ipc.Console`).
-/

import Xv6.Ipc.Console

namespace Xv6.Ipc.Console

open Lib Monitor

theorem size_dvd : INPUT_BUF_SIZE ∣ Fifo.values 32 := by decide

theorem size_lt : INPUT_BUF_SIZE < Fifo.values 32 := by decide

/-! ## The ring -/

def Cons.committed (s : Cons) : List Char8 := Fifo.queue size_pos s.buf s.r s.w

def Cons.edit (s : Cons) : List Char8 := Fifo.queue size_pos s.buf s.w s.e

/-- `r <= w <= e <= r + INPUT_BUF_SIZE`, as differences. -/
structure Cons.Ok (s : Cons) : Prop where
  order : Fifo.dist s.r s.w ≤ Fifo.dist s.r s.e
  bound : Fifo.dist s.r s.e ≤ INPUT_BUF_SIZE

variable {s : Cons}

theorem dist_edit (h : s.Ok) : Fifo.dist s.r s.e = Fifo.dist s.r s.w + Fifo.dist s.w s.e := by
  have h1 := Fifo.dist_add h.order
  have h2 := h.order
  omega

def Cons.put (s : Cons) (c : Char8) : Cons :=
  { s with buf := upd s.buf (Fifo.slot size_pos s.e) c, e := s.e + 1#32 }

section
variable {s : Cons} (h : s.Ok) (hlt : Fifo.dist s.r s.e < INPUT_BUF_SIZE) (c : Char8)
include h hlt

theorem dist_put :
    Fifo.dist s.r (s.put c).e = Fifo.dist s.r s.e + 1 ∧ Fifo.dist s.w (s.put c).e = Fifo.dist s.w s.e + 1 := by
  have hsize := size_lt
  have hd := dist_edit h
  exact ⟨Fifo.dist_succ_right (by omega), Fifo.dist_succ_right (by omega)⟩

theorem put_ok : (s.put c).Ok := by
  have hp := (dist_put h hlt c).1
  have ho := h.order
  exact ⟨show Fifo.dist s.r s.w ≤ Fifo.dist s.r (s.put c).e by omega,
    show Fifo.dist s.r (s.put c).e ≤ INPUT_BUF_SIZE by omega⟩

theorem put_committed : (s.put c).committed = s.committed := by
  have hw := Fifo.contents_upd size_pos size_dvd s.buf s.r h.order hlt c
  rw [Fifo.adv_dist] at hw
  exact hw

theorem put_edit : (s.put c).edit = s.edit ++ [c] := by
  have hd := dist_edit h
  have hsize := size_lt
  show Fifo.queue size_pos (upd s.buf (Fifo.slot size_pos s.e) c) s.w (s.e + 1#32) = _
  rw [Fifo.queue_push _ _ (by omega), Fifo.queue_write _ size_dvd _ (by omega), upd_same]
  rfl

end

theorem commit_ok (h : s.Ok) : ({ s with w := s.e } : Cons).Ok := ⟨le_refl _, h.bound⟩

theorem commit_committed (h : s.Ok) : ({ s with w := s.e } : Cons).committed = s.committed ++ s.edit := by
  unfold Cons.committed Cons.edit Fifo.queue
  rw [dist_edit h, Fifo.contents_add, Fifo.adv_dist]

theorem commit_edit (s : Cons) : ({ s with w := s.e } : Cons).edit = [] := Fifo.queue_nil _ _ rfl

/-- The last character of the edit line is erased. -/
theorem erase_spec (h : s.Ok) (hne : s.e ≠ s.w) : ({ s with e := s.e - 1#32 } : Cons).Ok ∧
    s.edit = ({ s with e := s.e - 1#32 } : Cons).edit ++ [s.buf (Fifo.slot size_pos (s.e - 1#32))] := by
  have hd := dist_edit h
  have hpos : Fifo.dist s.w s.e ≠ 0 := fun h0 => hne (Fifo.dist_eq_zero.mp h0).symm
  obtain ⟨n, hn⟩ := Nat.exists_eq_succ_of_ne_zero hpos
  have hw : Fifo.dist s.w (s.e - 1#32) = n := Fifo.dist_pred_right hn
  have hr : Fifo.dist s.r (s.e - 1#32) = Fifo.dist s.r s.w + n := Fifo.dist_pred_right (by omega)
  refine ⟨⟨?_, ?_⟩, ?_⟩
  · show Fifo.dist s.r s.w ≤ Fifo.dist s.r (s.e - 1#32)
    omega
  · show Fifo.dist s.r (s.e - 1#32) ≤ INPUT_BUF_SIZE
    have := h.bound
    omega
  · have hadv : Fifo.adv s.w n = s.e - 1#32 := by rw [← hw, Fifo.adv_dist]
    unfold Cons.edit Fifo.queue
    rw [hw, hn, Fifo.contents_succ, hadv]

/-- ^U erases the whole edit line, since no newline is in it. -/
theorem killLine_spec (k : Nat) : ∀ {s : Cons}, s.Ok → Fifo.dist s.w s.e = k → newline ∉ s.edit →
    (killLine k s).Ok ∧ (killLine k s).edit = [] ∧ (killLine k s).committed = s.committed := by
  induction k with
  | zero =>
    intro s h hk _
    exact ⟨h, Fifo.queue_nil _ _ (Fifo.dist_eq_zero.mp hk), rfl⟩
  | succ k ih =>
    intro s h hk hnl
    have hne : s.e ≠ s.w := by
      intro he
      rw [Fifo.dist_eq_zero.mpr he.symm] at hk
      cases hk
    obtain ⟨hok, hedit⟩ := erase_spec h hne
    have hc : s.buf (Fifo.slot size_pos (s.e - 1#32)) ≠ newline := by
      intro hc
      exact hnl (by rw [hedit, hc]; exact List.mem_append_right _ (List.mem_singleton_self _))
    unfold killLine
    rw [if_pos ⟨hne, hc⟩]
    exact ih hok (Fifo.dist_pred_right hk) fun hm => hnl (by rw [hedit]; exact List.mem_append_left _ hm)

theorem committed_cons (hne : s.r ≠ s.w) :
    s.committed = s.buf (Fifo.slot size_pos s.r) :: ({ s with r := s.r + 1#32 } : Cons).committed :=
      Fifo.queue_pop size_pos s.buf hne

theorem take_ok (h : s.Ok) (hne : s.r ≠ s.w) : ({ s with r := s.r + 1#32 } : Cons).Ok := by
  have hpos : Fifo.dist s.r s.w ≠ 0 := fun h0 => hne (Fifo.dist_eq_zero.mp h0)
  obtain ⟨n, hn⟩ := Nat.exists_eq_succ_of_ne_zero hpos
  have hd := dist_edit h
  have hw : Fifo.dist (s.r + 1#32) s.w = n := Fifo.dist_succ_left hn
  have he : Fifo.dist (s.r + 1#32) s.e = n + Fifo.dist s.w s.e := Fifo.dist_succ_left (by omega)
  constructor
  · show Fifo.dist (s.r + 1#32) s.w ≤ Fifo.dist (s.r + 1#32) s.e
    omega
  · show Fifo.dist (s.r + 1#32) s.e ≤ INPUT_BUF_SIZE
    have := h.bound
    omega

theorem committed_nil : s.committed = [] ↔ s.r = s.w := by
  rw [← Fifo.dist_eq_zero, ← Fifo.length_queue size_pos s.buf s.r s.w]
  exact List.length_eq_zero_iff.symm

/-! ## The refinement -/

/-- The indices are in order, the ring holds the queue and the line, and the calls returned
    the same. -/
structure Rep (d : Data) (t : Line) : Prop where
  ok : d.cons.Ok
  committed : t.committed = d.cons.committed
  edit : t.edit = d.cons.edit
  returns : t.returns = d.returns
  lines : newline ∉ t.edit
  log : t.log = t.taken ++ t.committed

variable {d : Data} {t : Line}

theorem rep_ret (h : Rep d t) (r : Ret) : Rep (d.ret r) (t.ret r) :=
  ⟨h.ok, h.committed, h.edit, by simp only [Data.ret, Line.ret, h.returns], h.lines, h.log⟩

theorem rep_take (h : Rep d t) (hne : d.cons.r ≠ d.cons.w) :
    ∃ rest, t.committed = d.cons.buf (Fifo.slot size_pos d.cons.r) :: rest ∧
      Rep { d with cons := { d.cons with r := d.cons.r + 1#32 } }
        (t.take (d.cons.buf (Fifo.slot size_pos d.cons.r)) rest) := by
  have hc := committed_cons hne
  refine ⟨_, h.committed.trans hc, ⟨take_ok h.ok hne, rfl, h.edit, h.returns, h.lines, ?_⟩⟩
  show t.log = t.taken ++ [_] ++ _
  rw [h.log, h.committed, hc, List.append_assoc]
  rfl

theorem rep_length (h : Rep d t) : t.committed.length + t.edit.length = (d.cons.e - d.cons.r).toNat := by
  rw [h.committed, h.edit]
  unfold Cons.committed Cons.edit
  rw [Fifo.length_queue, Fifo.length_queue]
  exact (dist_edit h.ok).symm

theorem rep_type (h : Rep d t) (c : Char8) : (consoleintr d.cons c).2 = (t.type c).2 ∧
    Rep { d with cons := (consoleintr d.cons c).1 } (t.type c).1 := by
  have hlen := rep_length h
  unfold consoleintr Line.type
  by_cases hP : c = ctrl 'P'
  · rw [if_pos hP, if_pos hP]
    exact ⟨rfl, h⟩
  rw [if_neg hP, if_neg hP]
  by_cases hU : c = ctrl 'U'
  · rw [if_pos hU, if_pos hU]
    obtain ⟨h1, h2, h3⟩ := killLine_spec _ h.ok rfl (by rw [← h.edit]; exact h.lines)
    exact ⟨rfl, h1, h.committed.trans h3.symm, h2.symm, h.returns, List.not_mem_nil, h.log⟩
  rw [if_neg hU, if_neg hU]
  by_cases hH : c = ctrl 'H' ∨ c = delete
  · rw [if_pos hH, if_pos hH]
    by_cases hne : d.cons.e ≠ d.cons.w
    · rw [if_pos hne]
      obtain ⟨h1, h2⟩ := erase_spec h.ok hne
      have hdrop : t.edit.dropLast = ({ d.cons with e := d.cons.e - 1#32 } : Cons).edit := by
        rw [h.edit, h2, List.dropLast_concat]
      exact ⟨rfl, h1, h.committed, hdrop, h.returns, fun hm => h.lines (List.mem_of_mem_dropLast hm), h.log⟩
    · rw [if_neg hne]
      have hempty : t.edit = [] := h.edit.trans (Fifo.queue_nil _ _ (not_not.mp hne).symm)
      exact ⟨rfl, h.ok, h.committed, by rw [← h.edit, hempty]; rfl, h.returns, by rw [hempty]; exact List.not_mem_nil,
        h.log⟩
  rw [if_neg hH, if_neg hH, hlen]
  by_cases hfit : c ≠ 0#8 ∧ (d.cons.e - d.cons.r).toNat < INPUT_BUF_SIZE
  · rw [if_pos hfit, if_pos hfit]
    generalize (if c = carriageReturn then newline else c) = ch
    have hlt : Fifo.dist d.cons.r d.cons.e < INPUT_BUF_SIZE := hfit.2
    have hok := put_ok h.ok hlt ch
    have hcm := put_committed h.ok hlt ch
    have hed := put_edit h.ok hlt ch
    have hfull : t.committed.length + (t.edit ++ [ch]).length = ((d.cons.put ch).e - (d.cons.put ch).r).toNat := by
      have hp : ((d.cons.put ch).e - (d.cons.put ch).r).toNat = (d.cons.e - d.cons.r).toNat + 1 :=
        (dist_put h.ok hlt ch).1
      rw [List.length_append, List.length_singleton]
      omega
    dsimp only
    rw [hfull]
    show (if ch = newline ∨ ch = ctrl 'D' ∨ ((d.cons.put ch).e - (d.cons.put ch).r).toNat = INPUT_BUF_SIZE then
        (({ d.cons.put ch with w := (d.cons.put ch).e } : Cons), true) else (d.cons.put ch, false)).2 = _ ∧
      Rep { d with cons := (if ch = newline ∨ ch = ctrl 'D' ∨
        ((d.cons.put ch).e - (d.cons.put ch).r).toNat = INPUT_BUF_SIZE then
        (({ d.cons.put ch with w := (d.cons.put ch).e } : Cons), true) else (d.cons.put ch, false)).1 } _
    by_cases hcommit : ch = newline ∨ ch = ctrl 'D' ∨ ((d.cons.put ch).e - (d.cons.put ch).r).toNat = INPUT_BUF_SIZE
    · rw [if_pos hcommit, if_pos hcommit]
      refine ⟨rfl, commit_ok hok, ?_, (commit_edit _).symm, h.returns, List.not_mem_nil, ?_⟩
      · show t.committed ++ (t.edit ++ [ch]) = _
        rw [commit_committed hok, hcm, hed, h.committed, h.edit]
      · show t.log ++ (t.edit ++ [ch]) = t.taken ++ (t.committed ++ (t.edit ++ [ch]))
        rw [h.log, List.append_assoc]
    · rw [if_neg hcommit, if_neg hcommit]
      refine ⟨rfl, hok, h.committed.trans hcm.symm, ?_, h.returns, ?_, h.log⟩
      · show t.edit ++ [ch] = _
        rw [hed, h.edit]
      · show newline ∉ t.edit ++ [ch]
        intro hm
        rcases List.mem_append.mp hm with h1 | h1
        · exact h.lines h1
        · exact hcommit (.inl (List.mem_singleton.mp h1).symm)
  · rw [if_neg hfit, if_neg hfit]
    exact ⟨rfl, h⟩

variable {P : Type}

theorem refines_line : Refines (console P) (line P) Rep := by
  refine ⟨rfl, fun p k d t l ok h => ?_, fun d t x => x.elim⟩
  show (step k d l ok).2 = (Line.step k t l ok).2 ∧ Rep (step k d l ok).1 (Line.step k t l ok).1
  cases l with
  | read target n got =>
    unfold step Line.step
    dsimp only
    by_cases hn : 0 < n
    · rw [if_pos hn, if_pos hn]
      by_cases hrw : d.cons.r = d.cons.w
      · have hnil : t.committed = [] := h.committed.trans (committed_nil.mpr hrw)
        rw [if_pos hrw, hnil]
        split
        · exact ⟨rfl, rep_ret h _⟩
        · exact ⟨rfl, h⟩
      · rw [if_neg hrw]
        obtain ⟨rest, hc, hrep⟩ := rep_take h hrw
        rw [hc]
        dsimp only
        generalize d.cons.buf (Fifo.slot size_pos d.cons.r) = c at hc hrep
        by_cases hD : c = ctrl 'D'
        · rw [if_pos hD, if_pos hD]
          by_cases hlt : n < target
          · -- the put-back of ^D
            rw [if_pos hlt, if_pos hlt]
            have hback : d.cons.r + 1#32 - 1#32 = d.cons.r := BitVec.add_sub_cancel _ _
            rw [hback]
            exact ⟨rfl, rep_ret h _⟩
          · rw [if_neg hlt, if_neg hlt]
            exact ⟨rfl, rep_ret hrep _⟩
        rw [if_neg hD, if_neg hD]
        by_cases hok : ok = false
        · rw [if_pos hok, if_pos hok]
          exact ⟨rfl, rep_ret hrep _⟩
        rw [if_neg hok, if_neg hok]
        by_cases hnl : c = newline
        · rw [if_pos hnl, if_pos hnl]
          exact ⟨rfl, rep_ret hrep _⟩
        · rw [if_neg hnl, if_neg hnl]
          exact ⟨rfl, hrep⟩
    · rw [if_neg hn, if_neg hn]
      exact ⟨rfl, rep_ret h _⟩
  | readSleep target n got => exact ⟨rfl, h⟩
  | intr c =>
    obtain ⟨h1, h2⟩ := rep_type h c
    unfold step Line.step
    dsimp only
    rw [h1]
    split
    · exact ⟨rfl, h2⟩
    · exact ⟨rfl, h2⟩
  | intrRet => exact ⟨rfl, h⟩

/-! ## What a read returns -/

def Plain (got : List Char8) : Prop := newline ∉ got ∧ ctrl 'D' ∉ got

theorem plain_append {got : List Char8} (h : Plain got) {c : Char8} (h1 : c ≠ newline) (h2 : c ≠ ctrl 'D') :
    Plain (got ++ [c]) := by
  refine ⟨fun hm => ?_, fun hm => ?_⟩
  · rcases List.mem_append.mp hm with h0 | h0
    · exact h.1 h0
    · exact h1 (List.mem_singleton.mp h0).symm
  · rcases List.mem_append.mp hm with h0 | h0
    · exact h.2 h0
    · exact h2 (List.mem_singleton.mp h0).symm

/-- A read returns the number of bytes it has, and it has as many as it asked for, or its last
    byte is its first newline, or it stopped short of them at a ^D. A fault ends it as well, and
    a killed process gets -1. -/
def Ret.Ok (r : Ret) : Prop :=
  match r.why with
  | .count => r.ret = r.got.length ∧ (0 < r.n → r.ret = r.n) ∧ (r.n ≤ 0 → r.ret = 0) ∧ Plain r.got
  | .newline => r.ret = r.got.length ∧ r.ret ≤ r.n ∧ ∃ got, r.got = got ++ [newline] ∧ Plain got
  | .eof => r.ret = r.got.length ∧ r.ret < r.n ∧ Plain r.got
  | .fault => r.ret = r.got.length ∧ r.ret < r.n ∧ Plain r.got
  | .killed => r.ret = -1

/-- `n` is what is left of `target`. -/
def Fact : Loc → Prop
  | .read target n got => n + got.length = target ∧ (got ≠ [] → 0 ≤ n) ∧ Plain got
  | .readSleep target n got => n + got.length = target ∧ (got ≠ [] → 0 ≤ n) ∧ Plain got
  | _ => True

def Returned (s : Line) : Prop := ∀ r ∈ s.returns, r.Ok

theorem returned_ret {s : Line} (h : Returned s) {r : Ret} (hr : r.Ok) : Returned (s.ret r) := by
  intro r' hr'
  rcases List.mem_append.mp hr' with h1 | h1
  · exact h r' h1
  · rw [List.mem_singleton.mp h1]; exact hr

theorem returned_type {s : Line} (h : Returned s) (c : Char8) : Returned (s.type c).1 := by
  have hsame : (s.type c).1.returns = s.returns := by
    unfold Line.type
    split
    · rfl
    split
    · rfl
    split
    · rfl
    split
    · generalize (if c = carriageReturn then newline else c) = ch
      dsimp only
      split <;> rfl
    · rfl
  intro r hr
  rw [hsame] at hr
  exact h r hr

theorem local_line : Local (m := line P) (u := Usage.any) Returned fun _ => Fact := by
  refine ⟨fun s p a _ => ?_, fun p k s l ok hs hl _ => ?_, fun s x => x.elim⟩
  · cases a with
    | consoleread n => exact ⟨by simp, fun h => absurd rfl h, List.not_mem_nil, List.not_mem_nil⟩
    | consoleintr c => trivial
  show Leaves Returned (fun _ => Fact) (Line.step k s l ok).1 (Line.step k s l ok).2
  cases l with
  | read target n got =>
    obtain ⟨hlen, hpos, hplain⟩ := hl
    unfold Line.step
    dsimp only
    split
    · rename_i hn
      split
      · split
        · exact returned_ret hs rfl
        · exact ⟨hs, hlen, hpos, hplain⟩
      rename_i c rest hc
      split
      · have hok : (⟨target, target - n, got, .eof⟩ : Ret).Ok := ⟨by dsimp only; omega, by dsimp only; omega, hplain⟩
        split
        · exact returned_ret hs hok
        · exact returned_ret hs hok
      · rename_i hD
        split
        · exact returned_ret hs ⟨by dsimp only; omega, by dsimp only; omega, hplain⟩
        split
        · rename_i hnl
          refine returned_ret hs ⟨?_, ?_, got, by rw [hnl], hplain⟩
          · simp only [List.length_append, List.length_singleton, Int.natCast_add]
            omega
          · dsimp only
            omega
        · rename_i hnl
          refine ⟨hs, ?_, fun _ => by omega, plain_append hplain hnl hD⟩
          rw [List.length_append, List.length_singleton]
          omega
    · rename_i hn
      refine returned_ret hs ⟨?_, ?_, ?_, hplain⟩
      · dsimp only; omega
      · intro h
        dsimp only at h ⊢
        by_cases hg : got = []
        · rw [hg, List.length_nil] at hlen; omega
        · have := hpos hg; omega
      · intro h
        dsimp only at h ⊢
        by_cases hg : got = []
        · rw [hg, List.length_nil] at hlen; omega
        · have := hpos hg; omega
  | readSleep target n got => exact ⟨hs, fun _ => hl⟩
  | intr c =>
    unfold Line.step
    dsimp only
    split
    · exact ⟨returned_type hs c, trivial⟩
    · exact ⟨returned_type hs c, trivial⟩
  | intrRet => exact hs

theorem rep_init (buf : Fin INPUT_BUF_SIZE → Char8) : Rep (init buf) Line.init := by
  have h0 : Fifo.dist 0#32 0#32 = 0 := Fifo.dist_eq_zero.mpr rfl
  have hnil : [] = Fifo.contents size_pos buf 0#32 (Fifo.dist 0#32 0#32) := by rw [h0]; rfl
  refine ⟨⟨le_refl _, ?_⟩, hnil, hnil, rfl, List.not_mem_nil, rfl⟩
  show Fifo.dist 0#32 0#32 ≤ INPUT_BUF_SIZE
  exact Nat.zero_le _

/-- Any readers and any input, in any interleaving: the console goes with the queue of
    committed characters and its edit line, step by step, with `r <= w <= e <= r +
    INPUT_BUF_SIZE`; what was committed is what reads took, followed by what is queued; and
    every read ends where it should. -/
theorem console_refines_line [FinEnum P] (buf : Fin INPUT_BUF_SIZE → Char8) (es : List (Ev P Call Bool Empty)) :
    Sim Rep (run (St.step (console P)) (St.init (init buf)) es) (run (St.step (line P)) (St.init Line.init) es) ∧
    ∀ r ∈ (run (St.step (console P)) (St.init (init buf)) es).data.returns, r.Ok := by
  have hsim := sim_run refines_line es (s := St.init (init buf)) (t := St.init Line.init) ⟨rep_init buf, rfl, rfl, rfl⟩
  have hret := (data_inv (keeps_local (local_line (P := P))) es (d := Line.init) (along_any _ _ es)
    ⟨(fun r hr => by cases hr), fun p l hl => by cases hl⟩).2.2.1
  refine ⟨hsim, fun r hr => ?_⟩
  rw [← hsim.data.returns] at hr
  exact hret r hr

/-! ## Kills -/

/-- Where a read is bound to sleep, with its test of `killed` behind it. -/
def Armed : Loc → Prop
  | .readSleep _ _ _ => True
  | _ => False

def noKillArmed : Usage P Data Loc Call Bool :=
  { call := fun _ _ _ _ => True
    exec := fun _ _ _ _ _ => True
    kill := fun _ l => ¬ Armed l }

theorem alert_console : Alert (m := console P) (u := noKillArmed) fun _ => Armed := by
  refine ⟨fun d p a => by cases a <;> exact id, fun p k d l ok _ => ?_, fun d x => x.elim, fun d l h => h⟩
  show Tests (fun _ => Armed) k d l (step k d l ok).1 (step k d l ok).2
  cases l with
  | read target n got =>
    unfold step
    dsimp only
    split
    · split
      · split
        · trivial
        · rename_i hk
          exact fun _ => .inl (by simpa using hk)
      · split
        · trivial
        · split
          · trivial
          · split
            · trivial
            · exact False.elim
    · trivial
  | readSleep target n got => exact ⟨.inr trivial, fun _ => id⟩
  | intr c =>
    unfold step
    dsimp only
    split
    · exact False.elim
    · exact False.elim
  | intrRet => trivial

end Xv6.Ipc.Console
