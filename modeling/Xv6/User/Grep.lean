/-
  Xv6.User.Grep — `user/grep.c`: the regular-expression matcher (`match_correct`) and the loop
  that prints the lines that match (`grep_prints_iff`).

  A string is the list of its bytes without the NUL. `buf` has 1024 bytes, one of them for the
  NUL. How many bytes each `read` returns is given by `size`: one more than that if so many are
  asked for and left, else what there is.
-/

import Mathlib.Data.List.Induction

namespace Xv6.User.Grep

abbrev Str := List UInt8

def STAR : UInt8 := 42
def DOT : UInt8 := 46
def DOLLAR : UInt8 := 36
def CARET : UInt8 := 94
def NL : UInt8 := 10

/-! ## match, matchhere, matchstar -/

/-- `matchstar(c, re, text)`, where `here` is `matchhere` of `re`. -/
def matchstar (here : Str → Bool) (c : UInt8) : Str → Bool
  | [] => here []
  | x :: text => here (x :: text) || (x = c || c = DOT) && matchstar here c text

def matchhere : Str → Str → Bool
  | [], _ => true
  | [c], text =>
    if c = DOLLAR then text.isEmpty
    else
      match text with
      | [] => false
      | x :: text => (c = DOT || c = x) && matchhere [] text
  | c :: d :: re, text =>
    if d = STAR then matchstar (matchhere re) c text
    else
      match text with
      | [] => false
      | x :: text => (c = DOT || c = x) && matchhere (d :: re) text

/-- The loop of `match`. -/
def matchFrom (re : Str) : Str → Bool
  | [] => matchhere re []
  | x :: text => matchhere re (x :: text) || matchFrom re text

def matchText (re text : Str) : Bool := if re.head? = some CARET then matchhere re.tail text else matchFrom re text

/-! ## What a pattern means -/

/-- Text `u`, with `rest` behind it, belongs to the language of `re`. -/
inductive Lang : Str → Str → Str → Prop
  | empty {rest : Str} : Lang [] [] rest
  | star {c : UInt8} {re w u rest : Str} :
    (∀ x ∈ w, c = DOT ∨ c = x) → Lang re u rest → Lang (c :: STAR :: re) (w ++ u) rest
  | eol : Lang [DOLLAR] [] []
  | char {c x : UInt8} {re u rest : Str} :
    re.head? ≠ some STAR → (c = DOLLAR → re ≠ []) → c = DOT ∨ c = x → Lang re u rest →
    Lang (c :: re) (x :: u) rest

theorem matchstar_iff (here : Str → Bool) (c : UInt8) (text : Str) :
    matchstar here c text = true ↔ ∃ w rest, text = w ++ rest ∧ (∀ x ∈ w, c = DOT ∨ c = x) ∧ here rest = true := by
  induction text with
  | nil => simp [matchstar]
  | cons x text ih =>
    simp only [matchstar, Bool.or_eq_true, Bool.and_eq_true, decide_eq_true_eq, ih]
    constructor
    · rintro (h | ⟨hx, w, rest, rfl, hw, h⟩)
      · exact ⟨[], _, rfl, by simp, h⟩
      · refine ⟨x :: w, rest, rfl, ?_, h⟩
        simp only [List.mem_cons, forall_eq_or_imp]
        exact ⟨hx.symm.imp_right Eq.symm, hw⟩
    · rintro ⟨_ | ⟨y, w⟩, rest, he, hw, h⟩
      · exact .inl (he ▸ h)
      · obtain ⟨rfl, rfl⟩ := List.cons.inj he
        simp only [List.mem_cons, forall_eq_or_imp] at hw
        exact .inr ⟨hw.1.symm.imp_left Eq.symm, w, rest, rfl, hw.2, h⟩

section char

variable {c : UInt8} {re : Str} (h1 : re.head? ≠ some STAR) (h2 : c = DOLLAR → re ≠ [])

include h1 h2

/-- A character that stands for itself or for any. -/
theorem lang_char (x : UInt8) (text : Str) : (∃ u rest, x :: text = u ++ rest ∧ Lang (c :: re) u rest) ↔
    (c = DOT ∨ c = x) ∧ ∃ u rest, text = u ++ rest ∧ Lang re u rest := by
  constructor
  · rintro ⟨u, rest, he, h⟩
    cases h with
    | star _ _ => simp at h1
    | eol => simp at h2
    | char _ _ hx h =>
      obtain ⟨rfl, rfl⟩ := List.cons.inj he
      exact ⟨hx, _, _, rfl, h⟩
  · rintro ⟨hx, u, rest, rfl, h⟩
    exact ⟨x :: u, rest, rfl, .char h1 h2 hx h⟩

theorem lang_char_nil : ¬ ∃ u rest, [] = u ++ rest ∧ Lang (c :: re) u rest := by
  rintro ⟨u, rest, he, h⟩
  cases h with
  | star _ _ => simp at h1
  | eol => simp at h2
  | char _ _ _ _ => cases he

end char

theorem matchhere_iff (re text : Str) : matchhere re text = true ↔ ∃ u rest, text = u ++ rest ∧ Lang re u rest := by
  induction re using List.twoStepInduction generalizing text with
  | nil => exact ⟨fun _ => ⟨[], text, rfl, .empty⟩, fun _ => rfl⟩
  | singleton c =>
    by_cases hc : c = DOLLAR
    · subst hc
      simp only [matchhere, if_true, List.isEmpty_iff]
      constructor
      · rintro rfl
        exact ⟨[], [], rfl, .eol⟩
      · rintro ⟨u, rest, rfl, h⟩
        cases h with
        | eol => rfl
        | char _ h2 => simp at h2
    · have h2 : c = DOLLAR → ([] : Str) ≠ [] := fun e => absurd e hc
      cases text with
      | nil => simpa [matchhere, hc] using lang_char_nil (by simp) h2
      | cons x text =>
        rw [lang_char (by simp) h2]
        simpa [matchhere, hc] using fun _ => ⟨[], text, rfl, .empty⟩
  | cons_cons c d re ih ih' =>
    by_cases hd : d = STAR
    · subst hd
      simp only [matchhere, if_true, matchstar_iff, ih]
      constructor
      · rintro ⟨w, _, rfl, hw, u, rest, rfl, h⟩
        exact ⟨w ++ u, rest, by simp, .star hw h⟩
      · rintro ⟨u, rest, rfl, h⟩
        cases h with
        | star hw h => exact ⟨_, _, List.append_assoc _ _ _, hw, _, _, rfl, h⟩
        | char h1 => simp at h1
    · have h1 : (d :: re).head? ≠ some STAR := by simpa using hd
      cases text with
      | nil => simpa [matchhere, hd] using lang_char_nil h1 (by simp)
      | cons x text =>
        rw [lang_char h1 (by simp), ← ih' d text]
        simp [matchhere, hd]

theorem matchFrom_iff (re text : Str) :
    matchFrom re text = true ↔ ∃ pre rest, text = pre ++ rest ∧ matchhere re rest = true := by
  induction text with
  | nil => simp [matchFrom]
  | cons x text ih =>
    simp only [matchFrom, Bool.or_eq_true, ih]
    constructor
    · rintro (h | ⟨pre, rest, rfl, h⟩)
      · exact ⟨[], _, rfl, h⟩
      · exact ⟨x :: pre, rest, rfl, h⟩
    · rintro ⟨_ | ⟨y, pre⟩, rest, he, h⟩
      · exact .inl (he ▸ h)
      · exact .inr ⟨pre, rest, (List.cons.inj he).2, h⟩

theorem match_correct (re text : Str) : matchText re text = true ↔ ∃ pre u rest, text = pre ++ (u ++ rest) ∧
    if re.head? = some CARET then pre = [] ∧ Lang re.tail u rest else Lang re u rest := by
  unfold matchText
  split
  · rw [matchhere_iff]
    constructor
    · rintro ⟨u, rest, rfl, h⟩
      exact ⟨[], u, rest, rfl, rfl, h⟩
    · rintro ⟨_, u, rest, rfl, rfl, h⟩
      exact ⟨u, rest, rfl, h⟩
  · simp only [matchFrom_iff, matchhere_iff]
    constructor
    · rintro ⟨pre, _, rfl, u, rest, rfl, h⟩
      exact ⟨pre, u, rest, rfl, h⟩
    · rintro ⟨pre, u, rest, rfl, h⟩
      exact ⟨pre, _, rfl, u, rest, rfl, h⟩

/-! ## grep -/

/-- The lines that end in the buffer, `line` being what `strchr` has passed of the first: what
    is written, and what is left. -/
def grepBuf (pattern : Str) : Str → Str → Str × Str
  | line, [] => ([], line)
  | line, x :: p =>
    if x = 0 then ([], line ++ x :: p)
    else if x = NL then
      let r := grepBuf pattern [] p
      ((if matchText pattern line then line ++ [NL] else []) ++ r.1, r.2)
    else grepBuf pattern (line ++ [x]) p

/-- The loop from the `i`th `read` on, with `buf` holding `res`. -/
def grepFrom (pattern : Str) (size : Nat → Nat) (i : Nat) (res input : Str) : Str :=
  let got := input.take (min (1024 - res.length - 1) (size i + 1))
  if got = [] then []
  else
    let r := grepBuf pattern [] (res ++ got)
    r.1 ++ grepFrom pattern size (i + 1) r.2 (input.drop got.length)
termination_by input.length
decreasing_by
  have hpos : 0 < (input.take (min (1024 - res.length - 1) (size i + 1))).length := List.length_pos_iff.mpr ‹_›
  simp only [List.length_take, List.length_drop] at hpos ⊢
  omega

/-- What is written to the standard output for an input. -/
def grep (pattern : Str) (size : Nat → Nat) (input : Str) : Str := grepFrom pattern size 0 [] input

def unlines (ls : List Str) : Str := ls.flatMap (· ++ [NL])

/-- What is to be printed. -/
def printed (pattern : Str) (ls : List Str) : Str := unlines (ls.filter (matchText pattern))

/-- A line that fits in the buffer with its newline. -/
def fits (l : Str) : Bool := l.length < 1023

/-- The lines of a NUL-free text. -/
def Lines (ls : List Str) : Prop := ∀ l ∈ ls, NL ∉ l ∧ 0 ∉ l

theorem unlines_cons (l : Str) (ls : List Str) : unlines (l :: ls) = l ++ NL :: unlines ls := by simp [unlines]

theorem zero_notMem {ls : List Str} (h : Lines ls) : 0 ∉ unlines ls := by
  simp only [unlines, List.mem_flatMap, List.mem_append, List.mem_singleton]
  rintro ⟨l, hl, h0 | h0⟩
  · exact (h l hl).2 h0
  · cases h0

theorem printed_append (pattern : Str) (ls ls' : List Str) :
    printed pattern (ls ++ ls') = printed pattern ls ++ printed pattern ls' := by
  simp [printed, unlines]

/-- Text without a newline is part of the first line. -/
theorem of_append_eq {res input l r : Str} (h : NL ∉ res) (he : res ++ input = l ++ NL :: r) : ∃ l', l = res ++ l' := by
  rcases List.append_eq_append_iff.mp he with ⟨l', hl, -⟩ | ⟨_ | ⟨x, w⟩, hl, hr⟩
  · exact ⟨l', hl⟩
  · exact ⟨[], by simpa using hl.symm⟩
  · obtain ⟨rfl, -⟩ := List.cons.inj hr
    simp [hl] at h

/-- The inner loop writes the lines that match of those that end in the buffer. -/
theorem grepBuf_spec (pattern tail buf line : Str) (ls : List Str) (h : Lines ls) (hl : NL ∉ line)
    (he : line ++ (buf ++ tail) = unlines ls) :
    ∃ done rest, ls = done ++ rest ∧ (grepBuf pattern line buf).1 = printed pattern done ∧
    NL ∉ (grepBuf pattern line buf).2 ∧
      (grepBuf pattern line buf).2 ++ tail = unlines rest ∧ (grepBuf pattern line buf).2.length ≤ (line ++ buf).length ∧
      ∀ l ∈ done, l.length < (line ++ buf).length := by
  induction buf generalizing line ls with
  | nil => exact ⟨[], ls, rfl, rfl, hl, he, by simp [grepBuf], by simp⟩
  | cons x p ih =>
    have hx : x ≠ 0 := fun e => zero_notMem h (by simp [← he, e])
    by_cases hn : x = NL
    · subst hn
      cases ls with
      | nil => simp [unlines] at he
      | cons l ls =>
        rw [unlines_cons] at he
        -- both begin with what is before the first newline
        obtain ⟨w, rfl⟩ := of_append_eq hl he
        obtain ⟨w', hw⟩ := of_append_eq (h _ List.mem_cons_self).1 he.symm
        obtain rfl : w = [] := by
          have := congrArg List.length hw
          simp only [List.length_append] at this
          exact List.length_eq_zero_iff.mp (by omega)
        simp only [List.append_nil, List.append_cancel_left_eq, List.cons_append, List.cons.injEq, true_and] at he
        obtain ⟨done, rest, rfl, h1, h2, h3, h4, h5⟩ := ih [] ls (fun l hl => h l (.tail _ hl)) (by simp) he
        simp only [grepBuf, if_neg hx, if_true]
        refine ⟨line :: done, rest, by simp, ?_, h2, h3, by simp at h4 ⊢; omega, ?_⟩
        · rw [h1, show line :: done = [line] ++ done from rfl]
          by_cases hm : matchText pattern line = true
          · simp [printed, unlines, hm]
          · simp [printed, unlines, hm]
        · simp only [List.mem_cons, forall_eq_or_imp]
          refine ⟨by simp, fun l hl => ?_⟩
          have := h5 l hl
          simp only [List.length_append, List.length_cons, List.length_nil] at this ⊢
          omega
    · simp only [grepBuf, if_neg hx, if_neg hn]
      obtain ⟨done, rest, hls, h1, h2, h3, h4, h5⟩ :=
        ih (line ++ [x]) ls h (by simp [hl, Ne.symm hn]) (by simpa using he)
      rw [List.append_assoc] at h4 h5
      exact ⟨done, rest, hls, h1, h2, h3, h4, h5⟩

/-- Printing stops at the first line that does not fit. -/
theorem grepFrom_spec (pattern : Str) (size : Nat → Nat) (i : Nat) (res input : Str) :
    ∀ ls, Lines ls → NL ∉ res → res.length ≤ 1023 →
    res ++ input = unlines ls → grepFrom pattern size i res input = printed pattern (ls.takeWhile fits) := by
  induction i, res, input using grepFrom.induct pattern size with
  | case1 i res input got hgot =>
    intro ls h hres hlen he
    unfold grepFrom
    rw [if_pos hgot]
    cases ls with
    | nil => rfl
    | cons l ls =>
      obtain ⟨w, rfl⟩ := of_append_eq hres (he.trans (unlines_cons l ls))
      have hin : input ≠ [] := fun e => by
        have := congrArg List.length he
        simp only [e, unlines_cons, List.length_append, List.length_cons, List.length_nil] at this
        omega
      have hfull : res.length = 1023 := by
        have := List.take_eq_nil_iff.mp hgot
        simp only [hin, or_false] at this
        omega
      have hbig : fits (res ++ w) = false := by simp [fits, hfull]
      simp [hbig, printed, unlines]
  | case2 i res input got hgot r ih =>
    intro ls h hres hlen he
    have hsplit : got ++ input.drop got.length = input := List.prefix_iff_eq_append.mp (List.take_prefix _ _)
    have hbuf : (res ++ got).length ≤ 1023 := by
      simp only [got, List.length_append, List.length_take]
      omega
    obtain ⟨done, rest, rfl, h1, h2, h3, h4, h5⟩ :=
      grepBuf_spec pattern (input.drop got.length) (res ++ got) [] ls h (by simp)
      (by rw [List.nil_append, List.append_assoc, hsplit, he])
    unfold grepFrom
    rw [if_neg hgot]
    show r.1 ++ grepFrom pattern size (i + 1) r.2 (input.drop got.length) = _
    rw [h1, ih rest (fun l hl => h l (List.mem_append_right _ hl)) h2 (Nat.le_trans h4 hbuf) h3]
    have hfit : ∀ l ∈ done, fits l = true := fun l hl => decide_eq_true (Nat.lt_of_lt_of_le (h5 l hl) hbuf)
    rw [List.takeWhile_append_of_pos hfit, printed_append]

theorem grep_out (pattern : Str) (size : Nat → Nat) {ls : List Str} (h : Lines ls) :
    grep pattern size (unlines ls) = printed pattern (ls.takeWhile fits) :=
  grepFrom_spec pattern size 0 [] _ ls h (by simp) (by simp) rfl

theorem grep_prints_iff (pattern : Str) (size : Nat → Nat) (ls : List Str) (h : Lines ls) :
    grep pattern size (unlines ls) = printed pattern ls ↔ ∀ l ∈ ls.dropWhile fits, matchText pattern l = false := by
  rw [grep_out pattern size h]
  conv => lhs; rhs; rw [← ls.takeWhile_append_dropWhile (p := fits), printed_append]
  simp [printed, unlines]

/-- Three lines, the second without the letter asked for, two bytes at a time. -/
theorem grep_prints_iff_lines : Lines [[97, 98], [99], [98, 97, 97]] ∧
    grep [97] (fun _ => 1) (unlines [[97, 98], [99], [98, 97, 97]]) = unlines [[97, 98], [98, 97, 97]] := by
  have h : Lines [[97, 98], [99], [98, 97, 97]] := by simp [Lines, NL]
  exact ⟨h, ((grep_prints_iff [97] (fun _ => 1) _ h).mpr (by decide)).trans (by decide)⟩

theorem long_line_lost (size : Nat → Nat) {n : Nat} (hn : 1022 ≤ n) :
    grep [97] size (unlines [List.replicate (n + 1) 97]) = [] ∧
      printed [97] [List.replicate (n + 1) 97] = unlines [List.replicate (n + 1) 97] := by
  constructor
  · rw [grep_out]
    · simp [fits, printed, unlines, hn]
    · simp [Lines, NL]
  · have hm : matchText [97] (List.replicate (n + 1) 97) = true := by
      simp [List.replicate_succ, matchText, matchFrom, matchhere, CARET, DOLLAR]
    simp [printed, hm]

/-- A line with 1023 times the letter that the pattern asks for. -/
theorem grep_long_line :
    grep [97] (fun _ => 1022) (unlines [List.replicate 1023 97]) ≠ printed [97] [List.replicate 1023 97] := by
  obtain ⟨h1, h2⟩ := long_line_lost (fun _ => 1022) (Nat.le_refl 1022)
  rw [h1, h2]
  exact fun e => by cases e

end Xv6.User.Grep
