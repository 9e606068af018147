/-
  Xv6.Str.Printint — `printint` of the kernel (`kernel/printk.c`) and of the user library
  (`user/printf.c`): a 64-bit value in base 10 or 16. The digits are put into `buf`, the lowest
  first and the sign last, and written out backwards. Both functions get by with the 20 bytes of
  `buf` and write the numeral of the value (`printint_exact`).
-/

import Mathlib.Data.Nat.Digits.Lemmas

namespace Xv6.Str

def Kernel.digits : List Char := ['0', '1', '2', '3', '4', '5', '6', '7', '8', '9', 'a', 'b', 'c', 'd', 'e', 'f']

def User.digits : List Char := ['0', '1', '2', '3', '4', '5', '6', '7', '8', '9', 'A', 'B', 'C', 'D', 'E', 'F']

/-- `do { buf[i++] = digits[x % base]; } while ((x /= base) != 0);`, given up after so many rounds. -/
def putDigits (digits : List Char) (base : BitVec 64) : Nat → BitVec 64 → List Char → Option (List Char)
  | 0, _, _ => none
  | fuel + 1, x, buf =>
    if x / base ≠ 0 then putDigits digits base fuel (x / base) (buf ++ [digits.getD (x % base).toNat '0'])
    else some (buf ++ [digits.getD (x % base).toNat '0'])

/-- `while (--i >= 0) putc(buf[i]);` -/
def putBack (buf : List Char) : Nat → List Char
  | 0 => []
  | i + 1 => buf.getD i '0' :: putBack buf i

/-- What both functions do once they have the sign and the magnitude: the bytes of `buf` that
    were written, and the output. -/
def putNumber (digits : List Char) (base : BitVec 32) (fuel : Nat) (x : BitVec 64) (neg : BitVec 32) :
    Option (List Char × List Char) := do
  let buf ← putDigits digits (base.signExtend 64) fuel x []
  let buf := if neg ≠ 0 then buf ++ ['-'] else buf
  return (buf, putBack buf buf.length)

def Kernel.printint (fuel : Nat) (xx : BitVec 64) (base sign : BitVec 32) : Option (List Char × List Char) :=
  if sign ≠ 0 then
    -- `sign = (xx < 0)`
    let sign := if xx.toInt < 0 then 1 else 0
    if sign ≠ 0 then putNumber digits base fuel (-xx) sign else putNumber digits base fuel xx sign
  else putNumber digits base fuel xx sign

def User.printint (fuel : Nat) (xx : BitVec 64) (base sgn : BitVec 32) : Option (List Char × List Char) :=
  let neg := 0
  if sgn ≠ 0 ∧ xx.toInt < 0 then
    let neg := 1
    putNumber digits base fuel (-xx) neg
  else putNumber digits base fuel xx neg

/-! ## Numerals -/

/-- What a digit stands for, in either case; 16 for any other character. -/
def digit (c : Char) : Nat := Kernel.digits.idxOf c.toLower

def readNat (base : Nat) (cs : List Char) : Nat := Nat.ofDigits base (cs.reverse.map digit)

/-- The numeral of `v`: a sign if it is negative and digits that read back, without leading zeros. -/
def Numeral (base : Nat) (v : Int) (cs : List Char) : Prop :=
  ∃ ds, cs = (if v < 0 then ['-'] else []) ++ ds ∧ ds ≠ [] ∧ (∀ c ∈ ds, digit c < base) ∧
    readNat base ds = v.natAbs ∧ (ds.head? = some '0' → ds = ['0'])

def dig (b n : Nat) : List Nat := if n = 0 then [0] else Nat.digits b n

/-- The value of the argument. -/
def value (xx : BitVec 64) (sign : BitVec 32) : Int := if sign ≠ 0 then xx.toInt else xx.toNat

/-- The contents of `buf`. -/
def written (digits : List Char) (b : Nat) (v : Int) : List Char :=
  (dig b v.natAbs).map (digits.getD · '0') ++ if v < 0 then ['-'] else []

variable {b n : Nat} {digits : List Char} {v : Int}

theorem dig_cons (hb : 1 < b) (n : Nat) : dig b n = n % b :: if n / b = 0 then [] else dig b (n / b) := by
  unfold dig
  by_cases hn : n = 0
  · subst hn
    simp
  · rw [if_neg hn, Nat.digits_def' hb (Nat.pos_of_ne_zero hn)]
    split
    · next h => rw [h, Nat.digits_zero]
    · rfl

theorem dig_lt (hb : 1 < b) {d : Nat} (hd : d ∈ dig b n) : d < b := by
  unfold dig at hd
  split at hd
  · rw [List.mem_singleton.mp hd]
    omega
  · exact Nat.digits_lt_base hb hd

theorem ofDigits_dig (b n : Nat) : Nat.ofDigits b (dig b n) = n := by
  unfold dig
  split
  · next h => simp [h]
  · exact Nat.ofDigits_digits b n

theorem dig_ne_nil (hb : 1 < b) (n : Nat) : dig b n ≠ [] := by
  rw [dig_cons hb]
  exact List.cons_ne_nil _ _

/-- The highest digit is zero only in the numeral of zero. -/
theorem dig_last (h : (dig b n).getLast? = some 0) : dig b n = [0] := by
  unfold dig at h ⊢
  split at h
  · next hn => rw [if_pos hn]
  · next hn =>
    rw [List.getLast?_eq_some_getLast (Nat.digits_ne_nil_iff_ne_zero.mpr hn)] at h
    exact absurd (Option.some.inj h) (Nat.getLast_digit_ne_zero b hn)

theorem length_dig (hb : 1 < b) {k : Nat} (hk : k ≠ 0) (hn : n < b ^ k) : (dig b n).length ≤ k := by
  unfold dig
  split
  · exact Nat.one_le_iff_ne_zero.mpr hk
  · exact (Nat.digits_length_le_iff hb n).mpr hn

/-! ## The loops -/

theorem putDigits_eq {base : BitVec 64} (hb : 1 < base.toNat) (fuel : Nat) : ∀ (x : BitVec 64) (buf : List Char),
    (dig base.toNat x.toNat).length ≤ fuel →
    putDigits digits base fuel x buf = some (buf ++ (dig base.toNat x.toNat).map (digits.getD · '0')) := by
  induction fuel with
  | zero =>
    intro x buf h
    exact absurd (List.length_eq_zero_iff.mp (Nat.le_zero.mp h)) (dig_ne_nil hb _)
  | succ fuel ih =>
    intro x buf h
    have hz : x / base = 0 ↔ x.toNat / base.toNat = 0 := by
      rw [← BitVec.toNat_inj]
      rfl
    rw [dig_cons hb] at h ⊢
    rw [putDigits]
    by_cases h0 : x / base = 0
    · rw [if_neg (not_not.mpr h0), if_pos (hz.mp h0)]
      rfl
    · rw [if_neg fun e => h0 (hz.mpr e)] at h ⊢
      rw [if_pos h0, ih, List.append_assoc]
      · rfl
      · rw [BitVec.toNat_udiv]
        exact Nat.le_of_succ_le_succ h

theorem putBack_eq (buf : List Char) : ∀ i ≤ buf.length, putBack buf i = (buf.take i).reverse := by
  intro i
  induction i with
  | zero => exact fun _ => rfl
  | succ i ih =>
    intro h
    rw [putBack, ih (by omega), List.take_succ_eq_append_getElem h, List.reverse_append,
      List.getD_eq_getElem?_getD, List.getElem?_eq_getElem h]
    rfl

theorem putNumber_eq {base : BitVec 32} (hb : base = 10 ∨ base = 16) {fuel : Nat} {x : BitVec 64} {neg : BitVec 32}
    (hx : x.toNat = v.natAbs) (hneg : neg ≠ 0 ↔ v < 0) (hf : (dig base.toNat v.natAbs).length ≤ fuel) :
    putNumber digits base fuel x neg = some (written digits base.toNat v, (written digits base.toNat v).reverse) := by
  have hbase : (base.signExtend 64).toNat = base.toNat ∧ 1 < base.toNat := by
    rcases hb with rfl | rfl <;> decide
  unfold putNumber
  rw [putDigits_eq (hbase.1 ▸ hbase.2) fuel x [] (by rwa [hbase.1, hx]), hbase.1, hx]
  have hw : (if neg ≠ 0 then (dig base.toNat v.natAbs).map (digits.getD · '0') ++ ['-']
      else (dig base.toNat v.natAbs).map (digits.getD · '0')) = written digits base.toNat v := by
    unfold written
    simp only [hneg]
    split
    · rfl
    · rw [List.append_nil]
  simp only [Option.bind_eq_bind, Option.bind_some, List.nil_append, hw, putBack_eq _ _ (Nat.le_refl _),
    List.take_length]
  rfl

/-! ## Reading back -/

/-- The character of each digit is read as that digit. -/
def Table (digits : List Char) : Prop := ∀ d < 16, digit (digits.getD d '0') = d

theorem numeral_written (ht : Table digits) (hb : 1 < b) (hb' : b ≤ 16) (v : Int) :
    Numeral b v (written digits b v).reverse := by
  have hdig : ∀ d ∈ dig b v.natAbs, digit (digits.getD d '0') = d :=
    fun d hd => ht d (Nat.lt_of_lt_of_le (dig_lt hb hd) hb')
  refine ⟨((dig b v.natAbs).map (digits.getD · '0')).reverse, ?_, ?_, fun c hc => ?_, ?_, fun h => ?_⟩
  · rw [written, List.reverse_append]
    split <;> rfl
  · simpa using dig_ne_nil hb v.natAbs
  · obtain ⟨d, hd, rfl⟩ := List.mem_map.mp (List.mem_reverse.mp hc)
    rw [hdig d hd]
    exact dig_lt hb hd
  · have hmap : (dig b v.natAbs).map (digit ∘ (digits.getD · '0')) = (dig b v.natAbs).map id := List.map_congr_left hdig
    rw [readNat, List.reverse_reverse, List.map_map, hmap, List.map_id, ofDigits_dig]
  · rw [List.head?_reverse, List.getLast?_map, Option.map_eq_some_iff] at h
    obtain ⟨d, hd, h0⟩ := h
    have hz : d = 0 := by rw [← hdig d (List.mem_of_getLast? hd), h0]; decide
    rw [hz] at hd h0
    rw [dig_last hd]
    exact congrArg (fun c => [c]) h0

/-! ## Both functions -/

theorem table_kernel : Table Kernel.digits := by
  unfold Table
  decide

theorem table_user : Table User.digits := by
  unfold Table
  decide

theorem natAbs_value (xx : BitVec 64) (sign : BitVec 32) : (value xx sign).natAbs < 18446744073709551616 ∧
    (value xx sign < 0 → (value xx sign).natAbs ≤ 9223372036854775808) := by
  have := xx.isLt
  unfold value
  split
  · rw [BitVec.toInt_eq_toNat_cond]
    split <;> omega
  · omega

/-- The lowest value takes all of `buf`, and so does the largest one without a sign. -/
theorem length_written (hb : 10 ≤ b) (xx : BitVec 64) (sign : BitVec 32) :
    (written digits b (value xx sign)).length ≤ 20 := by
  obtain ⟨hlt, hneg⟩ := natAbs_value xx sign
  have hdig (k : Nat) (hk : k ≠ 0) (h : (value xx sign).natAbs < 10 ^ k) : (dig b (value xx sign).natAbs).length ≤ k :=
    length_dig (by omega) hk (Nat.lt_of_lt_of_le h (Nat.pow_le_pow_left hb k))
  unfold written
  rw [List.length_append, List.length_map]
  split
  · next hv => exact Nat.add_le_add_right (hdig 19 (by decide) (Nat.lt_of_le_of_lt (hneg hv) (by decide))) 1
  · exact hdig 20 (by decide) (Nat.lt_trans hlt (by decide))

theorem toNat_magnitude (xx : BitVec 64) (sign : BitVec 32) :
    (if value xx sign < 0 then -xx else xx).toNat = (value xx sign).natAbs := by
  have hlt := xx.isLt
  have hi := BitVec.toInt_eq_toNat_cond xx
  by_cases hs : sign ≠ 0
  · rw [show value xx sign = xx.toInt from if_pos hs]
    split
    · rw [BitVec.toNat_neg]
      split at hi <;> omega
    · split at hi <;> omega
  · rw [show value xx sign = xx.toNat from if_neg hs]
    rfl

/-- What both functions come to. -/
theorem putNumber_value {base : BitVec 32} (hb : base = 10 ∨ base = 16) {fuel : Nat} (hf : 20 ≤ fuel) (xx : BitVec 64)
    (sign : BitVec 32) :
    putNumber digits base fuel (if value xx sign < 0 then -xx else xx) (if value xx sign < 0 then 1 else 0) =
      some (written digits base.toNat (value xx sign), (written digits base.toNat (value xx sign)).reverse) := by
  have hlen : (written digits base.toNat (value xx sign)).length ≤ 20 :=
    length_written (by rcases hb with rfl | rfl <;> decide) xx sign
  rw [written, List.length_append, List.length_map] at hlen
  refine putNumber_eq hb (toNat_magnitude xx sign) ?_ (by omega)
  split <;> simp_all

theorem kernel_printint (fuel : Nat) (xx : BitVec 64) (base sign : BitVec 32) : Kernel.printint fuel xx base sign =
    putNumber Kernel.digits base fuel (if value xx sign < 0 then -xx else xx) (if value xx sign < 0 then 1 else 0) := by
  have hnat : ¬ (xx.toNat : Int) < 0 := Int.not_lt.mpr (Int.natCast_nonneg _)
  unfold Kernel.printint value
  by_cases hs : sign = 0#32
  · simp [hs, hnat]
  · by_cases hx : xx.toInt < 0 <;> simp [hs, hx]

theorem user_printint (fuel : Nat) (xx : BitVec 64) (base sign : BitVec 32) : User.printint fuel xx base sign =
    putNumber User.digits base fuel (if value xx sign < 0 then -xx else xx) (if value xx sign < 0 then 1 else 0) := by
  have hnat : ¬ (xx.toNat : Int) < 0 := Int.not_lt.mpr (Int.natCast_nonneg _)
  unfold User.printint value
  by_cases hs : sign = 0#32
  · simp [hs, hnat]
  · by_cases hx : xx.toInt < 0 <;> simp [hs, hx]

theorem written_lower (hb : 1 < b) (hb' : b ≤ 16) (v : Int) :
    (written User.digits b v).map Char.toLower = written Kernel.digits b v := by
  have hlower : ∀ d < 16, (User.digits.getD d '0').toLower = Kernel.digits.getD d '0' := by decide
  unfold written
  rw [List.map_append, List.map_map]
  congr 1
  · exact List.map_congr_left fun d hd => hlower d (Nat.lt_of_lt_of_le (dig_lt hb hd) hb')
  · split <;> rfl

/-- Twenty rounds are enough, and so are the twenty bytes of `buf`; the output is the numeral of
    the value, the same one but for the case of its digits. -/
theorem printint_exact (xx : BitVec 64) (base sign : BitVec 32) (hb : base = 10 ∨ base = 16) (fuel : Nat)
    (hf : 20 ≤ fuel) :
    ∃ kbuf kout ubuf uout, Kernel.printint fuel xx base sign = some (kbuf, kout) ∧
    User.printint fuel xx base sign = some (ubuf, uout) ∧
      kbuf.length ≤ 20 ∧ ubuf.length ≤ 20 ∧ Numeral base.toNat (value xx sign) kout ∧ Numeral base.toNat
        (value xx sign) uout ∧
      uout.map Char.toLower = kout := by
  obtain ⟨h10, h16⟩ : 10 ≤ base.toNat ∧ base.toNat ≤ 16 := by rcases hb with rfl | rfl <;> decide
  have hb1 : 1 < base.toNat := by omega
  refine ⟨_, _, _, _, (kernel_printint _ _ _ _).trans (putNumber_value hb hf xx sign),
    (user_printint _ _ _ _).trans (putNumber_value hb hf xx sign), length_written h10 xx sign,
    length_written h10 xx sign,
    numeral_written table_kernel hb1 h16 _, numeral_written table_user hb1 h16 _, ?_⟩
  rw [List.map_reverse, written_lower hb1 h16]

theorem printint_exact_lowest : ∃ kbuf kout ubuf uout,
    Kernel.printint 20 (BitVec.intMin 64) 10 1 = some (kbuf, kout) ∧ User.printint 20
      (BitVec.intMin 64) 10 1 = some (ubuf, uout) ∧
      kbuf.length ≤ 20 ∧ ubuf.length ≤ 20 ∧ Numeral 10 (-9223372036854775808) kout ∧ Numeral 10
        (-9223372036854775808) uout ∧
      uout.map Char.toLower = kout :=
  printint_exact (BitVec.intMin 64) 10 1 (.inl rfl) 20 (Nat.le_refl 20)

end Xv6.Str
