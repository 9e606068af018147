/-
  Xv6.Lib.Bytes — fixed-length byte strings: reading a byte, copying a range in
  (`splice`), little-endian fields of any width (`getLE`, `putLE`), and single bits. A
  field read back is what was put there, modulo its width, and a field or a bit disjoint
  from the one written is unchanged.
-/
import Mathlib.Algebra.Group.Nat.Defs

namespace Xv6.Lib

def Bytes (n : Nat) : Type := Fin n → UInt8

namespace Bytes

variable {n : Nat}

/-- The byte at `i`; past the end it is never looked at, and reads 0. -/
def get (b : Bytes n) (i : Nat) : UInt8 := if h : i < n then b ⟨i, h⟩ else 0

def ofFn (f : Nat → UInt8) : Bytes n := fun i => f i.1

def zero : Bytes n := ofFn fun _ => 0

/-- `memmove(b + off, src, m)`. -/
def splice (b : Bytes n) (off m : Nat) (src : Nat → UInt8) : Bytes n :=
  ofFn fun i => if off ≤ i ∧ i < off + m then src (i - off) else b.get i

variable {i : Nat}

theorem get_ofFn (f : Nat → UInt8) (h : i < n) : (ofFn f : Bytes n).get i = f i := by
  simp [get, ofFn, h]

@[simp] theorem get_zero (i : Nat) : (zero : Bytes n).get i = 0 := by
  simp only [get, zero, ofFn]; split <;> rfl

theorem ext_get {a b : Bytes n} (h : ∀ i < n, a.get i = b.get i) : a = b := by
  funext i
  have := h i.1 i.2
  simpa [get, i.2] using this

theorem get_splice (b : Bytes n) (off m : Nat) (src : Nat → UInt8) (h : i < n) :
    (b.splice off m src).get i = if off ≤ i ∧ i < off + m then src (i - off) else b.get i :=
  get_ofFn _ h

theorem get_splice_in (b : Bytes n) {off m : Nat} (src : Nat → UInt8) {k : Nat} (hk : k < m) (h : off + m ≤ n) :
    (b.splice off m src).get (off + k) = src k := by
  rw [get_splice _ _ _ _ (by omega), if_pos (by omega)]
  congr 1; omega

theorem get_splice_out (b : Bytes n) {off m : Nat} (src : Nat → UInt8) (h : i < off ∨ off + m ≤ i) :
    (b.splice off m src).get i = b.get i := by
  by_cases hi : i < n
  · rw [get_splice _ _ _ _ hi, if_neg (by omega)]
  · simp [get, hi]

/-! ## Little-endian fields -/

def leByte (v k : Nat) : UInt8 := UInt8.ofNat (v / 256 ^ k)

def getLE (b : Bytes n) (off : Nat) : Nat → Nat
  | 0 => 0
  | w + 1 => (b.get off).toNat + 256 * getLE b (off + 1) w

def putLE (b : Bytes n) (off w v : Nat) : Bytes n := b.splice off w (leByte v)

theorem leByte_zero (v : Nat) : (leByte v 0).toNat = v % 256 := by simp [leByte]

theorem leByte_succ (v k : Nat) : leByte v (k + 1) = leByte (v / 256) k := by
  simp only [leByte]
  rw [Nat.pow_succ, Nat.mul_comm, Nat.div_div_eq_div_mul]

theorem getLE_congr {a b : Bytes n} : ∀ (w off : Nat), (∀ i, off ≤ i → i < off + w → a.get i = b.get i) →
    getLE a off w = getLE b off w
  | 0, _, _ => rfl
  | w + 1, off, h => by
    simp only [getLE]
    rw [h off (Nat.le_refl _) (by omega), getLE_congr w (off + 1) (fun i h1 h2 => h i (by omega) (by omega))]

theorem getLE_lt (b : Bytes n) : ∀ (w off : Nat), getLE b off w < 256 ^ w
  | 0, _ => by simp [getLE]
  | w + 1, off => by
    have h1 := getLE_lt b w (off + 1)
    have h2 : (b.get off).toNat < 256 := UInt8.toNat_lt _
    simp only [getLE, Nat.pow_succ]
    omega

/-- A field whose bytes are those of `v` reads as `v`, modulo its width. -/
theorem getLE_of_leByte (b : Bytes n) : ∀ (w off v : Nat), (∀ k < w, b.get (off + k) = leByte v k) →
    getLE b off w = v % 256 ^ w
  | 0, _, _, _ => by simp [getLE, Nat.mod_one]
  | w + 1, off, v, h => by
    have hrest : getLE b (off + 1) w = v / 256 % 256 ^ w := by
      apply getLE_of_leByte b w (off + 1) (v / 256)
      intro k hk
      rw [show off + 1 + k = off + (k + 1) by omega, h (k + 1) (by omega), leByte_succ]
    have h0 : (b.get off).toNat = v % 256 := by
      have := h 0 (by omega)
      rw [Nat.add_zero] at this
      rw [this, leByte_zero]
    simp only [getLE]
    rw [hrest, h0, Nat.pow_succ, Nat.mul_comm (256 ^ w) 256, Nat.mod_mul]

theorem getLE_putLE (b : Bytes n) {off w v : Nat} (h : off + w ≤ n) : getLE (b.putLE off w v) off w = v % 256 ^ w :=
  getLE_of_leByte _ w off v fun _ hk => get_splice_in b _ hk h

/-- Disjoint fields do not disturb each other. -/
theorem getLE_splice_out (b : Bytes n) {off m off' w : Nat} (src : Nat → UInt8) (h : off' + w ≤ off ∨ off + m ≤ off') :
    getLE (b.splice off m src) off' w = getLE b off' w :=
  getLE_congr w off' fun _ _ _ => get_splice_out b src (by omega)

theorem getLE_putLE_out (b : Bytes n) {off w v off' w' : Nat} (h : off' + w' ≤ off ∨ off + w ≤ off') :
    getLE (b.putLE off w v) off' w' = getLE b off' w' :=
  getLE_splice_out b _ h

theorem getLE_zero (off : Nat) : ∀ w, getLE (zero : Bytes n) off w = 0
  | 0 => rfl
  | w + 1 => by simp only [getLE, get_zero]; rw [getLE_zero (off + 1) w]; rfl

theorem getLE_past (b : Bytes n) : ∀ (w off : Nat), n ≤ off → getLE b off w = 0
  | 0, _, _ => rfl
  | w + 1, off, h => by
    simp only [getLE]
    rw [getLE_past b w (off + 1) (by omega), get, dif_neg (by omega)]
    rfl

/-! ## Bits -/

/-- `1 << k`. -/
def mask (k : Nat) : UInt8 := 1 <<< UInt8.ofNat k

/-- Bit `i` of the string: bit `i % 8` of byte `i / 8`. -/
def bit (b : Bytes n) (i : Nat) : Bool := b.get (i / 8) &&& mask (i % 8) != 0

def setBit (b : Bytes n) (i : Nat) : Bytes n := b.splice (i / 8) 1 fun _ => b.get (i / 8) ||| mask (i % 8)

def clearBit (b : Bytes n) (i : Nat) : Bytes n := b.splice (i / 8) 1 fun _ => b.get (i / 8) &&& ~~~ mask (i % 8)

theorem mask_getLsbD : ∀ k < 8, ∀ j < 8, (mask k).toBitVec.getLsbD j = decide (j = k) := by decide

theorem and_mask (x : UInt8) {k : Nat} (hk : k < 8) : (x &&& mask k != 0) = x.toBitVec.getLsbD k := by
  rw [Bool.eq_iff_iff, bne_iff_ne, ne_eq, ← UInt8.toBitVec_inj]
  constructor
  · intro h
    apply Decidable.by_contra
    intro hx
    apply h
    apply BitVec.eq_of_getLsbD_eq
    intro j hj
    by_cases hjk : j = k
    · subst hjk; simp [hx]
    · simp [mask_getLsbD k hk j hj, hjk]
  · intro h h0
    have := congrArg (fun v => v.getLsbD k) h0
    simp [mask_getLsbD k hk k hk, h] at this

theorem bit_eq (b : Bytes n) (i : Nat) : b.bit i = (b.get (i / 8)).toBitVec.getLsbD (i % 8) :=
  and_mask _ (Nat.mod_lt _ (by omega))

/-- Rewriting the byte of bit `i`: bits of other bytes stay. -/
theorem bit_splice_ne (b : Bytes n) {i j : Nat} (v : UInt8) (h : j / 8 ≠ i / 8) :
    (b.splice (i / 8) 1 fun _ => v).bit j = b.bit j := by
  rw [bit_eq, bit_eq, get_splice_out _ _ (by omega)]

theorem bit_splice_eq (b : Bytes n) {i j : Nat} (v : UInt8) (h : j / 8 = i / 8) (hi : i < 8 * n) :
    (b.splice (i / 8) 1 fun _ => v).bit j = v.toBitVec.getLsbD (j % 8) := by
  have h1 := get_splice_in b (fun _ => v) (k := 0) (m := 1) (by omega) (show i / 8 + 1 ≤ n by omega)
  rw [bit_eq, h]
  rw [Nat.add_zero] at h1
  rw [h1]

theorem bit_setBit (b : Bytes n) (hi : i < 8 * n) (j : Nat) : (b.setBit i).bit j = (decide (j = i) || b.bit j) := by
  by_cases h : j / 8 = i / 8
  · rw [setBit, bit_splice_eq _ _ h hi, bit_eq, h, UInt8.toBitVec_or, BitVec.getLsbD_or,
      mask_getLsbD _ (Nat.mod_lt _ (by omega)) _ (Nat.mod_lt _ (by omega)), Bool.or_comm]
    congr 1
    exact decide_eq_decide.mpr ⟨fun _ => by omega, fun _ => by omega⟩
  · rw [setBit, bit_splice_ne _ _ h, decide_eq_false (fun e => h (by rw [e])), Bool.false_or]

theorem bit_clearBit (b : Bytes n) (hi : i < 8 * n) (j : Nat) :
    (b.clearBit i).bit j = (!decide (j = i) && b.bit j) := by
  by_cases h : j / 8 = i / 8
  · rw [clearBit, bit_splice_eq _ _ h hi, bit_eq, h, UInt8.toBitVec_and, UInt8.toBitVec_not, BitVec.getLsbD_and,
      BitVec.getLsbD_not, mask_getLsbD _ (Nat.mod_lt _ (by omega)) _ (Nat.mod_lt _ (by omega)), Bool.and_comm]
    have hj : j % 8 < 8 := Nat.mod_lt _ (by omega)
    have : decide (j % 8 = i % 8) = decide (j = i) := decide_eq_decide.mpr ⟨fun _ => by omega, fun _ => by omega⟩
    rw [this, decide_eq_true hj, Bool.true_and]
  · rw [clearBit, bit_splice_ne _ _ h, decide_eq_false (fun e => h (by rw [e])), Bool.not_false, Bool.true_and]

end Bytes

end Xv6.Lib
