import Mathlib.Data.Nat.Log
import Mathlib.Data.Rat.Floor
import Mathlib.Tactic.Linarith

/-!
# The binary64 format

A `double` as its 64 bits: sign, eleven bits of exponent, 52 bits of fraction.
`ofInt` and `truncate` are the conversions from and to an integer type;
`value` is the number that they are about.
-/

namespace Binary64

def sign (bits : UInt64) : Bool := decide (2 ^ 63 ≤ bits.toNat)

def exponent (bits : UInt64) : ℕ := bits.toNat / 2 ^ 52 % 2 ^ 11

def fraction (bits : UInt64) : ℕ := bits.toNat % 2 ^ 52

/-- Neither an infinity nor a NaN. -/
def IsFinite (bits : UInt64) : Prop := exponent bits ≠ 2047

instance (bits : UInt64) : Decidable (IsFinite bits) :=
  inferInstanceAs (Decidable (exponent bits ≠ 2047))

-- the leading bit is implicit unless the number is subnormal
def significand (bits : UInt64) : ℕ :=
  if exponent bits = 0 then fraction bits else 2 ^ 52 + fraction bits

/-- The last bit of the significand counts `2 ^ (place bits - 1075)`. -/
def place (bits : UInt64) : ℕ := max (exponent bits) 1

/-- The number that the bits of a finite double stand for. -/
def value (bits : UInt64) : ℚ :=
  (if sign bits then -1 else 1) * (significand bits * 2 ^ ((place bits : ℤ) - 1075))

/-! ### To an integer -/

def magnitude (bits : UInt64) : ℕ :=
  if 1075 ≤ place bits then significand bits * 2 ^ (place bits - 1075)
  else significand bits / 2 ^ (1075 - place bits)

/-- The conversion to an integer: the fraction is discarded. -/
def truncate (bits : UInt64) : ℤ :=
  if sign bits then -(magnitude bits : ℤ) else magnitude bits

theorem floor_scaled (bits : UInt64) :
    ⌊(significand bits : ℚ) * 2 ^ ((place bits : ℤ) - 1075)⌋ = magnitude bits := by
  unfold magnitude
  split
  · next hle =>
    have hexp : (place bits : ℤ) - 1075 = (place bits - 1075 : ℕ) := by omega
    have hnat : (significand bits : ℚ) * 2 ^ (place bits - 1075) =
        (significand bits * 2 ^ (place bits - 1075) : ℕ) := by
      rw [Nat.cast_mul, Nat.cast_pow, Nat.cast_ofNat]
    rw [hexp, zpow_natCast, hnat, Int.floor_natCast]
  · next hlt =>
    have hexp : (place bits : ℤ) - 1075 = -(1075 - place bits : ℕ) := by omega
    have hdiv : (significand bits : ℚ) * ((2 ^ (1075 - place bits)) : ℚ)⁻¹ =
        (significand bits : ℚ) / (2 ^ (1075 - place bits) : ℕ) := by
      rw [Nat.cast_pow, Nat.cast_ofNat, div_eq_mul_inv]
    rw [hexp, zpow_neg, zpow_natCast, hdiv]
    exact Rat.floor_natCast_div_natCast _ _

/-- Rounding goes toward zero. -/
theorem truncate_eq (bits : UInt64) :
    truncate bits = if value bits < 0 then ⌈value bits⌉ else ⌊value bits⌋ := by
  have hfloor := floor_scaled bits
  have hpos : (0 : ℚ) ≤ significand bits * 2 ^ ((place bits : ℤ) - 1075) :=
    mul_nonneg (Nat.cast_nonneg _) (zpow_nonneg zero_le_two _)
  unfold truncate value
  cases hs : sign bits with
  | false =>
    simp only [Bool.false_eq_true, if_false, one_mul]
    rw [if_neg (not_lt.mpr hpos), hfloor]
  | true =>
    simp only [if_true, neg_one_mul]
    rw [Int.ceil_neg, hfloor]
    split
    · rfl
    · next hnot =>
      have hzero : (significand bits : ℚ) * 2 ^ ((place bits : ℤ) - 1075) = 0 := by linarith
      rw [hzero] at hfloor ⊢
      rw [neg_zero, ← hfloor, Int.floor_zero, neg_zero]

/-! ### From an integer -/

def pack (s : Bool) (e f : ℕ) : UInt64 :=
  UInt64.ofNat ((if s then 2 ^ 63 else 0) + e * 2 ^ 52 + f)

section
variable {s : Bool} {e f : ℕ} (he : e < 2 ^ 11) (hf : f < 2 ^ 52)
include he hf

theorem toNat_pack : (pack s e f).toNat = (if s then 2 ^ 63 else 0) + e * 2 ^ 52 + f := by
  rw [pack, UInt64.toNat_ofNat', Nat.mod_eq_of_lt]
  split <;> omega

theorem sign_pack : sign (pack s e f) = s := by
  rw [sign, toNat_pack he hf]
  cases s with
  | false => simp only [Bool.false_eq_true, if_false, decide_eq_false_iff_not]; omega
  | true => simp only [if_true, decide_eq_true_eq]; omega

theorem exponent_pack : exponent (pack s e f) = e := by
  rw [exponent, toNat_pack he hf]
  split <;> omega

theorem fraction_pack : fraction (pack s e f) = f := by
  rw [fraction, toNat_pack he hf]
  split <;> omega

end

/-- The conversion of an integer that has at most 53 bits. -/
def ofInt (n : ℤ) : UInt64 :=
  if n = 0 then 0
  else pack (n < 0) (1023 + Nat.log 2 n.natAbs)
    (n.natAbs * 2 ^ (52 - Nat.log 2 n.natAbs) - 2 ^ 52)

theorem ofInt_zero : ofInt 0 = 0 := if_pos rfl

/-- The significand of `a` with its leading bit in place 52. -/
theorem normalised {a : ℕ} (h0 : a ≠ 0) (h : a < 2 ^ 53) :
    Nat.log 2 a ≤ 52 ∧ 2 ^ 52 ≤ a * 2 ^ (52 - Nat.log 2 a) ∧
      a * 2 ^ (52 - Nat.log 2 a) < 2 ^ 53 := by
  have hk : Nat.log 2 a ≤ 52 := by
    have hlt := Nat.log_lt_of_lt_pow h0 h
    omega
  have hlow := Nat.pow_log_le_self 2 h0
  have hhigh := Nat.lt_pow_succ_log_self Nat.one_lt_two a
  have hpos : 0 < 2 ^ (52 - Nat.log 2 a) := Nat.two_pow_pos _
  constructor
  · exact hk
  constructor
  · calc 2 ^ 52 = 2 ^ Nat.log 2 a * 2 ^ (52 - Nat.log 2 a) := by
          rw [← Nat.pow_add, Nat.add_sub_cancel' hk]
      _ ≤ a * 2 ^ (52 - Nat.log 2 a) := Nat.mul_le_mul_right _ hlow
  · calc a * 2 ^ (52 - Nat.log 2 a)
        < 2 ^ (Nat.log 2 a + 1) * 2 ^ (52 - Nat.log 2 a) := Nat.mul_lt_mul_of_pos_right hhigh hpos
      _ = 2 ^ 53 := by
          rw [← Nat.pow_add]
          congr 1
          omega

theorem exponent_zero : exponent 0 = 0 := by decide

theorem isFinite_ofInt {n : ℤ} (h : n.natAbs < 2 ^ 53) : IsFinite (ofInt n) := by
  unfold IsFinite ofInt
  split
  · rw [exponent_zero]
    omega
  · next h0 =>
    obtain ⟨hk, hlow, hhigh⟩ := normalised (Int.natAbs_ne_zero.mpr h0) h
    rw [exponent_pack (by omega) (by omega)]
    omega

/-- The conversion is exact. -/
theorem value_ofInt {n : ℤ} (h : n.natAbs < 2 ^ 53) : value (ofInt n) = n := by
  unfold ofInt
  split
  · next h0 =>
    subst h0
    have hsig : significand 0 = 0 := by decide
    rw [value, hsig]
    simp
  · next h0 =>
    obtain ⟨hk, hlow, hhigh⟩ := normalised (Int.natAbs_ne_zero.mpr h0) h
    have he : 1023 + Nat.log 2 n.natAbs < 2 ^ 11 := by omega
    have hf : n.natAbs * 2 ^ (52 - Nat.log 2 n.natAbs) - 2 ^ 52 < 2 ^ 52 := by omega
    have hsig : 2 ^ 52 + (n.natAbs * 2 ^ (52 - Nat.log 2 n.natAbs) - 2 ^ 52) =
        n.natAbs * 2 ^ (52 - Nat.log 2 n.natAbs) := by omega
    have hplace : max (1023 + Nat.log 2 n.natAbs) 1 = 1023 + Nat.log 2 n.natAbs := by omega
    have hscale : ((n.natAbs * 2 ^ (52 - Nat.log 2 n.natAbs) : ℕ) : ℚ) *
        2 ^ (((1023 + Nat.log 2 n.natAbs : ℕ) : ℤ) - 1075) = n.natAbs := by
      rw [Nat.cast_mul, Nat.cast_pow, Nat.cast_ofNat, ← zpow_natCast, mul_assoc,
        ← zpow_add₀ two_ne_zero]
      have hexp : ((52 - Nat.log 2 n.natAbs : ℕ) : ℤ) +
          (((1023 + Nat.log 2 n.natAbs : ℕ) : ℤ) - 1075) = 0 := by omega
      rw [hexp, zpow_zero, mul_one]
    have hne : 1023 + Nat.log 2 n.natAbs ≠ 0 := by omega
    rw [value, sign_pack he hf, significand, place, exponent_pack he hf, fraction_pack he hf,
      if_neg hne, hsig, hplace, hscale, Nat.cast_natAbs]
    by_cases hn : n < 0
    · simp [hn, abs_of_neg hn]
    · simp [hn, abs_of_nonneg (not_lt.mp hn)]

/-- An integer comes back from a double as it was. -/
theorem truncate_ofInt {n : ℤ} (h : n.natAbs < 2 ^ 53) : truncate (ofInt n) = n := by
  rw [truncate_eq, value_ofInt h, Int.ceil_intCast, Int.floor_intCast, ite_self]

end Binary64
