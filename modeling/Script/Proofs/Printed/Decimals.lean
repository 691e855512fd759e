import Mathlib.Algebra.Order.Field.Power
import Mathlib.Algebra.Order.Field.Rat
import Mathlib.Tactic.FieldSimp
import Script.Proofs.Scanning.Spelling

/-!
# Decimals written out

A decimal written out is a numeral, and the numeral is read as a decimal of the same value: only zeros are added in
front, and only zeros of the fraction are left out.
-/

namespace Script

/-- A power is a fraction, in which only one side has a factor. -/
theorem zpow_eq_pow_div_pow {base : ℚ} (hbase : base ≠ 0) (exponent : Int) :
    base ^ exponent = base ^ exponent.toNat / base ^ (-exponent).toNat := by
  rw [← zpow_natCast, ← zpow_natCast, ← zpow_sub₀ hbase]
  congr 1
  omega

namespace Decimal

/-- The value of a decimal. -/
def toRat (d : Decimal) : ℚ :=
  d.digits * (10 : ℚ) ^ d.exponent

theorem toRat_eq (d : Decimal) : d.toRat = d.numerator / d.denominator := by
  rw [toRat, zpow_eq_pow_div_pow (by decide), numerator, denominator, Nat.pow_eq, Nat.pow_eq]
  push_cast
  rw [mul_div_assoc]

end Decimal

namespace Number

/-! ### Values of digits -/

theorem digitsValue_eq (digits : List Char) : digitsValue digits = Nat.ofDigitChars 10 digits 0 := by
  simp only [digitsValue, Nat.ofDigitChars_eq_foldl, Nat.mul_comm]

@[simp]
theorem digitsValue_toDigits (n : Nat) : digitsValue (Nat.toDigits 10 n) = n := by
  rw [digitsValue_eq, Nat.ofDigitChars_ten_toDigits]

@[simp]
theorem digitsValue_zeros_append (count : Nat) (digits : List Char) :
    digitsValue (List.replicate count '0' ++ digits) = digitsValue digits := by
  simp [digitsValue_eq, Nat.ofDigitChars_append]

@[simp]
theorem digitsValue_append_zeros (digits : List Char) (count : Nat) :
    digitsValue (digits ++ List.replicate count '0') = 10 ^ count * digitsValue digits := by
  simp [digitsValue_eq, Nat.ofDigitChars_append]

theorem isDigit_of_mem_zeros {count : Nat} {c : Char} (h : c ∈ List.replicate count '0') : c.isDigit = true :=
  List.eq_of_mem_replicate h ▸ rfl

theorem isDigit_of_mem_toDigits {n : Nat} {c : Char} (h : c ∈ Nat.toDigits 10 n) : c.isDigit = true :=
  Nat.isDigit_of_mem_toDigits (by decide) (by decide) h

/-! ### Positions -/

/-- Digits end in some zeros. -/
theorem exists_append_zeros (digits : List Char) :
    ∃ count, digits = (digits.reverse.dropWhile (· == '0')).reverse ++ List.replicate count '0' := by
  have hzeros : ∀ c ∈ digits.reverse.takeWhile (· == '0'), c = '0' := fun c hc =>
    eq_of_beq (List.all_eq_true.mp List.all_takeWhile c hc)
  refine ⟨(digits.reverse.takeWhile (· == '0')).length, ?_⟩
  rw [← List.reverse_replicate, ← List.eq_replicate_of_mem hzeros, ← List.reverse_append,
    List.takeWhile_append_dropWhile, List.reverse_reverse]

/-- The digits on the two sides of the point. Those of the fraction may be none. -/
structure Placed (d : Decimal) (whole fraction : List Char) : Prop where
  ne_nil : whole ≠ []
  isDigit : ∀ c ∈ whole ++ fraction, c.isDigit = true
  toRat : Decimal.toRat ⟨digitsValue (whole ++ fraction), -fraction.length⟩ = d.toRat

theorem placed_whole {d : Decimal} (h : 0 ≤ d.exponent) :
    Placed d (Nat.toDigits 10 d.digits ++ List.replicate d.exponent.toNat '0') [] where
  ne_nil := by simp
  isDigit c hc := by
    rw [List.append_nil] at hc
    exact (List.mem_append.mp hc).elim isDigit_of_mem_toDigits isDigit_of_mem_zeros
  toRat := by
    obtain ⟨digits, exponent⟩ := d
    obtain ⟨exponent, rfl⟩ := Int.eq_ofNat_of_zero_le h
    simp [Decimal.toRat, mul_comm]

theorem placed_fraction {d : Decimal} (h : ¬0 ≤ d.exponent) (count : Nat) {padded : List Char}
    (hpadded : padded = List.replicate count '0' ++ Nat.toDigits 10 d.digits) {places : Nat}
    (hplaces : places = (-d.exponent).toNat) (hlength : places < padded.length) :
    Placed d (padded.take (padded.length - places))
      ((padded.drop (padded.length - places)).reverse.dropWhile (· == '0')).reverse := by
  obtain ⟨zeros, hzeros⟩ := exists_append_zeros (padded.drop (padded.length - places))
  generalize hwhole : padded.take (padded.length - places) = whole
  generalize ((padded.drop (padded.length - places)).reverse.dropWhile (· == '0')).reverse = fraction at hzeros
  have hcut : padded = whole ++ fraction ++ List.replicate zeros '0' := by
    rw [← hwhole, List.append_assoc, ← hzeros, List.take_append_drop]
  refine ⟨?_, ?_, ?_⟩
  · rw [← List.length_pos_iff, ← hwhole, List.length_take]
    omega
  · intro c hc
    have hc : c ∈ padded := hcut ▸ List.mem_append_left _ hc
    rw [hpadded] at hc
    exact (List.mem_append.mp hc).elim isDigit_of_mem_zeros isDigit_of_mem_toDigits
  · have hvalue : d.digits = 10 ^ zeros * digitsValue (whole ++ fraction) := by
      rw [← digitsValue_append_zeros, ← hcut, hpadded, digitsValue_zeros_append, digitsValue_toDigits]
    have hexponent : d.exponent = -fraction.length - zeros := by
      have hdrop := congrArg List.length hzeros
      rw [List.length_drop, List.length_append, List.length_replicate] at hdrop
      omega
    rw [Decimal.toRat, Decimal.toRat, hvalue, hexponent, zpow_sub₀ (by decide)]
    push_cast
    rw [zpow_natCast]
    field_simp

/-- Digits with a point and a fraction, if there is one. -/
def pointed (whole fraction : List Char) : List Char :=
  if fraction.isEmpty then whole else whole ++ '.' :: fraction

theorem exists_placed (d : Decimal) :
    ∃ whole fraction, Placed d whole fraction ∧ positional d = pointed whole fraction := by
  unfold positional pointed
  by_cases hsign : 0 ≤ d.exponent
  · exact ⟨_, [], placed_whole hsign, if_pos hsign⟩
  · simp only [if_neg hsign]
    let missing := (-d.exponent).toNat + 1 - (Nat.toDigits 10 d.digits).length
    refine ⟨_, _, placed_fraction hsign missing rfl rfl ?_, ?_⟩
    · rw [List.length_append, List.length_replicate]
      omega
    · rw [List.isEmpty_reverse]

/-! ### Reading -/

theorem Placed.numeral {d : Decimal} {whole fraction : List Char} (h : Placed d whole fraction) :
    Numeral (pointed whole fraction) := by
  obtain ⟨hwhole, hfraction⟩ := List.forall_mem_append.mp h.isDigit
  unfold pointed
  split
  · exact .whole h.ne_nil hwhole
  · next hne => exact .fraction h.ne_nil hwhole (by simpa using hne) hfraction

theorem Placed.decimal? {d : Decimal} {whole fraction : List Char} (h : Placed d whole fraction) :
    decimal? (pointed whole fraction) = some ⟨digitsValue (whole ++ fraction), -fraction.length⟩ := by
  obtain ⟨hwhole, hfraction⟩ := List.forall_mem_append.mp h.isDigit
  unfold pointed
  split
  · next hnil =>
      rw [List.isEmpty_iff] at hnil
      subst hnil
      rw [List.append_nil]
      exact decimal?_whole h.ne_nil hwhole
  · exact decimal?_fraction h.ne_nil hwhole hfraction

theorem numeral_positional (d : Decimal) : Numeral (positional d) := by
  obtain ⟨whole, fraction, hplaced, htext⟩ := exists_placed d
  exact htext ▸ hplaced.numeral

/-- A decimal written out is read as a decimal of the same value. -/
theorem decimal?_positional (d : Decimal) : ∃ d', decimal? (positional d) = some d' ∧ d'.toRat = d.toRat := by
  obtain ⟨whole, fraction, hplaced, htext⟩ := exists_placed d
  exact ⟨_, htext ▸ hplaced.decimal?, hplaced.toRat⟩

end Number

end Script
