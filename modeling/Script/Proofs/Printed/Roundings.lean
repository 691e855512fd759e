import Mathlib.Algebra.Order.Floor.Semifield
import Mathlib.Data.Nat.Cast.Order.Field
import Mathlib.Data.Rat.Floor
import Mathlib.Tactic.Linarith
import Mathlib.Tactic.Positivity
import Mathlib.Tactic.Ring
import Script.Proofs.Printed.Decimals

/-!
# The interval of the reals that round to a number

The intervals of two numbers have nothing in common: where the one ends the next begins, and of two neighbours one
has an even significand and takes the end. Each of them is so wide that some decimal of seventeen digits lies in it.
-/

namespace Script

namespace Rounding

section Ends

variable (r : Rounding)

def lower : ℚ := r.low / r.scale

def center : ℚ := r.value / r.scale

def upper : ℚ := r.high / r.scale

end Ends

variable {r : Rounding} {d : Decimal}

theorem contains_iff (hscale : 0 < r.scale) : r.contains d = true ↔
    if r.closed then r.lower ≤ d.toRat ∧ d.toRat ≤ r.upper else r.lower < d.toRat ∧ d.toRat < r.upper := by
  have hscale : (0 : ℚ) < r.scale := by exact_mod_cast hscale
  have hdenominator : (0 : ℚ) < d.denominator := by exact_mod_cast d.denominator_pos
  rw [d.toRat_eq, lower, upper, contains, div_le_div_iff₀ hscale hdenominator, div_le_div_iff₀ hdenominator hscale,
    div_lt_div_iff₀ hscale hdenominator, div_lt_div_iff₀ hdenominator hscale]
  norm_cast
  split <;> simp

theorem lower_le_of_contains (hscale : 0 < r.scale) (h : r.contains d = true) : r.lower ≤ d.toRat := by
  rw [contains_iff hscale] at h
  split at h
  · exact h.1
  · exact h.1.le

theorem le_upper_of_contains (hscale : 0 < r.scale) (h : r.contains d = true) : d.toRat ≤ r.upper := by
  rw [contains_iff hscale] at h
  split at h
  · exact h.2
  · exact h.2.le

theorem closed_of_contains (hscale : 0 < r.scale) (h : r.contains d = true)
    (hend : d.toRat = r.lower ∨ d.toRat = r.upper) : r.closed = true := by
  by_contra hopen
  rw [contains_iff hscale, if_neg hopen] at h
  rcases hend with hend | hend
  · exact h.1.ne' hend
  · exact h.2.ne hend

/-! ### Grids -/

/-- The last multiple of a power of ten that is no greater than the number. -/
def gridFloor (r : Rounding) (exponent : Int) : Nat :=
  r.value * Nat.pow 10 (-exponent).toNat / (r.scale * Nat.pow 10 exponent.toNat)

section Grid

variable (hscale : 0 < r.scale) (exponent : Int)
include hscale

theorem gridFloor_eq : r.gridFloor exponent = ⌊r.center / 10 ^ exponent⌋₊ := by
  rw [gridFloor, ← Nat.floor_div_eq_div (K := ℚ), center, zpow_eq_pow_div_pow (by decide)]
  push_cast [Nat.pow_eq]
  congr 1
  field_simp

theorem toRat_gridFloor_le : Decimal.toRat ⟨r.gridFloor exponent, exponent⟩ ≤ r.center := by
  have hpower : (0 : ℚ) < 10 ^ exponent := by positivity
  have hcenter : 0 ≤ r.center / 10 ^ exponent := by
    rw [center]
    positivity
  rw [Decimal.toRat, ← le_div_iff₀ hpower, gridFloor_eq hscale]
  exact Nat.floor_le hcenter

theorem lt_toRat_gridFloor : r.center < Decimal.toRat ⟨r.gridFloor exponent + 1, exponent⟩ := by
  have hpower : (0 : ℚ) < 10 ^ exponent := by positivity
  rw [Decimal.toRat, ← div_lt_iff₀ hpower, gridFloor_eq hscale]
  push_cast
  exact Nat.lt_floor_add_one _

/-- A grid that is finer than the interval is wide has a point in it. -/
theorem isSome_onGrid? (hlower : r.lower < r.center) (hupper : r.center < r.upper)
    (hwidth : (10 : ℚ) ^ exponent < r.upper - r.lower) : (r.onGrid? exponent).isSome = true := by
  have hbelow := toRat_gridFloor_le hscale exponent
  have habove := lt_toRat_gridFloor hscale exponent
  have hstep : Decimal.toRat ⟨r.gridFloor exponent + 1, exponent⟩ =
      Decimal.toRat ⟨r.gridFloor exponent, exponent⟩ + 10 ^ exponent := by
    simp only [Decimal.toRat]
    push_cast
    ring
  have hsome (hcontains : r.contains ⟨r.gridFloor exponent, exponent⟩ = true ∨
      r.contains ⟨r.gridFloor exponent + 1, exponent⟩ = true) : (r.onGrid? exponent).isSome = true := by
    simp only [gridFloor] at hcontains
    unfold onGrid?
    simp only
    split <;> simp_all
  apply hsome
  simp only [contains_iff hscale]
  by_contra hnone
  split at hnone <;> grind

end Grid

/-- The digits of a number that is no less than one begin before the point. -/
theorem pow_length_toDigits_le {n : Nat} (hn : 0 < n) : 10 ^ ((Nat.toDigits 10 n).length - 1) ≤ n := by
  by_contra hlt
  by_cases hone : (Nat.toDigits 10 n).length = 1
  · rw [hone] at hlt
    omega
  · have hpos := Nat.length_toDigits_pos (b := 10) (n := n)
    have hshorter : 0 < (Nat.toDigits 10 n).length - 1 := by omega
    have hle := (Nat.length_toDigits_le_iff (by decide) hshorter).mpr (not_le.mp hlt)
    omega

theorem lt_pow_length_toDigits (n : Nat) : n < 10 ^ (Nat.toDigits 10 n).length :=
  (Nat.length_toDigits_le_iff (by decide) Nat.length_toDigits_pos).mp le_rfl

/-- The first digit of a number is not a zero. -/
theorem pow_magnitude_le (hscale : 0 < r.scale) (hvalue : 0 < r.value) : (10 : ℚ) ^ (r.magnitude - 1) ≤ r.center := by
  have hscale' : (0 : ℚ) < r.scale := by exact_mod_cast hscale
  unfold magnitude
  split
  · next hle =>
      have hwhole : 0 < r.value / r.scale := Nat.div_pos hle hscale
      have hlength := Nat.length_toDigits_pos (b := 10) (n := r.value / r.scale)
      have hpower := pow_length_toDigits_le hwhole
      calc (10 : ℚ) ^ (((Nat.toDigits 10 (r.value / r.scale)).length : Int) - 1)
          = ((10 ^ ((Nat.toDigits 10 (r.value / r.scale)).length - 1) : Nat) : ℚ) := by
            push_cast
            rw [← zpow_natCast]
            congr 1
            omega
        _ ≤ ((r.value / r.scale : Nat) : ℚ) := by exact_mod_cast hpower
        _ ≤ r.center := Nat.cast_div_le
  · have hpower := lt_pow_length_toDigits ((r.scale - 1) / r.value)
    rw [Nat.div_lt_iff_lt_mul hvalue] at hpower
    rw [center, le_div_iff₀ hscale', sub_sub, add_comm, ← sub_sub, sub_self, zero_sub, zpow_neg, zpow_natCast]
    rw [inv_mul_le_iff₀ (by positivity)]
    norm_cast
    omega

theorem isSome_shortest? (hscale : 0 < r.scale) (hvalue : 0 < r.value) (hlower : r.lower < r.center)
    (hupper : r.center < r.upper) (hwidth : r.center < 10 ^ 16 * (r.upper - r.lower)) :
    r.shortest?.isSome = true := by
  have hpower : (10 : ℚ) ^ (r.magnitude - 17) < r.upper - r.lower := by
    have hmagnitude := pow_magnitude_le hscale hvalue
    have hsplit : (10 : ℚ) ^ (r.magnitude - 1) = 10 ^ 16 * 10 ^ (r.magnitude - 17) := by
      rw [show r.magnitude - 1 = 16 + (r.magnitude - 17) by omega, zpow_add₀ (by decide)]
      norm_cast
    linarith
  have hgrid := isSome_onGrid? hscale _ hlower hupper hpower
  rw [shortest?, List.findSome?_isSome_iff]
  exact ⟨16, by decide, hgrid⟩

/-! ### Binary numbers -/

section Binary

variable {significand : Nat} {exponent : Int} {narrow : Bool}

theorem scale_ofBinary_pos : 0 < (ofBinary significand exponent narrow).scale :=
  Nat.pow_pos (by decide)

theorem unit_div_scale (factor : Nat) : ((factor * Nat.pow 2 (exponent - 2).toNat : Nat) : ℚ) /
    (ofBinary significand exponent narrow).scale = factor * 2 ^ (exponent - 2) := by
  rw [zpow_eq_pow_div_pow (by decide) (exponent - 2), neg_sub, ofBinary]
  push_cast [Nat.pow_eq]
  rw [mul_div_assoc]

theorem center_ofBinary : (ofBinary significand exponent narrow).center =
    (4 * significand : Nat) * 2 ^ (exponent - 2) :=
  unit_div_scale _

theorem lower_ofBinary : (ofBinary significand exponent narrow).lower =
    (4 * significand - if narrow then 1 else 2 : Nat) * 2 ^ (exponent - 2) :=
  unit_div_scale _

theorem upper_ofBinary : (ofBinary significand exponent narrow).upper =
    (4 * significand + 2 : Nat) * 2 ^ (exponent - 2) :=
  unit_div_scale _

theorem upper_ofBinary_succ : (ofBinary significand exponent narrow).upper =
    (ofBinary (significand + 1) exponent false).lower := by
  rw [upper_ofBinary, lower_ofBinary]
  congr 2

/-- Above a power of two the neighbours are twice as far. -/
theorem upper_ofBinary_pow : (ofBinary (2 ^ 53 - 1) exponent narrow).upper =
    (ofBinary (2 ^ 52) (exponent + 1) true).lower := by
  rw [upper_ofBinary, lower_ofBinary, show exponent + 1 - 2 = exponent - 2 + 1 by omega, zpow_add₀ (by decide)]
  norm_num
  ring

/-- A significand has at most fifty-three bits, of which only the first is set at a power of two. -/
structure Representable (significand : Nat) (narrow : Bool) : Prop where
  pos : 0 < significand
  lt : significand < 2 ^ 53
  eq_of_narrow : narrow = true → significand = 2 ^ 52

theorem lower_pos (h : Representable significand narrow) : 0 < (ofBinary significand exponent narrow).lower := by
  have hpos := h.pos
  have hunits : 0 < 4 * significand - if narrow then 1 else 2 := by split <;> omega
  rw [lower_ofBinary]
  positivity

theorem lower_lt_center (h : Representable significand narrow) :
    (ofBinary significand exponent narrow).lower < (ofBinary significand exponent narrow).center := by
  have hpos := h.pos
  have hunits : (4 * significand - if narrow then 1 else 2) < 4 * significand := by split <;> omega
  rw [lower_ofBinary, center_ofBinary]
  gcongr

theorem center_lt_upper :
    (ofBinary significand exponent narrow).center < (ofBinary significand exponent narrow).upper := by
  rw [center_ofBinary, upper_ofBinary]
  gcongr
  omega

/-- The interval is wider than one unit of the seventeenth digit. -/
theorem center_lt_width (h : Representable significand narrow) :
    (ofBinary significand exponent narrow).center <
      10 ^ 16 * ((ofBinary significand exponent narrow).upper - (ofBinary significand exponent narrow).lower) := by
  have hlt := h.lt
  have hunits : 4 * significand + 10 ^ 16 * (4 * significand - if narrow then 1 else 2) <
      10 ^ 16 * (4 * significand + 2) := by
    split
    · next hpower =>
        rw [h.eq_of_narrow hpower]
        norm_num
    · omega
  have hpower : (0 : ℚ) < 2 ^ (exponent - 2) := by positivity
  rw [center_ofBinary, upper_ofBinary, lower_ofBinary]
  rw [← sub_mul, ← mul_assoc]
  gcongr
  rw [mul_sub, lt_sub_iff_add_lt]
  exact_mod_cast hunits

end Binary

/-- The interval of a positive number, by its bits. -/
def ofBits (bits : Nat) : Rounding :=
  if bits / 2 ^ 52 % 2 ^ 11 = 0 then .ofBinary (bits % 2 ^ 52) (-1074) false
  else .ofBinary (2 ^ 52 + bits % 2 ^ 52) ((bits / 2 ^ 52 % 2 ^ 11 : Nat) - 1075)
    (bits % 2 ^ 52 == 0 && bits / 2 ^ 52 % 2 ^ 11 != 1)

theorem rounding_eq (x : Float) : Number.rounding x = ofBits x.toBits.toNat :=
  rfl

/-- The interval of a positive number is that of a representable significand, with the parity of the bits. -/
theorem exists_ofBits {bits : Nat} (hpos : 0 < bits) (hbits : bits < 2 ^ 63) :
    ∃ significand exponent narrow, ofBits bits = .ofBinary significand exponent narrow ∧
      Representable significand narrow ∧ significand % 2 = bits % 2 := by
  unfold ofBits
  simp only [Nat.reducePow] at *
  split
  · exact ⟨_, _, _, rfl, ⟨by omega, by omega, nofun⟩, by omega⟩
  · refine ⟨_, _, _, rfl, ⟨by omega, by omega, fun hnarrow => ?_⟩, by omega⟩
    rw [Bool.and_eq_true, beq_iff_eq] at hnarrow
    simp only [hnarrow.1, Nat.add_zero, Nat.reducePow]

/-- The interval of a number ends where that of the next one begins. -/
theorem upper_ofBits {bits : Nat} (hbits : bits + 1 < 2 ^ 63) :
    (ofBits bits).upper = (ofBits (bits + 1)).lower := by
  unfold ofBits
  simp only [Nat.reducePow] at *
  by_cases hlast : bits % 4503599627370496 + 1 = 4503599627370496
  · have hfraction : bits % 4503599627370496 = 4503599627370495 := by omega
    have hfraction' : (bits + 1) % 4503599627370496 = 0 := by omega
    have hexponent : (bits + 1) / 4503599627370496 % 2048 = bits / 4503599627370496 % 2048 + 1 := by omega
    rw [hfraction, hfraction', hexponent]
    split
    · next hsubnormal =>
        have hfirst : ((0 + 1 : Nat) : Int) - 1075 = -1074 := rfl
        rw [hsubnormal, if_neg (Nat.succ_ne_zero _), hfirst]
        exact upper_ofBinary_succ
    · next hnormal =>
        have hnarrow : (bits / 4503599627370496 % 2048 + 1 != 1) = true := by
          rw [bne_iff_ne]
          omega
        rw [if_neg (Nat.succ_ne_zero _), hnarrow]
        push_cast
        rw [add_sub_right_comm]
        exact upper_ofBinary_pow
  · have hfraction : (bits + 1) % 4503599627370496 = bits % 4503599627370496 + 1 := by omega
    have hexponent : (bits + 1) / 4503599627370496 % 2048 = bits / 4503599627370496 % 2048 := by omega
    rw [hfraction, hexponent]
    split
    · exact upper_ofBinary_succ
    · exact upper_ofBinary_succ

theorem lower_lt_upper {bits : Nat} (hpos : 0 < bits) (hbits : bits < 2 ^ 63) :
    (ofBits bits).lower < (ofBits bits).upper := by
  obtain ⟨significand, exponent, narrow, heq, hrepresentable, -⟩ := exists_ofBits hpos hbits
  rw [heq]
  exact (lower_lt_center hrepresentable).trans center_lt_upper

/-- The interval of a greater number begins later. -/
theorem upper_le_lower {bits bits' : Nat} (hpos : 0 < bits) (hlt : bits < bits') (hbits : bits' < 2 ^ 63) :
    (ofBits bits).upper ≤ (ofBits bits').lower := by
  induction bits', hlt using Nat.le_induction with
  | base => exact (upper_ofBits hbits).le
  | succ next hnext ih =>
      calc (ofBits bits).upper
          ≤ (ofBits next).lower := ih (by omega)
        _ ≤ (ofBits next).upper := (lower_lt_upper (by omega) (by omega)).le
        _ = (ofBits (next + 1)).lower := upper_ofBits hbits

theorem scale_ofBits_pos (bits : Nat) : 0 < (ofBits bits).scale := by
  unfold ofBits
  split <;> exact scale_ofBinary_pos

theorem even_of_closed {bits : Nat} (hpos : 0 < bits) (hbits : bits < 2 ^ 63) (h : (ofBits bits).closed = true) :
    bits % 2 = 0 := by
  obtain ⟨significand, exponent, narrow, heq, -, hparity⟩ := exists_ofBits hpos hbits
  rw [heq, ofBinary, beq_iff_eq] at h
  omega

theorem bits_le_of_contains {bits bits' : Nat} {d d' : Decimal} (hpos : 0 < bits) (hbits : bits' < 2 ^ 63)
    (h : (ofBits bits).contains d = true) (h' : (ofBits bits').contains d' = true) (hsame : d.toRat = d'.toRat) :
    bits' ≤ bits := by
  by_contra hlt
  rw [not_le] at hlt
  have hupper := le_upper_of_contains (scale_ofBits_pos _) h
  have hlower := lower_le_of_contains (scale_ofBits_pos _) h'
  have hends := upper_le_lower hpos hlt hbits
  -- the decimal is the end of both, which only even ones take
  have heven := even_of_closed hpos (by omega) (closed_of_contains (scale_ofBits_pos _) h (.inr (by linarith)))
  have heven' :=
    even_of_closed (by omega) hbits (closed_of_contains (scale_ofBits_pos _) h' (.inl (by linarith)))
  have hbetween : bits + 1 < bits' := by omega
  have hnext := lower_lt_upper (Nat.succ_pos bits) (by omega)
  have hnext' := upper_le_lower (Nat.succ_pos bits) hbetween hbits
  rw [← upper_ofBits (by omega)] at hnext
  linarith

/-- A decimal rounds to one number only. -/
theorem bits_eq_of_contains {bits bits' : Nat} {d d' : Decimal} (hpos : 0 < bits) (hpos' : 0 < bits')
    (hbits : bits < 2 ^ 63) (hbits' : bits' < 2 ^ 63) (h : (ofBits bits).contains d = true)
    (h' : (ofBits bits').contains d' = true) (hsame : d.toRat = d'.toRat) : bits = bits' :=
  le_antisymm (bits_le_of_contains hpos' hbits h' h hsame.symm) (bits_le_of_contains hpos hbits' h h' hsame)

/-- Every positive number has a shortest decimal, and that is positive. -/
theorem exists_shortest? {bits : Nat} (hpos : 0 < bits) (hbits : bits < 2 ^ 63) :
    ∃ d, (ofBits bits).shortest? = some d ∧ (ofBits bits).contains d = true ∧ 0 < d.toRat := by
  obtain ⟨significand, exponent, narrow, heq, hrepresentable, -⟩ := exists_ofBits hpos hbits
  have hvalue : 0 < (ofBinary significand exponent narrow).value :=
    Nat.mul_pos (Nat.mul_pos (by decide) hrepresentable.pos) (Nat.pow_pos (by decide))
  obtain ⟨d, hd⟩ := Option.isSome_iff_exists.mp (isSome_shortest? scale_ofBinary_pos hvalue
    (lower_lt_center hrepresentable) center_lt_upper (center_lt_width hrepresentable))
  have hcontains := contains_of_shortest? hd
  rw [heq]
  exact ⟨d, hd, hcontains,
    (lower_pos hrepresentable).trans_le (lower_le_of_contains scale_ofBinary_pos hcontains)⟩

end Rounding

end Script
