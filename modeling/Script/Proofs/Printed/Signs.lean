import Mathlib
import Script.Number

/-!
# The sign of a number that is read

The number nearest to a decimal has no minus sign. Reading a decimal multiplies or divides two numbers that have
none, and rounding keeps the sign of what it rounds.

What is known of the bits of a `Float`, such as `Float.beq_iff_ne_nan_and_eq`, no part of the library imports, only
the whole.
-/

namespace Script.Number

open Float.Model (UnpackedFloat Format)
open Float.Model.UnpackedFloat (Sign)

/-- Without a minus sign, as what is no number always is. -/
inductive Unsigned : UnpackedFloat → Prop where
  | notANumber : Unsigned .notANumber
  | infinity : Unsigned (.infinity .positive)
  | zero : Unsigned (.zero .positive)
  | finite (mantissa : Nat) (exponent : Int) (hpos : 0 < mantissa) :
      Unsigned (.finite .positive mantissa exponent hpos)

/-! ### Operations -/

section Operations

variable {format : Format}

theorem unsigned_roundWithAccuracy (mantissa : Nat) (exponent : Int) (accuracy) :
    Unsigned (.roundWithAccuracy format .positive mantissa exponent accuracy) := by
  simp only [UnpackedFloat.roundWithAccuracy]
  split
  · exact .zero
  · exact .finite _ _ _

theorem unsigned_ofNat (n : Nat) : Unsigned (.ofNat format n) := by
  simp only [UnpackedFloat.ofNat, UnpackedFloat.ofInt, UnpackedFloat.normalize]
  split
  · next hlt =>
      rw [Int.compare_eq_lt] at hlt
      omega
  · exact .zero
  · exact unsigned_roundWithAccuracy _ _ _

theorem Unsigned.mul {x y : UnpackedFloat} (hx : Unsigned x) (hy : Unsigned y) : Unsigned (x.mul format y) := by
  cases hx <;> cases hy <;> first | constructor | exact unsigned_roundWithAccuracy _ _ _

theorem Unsigned.div {x y : UnpackedFloat} (hx : Unsigned x) (hy : Unsigned y) : Unsigned (x.div format y) := by
  cases hx <;> cases hy <;> first | constructor | exact unsigned_roundWithAccuracy _ _ _

theorem unsigned_ofScientific (digits : Nat) (exponent : Int) : Unsigned (.ofScientific format digits exponent) := by
  simp only [UnpackedFloat.ofScientific]
  split
  · exact .zero
  split
  · exact .infinity
  split
  · exact .zero
  split
  · exact (Unsigned.finite _ _ _).mul (.finite _ _ _)
  · exact (Unsigned.finite _ _ _).div (.finite _ _ _)

end Operations

/-! ### Bits -/

theorem isNegative_eq_false_iff {x : Float} : isNegative x = false ↔ x.toBits.toNat < 2 ^ 63 := by
  have hbits : x.toBits.toNat < 2 ^ 64 := x.toBits.toNat_lt
  have hshift : x.toBits.toNat >>> (63 % 64) = x.toBits.toNat / 2 ^ 63 := Nat.shiftRight_eq_div_pow _ _
  rw [isNegative, beq_eq_false_iff_ne, ne_eq, ← UInt64.toNat_inj, UInt64.toNat_shiftRight]
  simp only [UInt64.toNat_ofNat, Nat.reducePow, Nat.reduceMod] at *
  omega

theorem unpackSign_eq_zero_iff {bits : BitVec 64} :
    @UnpackedFloat.unpackSign .binary64 bits = 0#1 ↔ bits.toNat < 2 ^ 63 := by
  have hbits := bits.isLt
  rw [← BitVec.toNat_inj]
  simp only [UnpackedFloat.unpackSign, BitVec.toNat_cast, BitVec.extractLsb_toNat, Nat.shiftRight_eq_div_pow]
  simp only [BitVec.toNat_ofNat, Nat.reducePow, Nat.reduceAdd, Nat.reduceSub, Nat.zero_mod]
  omega

theorem unpackSign_pack {x : UnpackedFloat} (hx : Unsigned x) :
    UnpackedFloat.unpackSign (x.pack .binary64) = 0#1 := by
  cases hx with
  | notANumber | infinity | zero => exact UnpackedFloat.unpackSign_packComponents _ _ _
  | finite mantissa exponent hpos =>
      simp only [UnpackedFloat.pack]
      split
      · exact UnpackedFloat.unpackSign_packComponents _ _ _
      split
      · exact UnpackedFloat.unpackSign_packComponents _ _ _
      · exact UnpackedFloat.unpackSign_packComponents _ _ _

theorem isNegative_pack {x : UnpackedFloat} (hx : Unsigned x) : isNegative (.ofModel (.pack x)) = false :=
  isNegative_eq_false_iff.mpr (unpackSign_eq_zero_iff.mp (unpackSign_pack hx))

theorem unsigned_unpack {x : Float} (h : isNegative x = false) : Unsigned x.toModel.unpack := by
  have hsign : @UnpackedFloat.unpackSign .binary64 x.toModel.toBits.toBitVec = 0#1 :=
    unpackSign_eq_zero_iff.mpr (isNegative_eq_false_iff.mp h)
  simp only [Float.Model.unpack, UnpackedFloat.unpack, hsign, Sign.ofBitVec, ↓reduceIte]
  split
  · split
    · exact .infinity
    · exact .notANumber
  split
  · split
    · exact .zero
    · exact .finite _ _ _
  · exact .finite _ _ _

/-- Among the numbers without a minus sign there is one zero. -/
theorem beq_zero_iff {x : Float} (hsign : isNegative x = false) : (x == 0) = true ↔ x.toBits.toNat = 0 := by
  have hbits : (0 : Float).toBits.toNat = 0 := by decide +kernel
  rw [← hbits, UInt64.toNat_inj, Float.toBits_inj]
  constructor
  · intro hzero
    obtain ⟨-, -, rfl | ⟨rfl, -⟩ | ⟨rfl, -⟩⟩ := Float.beq_iff_ne_nan_and_eq.mp hzero
    · rfl
    · rfl
    · exact absurd hsign (by decide +kernel)
  · rintro rfl
    decide +kernel

theorem isNegative_mul {x y : Float} (hx : isNegative x = false) (hy : isNegative y = false) :
    isNegative (x * y) = false :=
  isNegative_pack ((unsigned_unpack hx).mul (unsigned_unpack hy))

theorem isNegative_div {x y : Float} (hx : isNegative x = false) (hy : isNegative y = false) :
    isNegative (x / y) = false :=
  isNegative_pack ((unsigned_unpack hx).div (unsigned_unpack hy))

theorem isNegative_ofScientific (digits : Nat) (below : Bool) (exponent : Nat) :
    isNegative (Float.ofScientific digits below exponent) = false := by
  rw [Float.ofScientific]
  split
  · next h =>
    have hpower : ∀ power ∈ Float.exactlyRepresentablePowersOfTen, isNegative power = false := by
      decide +kernel
    have hdigits : isNegative digits.toUInt64.toFloat = false := isNegative_pack (unsigned_ofNat _)
    simp only
    split
    · exact isNegative_div hdigits (hpower _ (Array.getElem_mem _))
    · exact isNegative_mul hdigits (hpower _ (Array.getElem_mem _))
  · exact isNegative_pack (unsigned_ofScientific _ _)

/-- No decimal is read as a number with a minus sign. -/
theorem isNegative_nearest (d : Decimal) : isNegative (nearest d) = false := by
  have hzero : isNegative 0 = false := by decide +kernel
  have hinfinite : isNegative (1 / 0) = false := by decide +kernel
  rw [nearest]
  split
  · exact hzero
  split
  · exact hinfinite
  split
  · exact hzero
  · exact isNegative_ofScientific _ _ _

end Script.Number
