import Script.Proofs.Printed.Roundings
import Script.Proofs.Printed.Signs

/-!
# The text of a number

A finite number without a minus sign is written as a numeral, and no two such numbers are written alike: a numeral
is read as one value, and a value rounds to one number.
-/

namespace Script.Number

theorem isNaN_isInf_of_isFinite {x : Float} (h : x.isFinite = true) : x.isNaN = false ∧ x.isInf = false := by
  change x.toModel.unpack.isFinite = true at h
  change x.toModel.unpack.isNaN = false ∧ x.toModel.unpack.isInf = false
  generalize x.toModel.unpack = y at *
  cases y with
  | infinity | notANumber => cases h
  | zero | finite => exact ⟨rfl, rfl⟩

/-- What is written for the bits of a number: zero, or a decimal that rounds to the number. -/
inductive Written (bits : Nat) (text : List Char) : Prop where
  | zero (hbits : bits = 0) (htext : text = ['0'])
  | positive {d : Decimal} (hbits : 0 < bits) (hcontains : (Rounding.ofBits bits).contains d = true)
      (hpos : 0 < d.toRat) (htext : text = positional d)

theorem written_render {x : Float} (hfinite : x.isFinite = true) (hsign : isNegative x = false) :
    Written x.toBits.toNat (render x).toList := by
  obtain ⟨hnan, hinf⟩ := isNaN_isInf_of_isFinite hfinite
  have htext : (render x).toList =
      if x == 0 then ['0'] else (rounding x).shortest?.elim ['0'] positional := by
    simp only [render, magnitudeText, hnan, hinf, hsign, Bool.false_eq_true, ↓reduceIte, String.toList_ofList]
  rw [htext]
  split
  · next hzero => exact .zero ((beq_zero_iff hsign).mp hzero) rfl
  · next hpos =>
      rw [beq_zero_iff hsign, ← ne_eq, ← Nat.pos_iff_ne_zero] at hpos
      obtain ⟨d, hd, hcontains, hvalue⟩ := Rounding.exists_shortest? hpos (isNegative_eq_false_iff.mp hsign)
      rw [Rounding.rounding_eq, hd]
      exact .positive hpos hcontains hvalue rfl

theorem Written.numeral {bits : Nat} {text : List Char} (h : Written bits text) : Numeral text := by
  cases h with
  | zero _ htext => exact htext ▸ .whole (List.cons_ne_nil _ _) (List.forall_mem_singleton.mpr rfl)
  | positive _ _ _ htext => exact htext ▸ numeral_positional _

/-- The value of what is written. -/
theorem Written.exists_decimal {bits : Nat} {text : List Char} (h : Written bits text) :
    ∃ d, decimal? text = some d ∧ (bits = 0 ∧ d.toRat = 0 ∨
      0 < bits ∧ 0 < d.toRat ∧ ∃ d', (Rounding.ofBits bits).contains d' = true ∧ d'.toRat = d.toRat) := by
  cases h with
  | zero hbits htext =>
      subst htext
      exact ⟨⟨0, 0⟩, by decide, .inl ⟨hbits, by simp [Decimal.toRat]⟩⟩
  | @positive written hbits hcontains hpos htext =>
      obtain ⟨d, hread, hvalue⟩ := decimal?_positional written
      exact ⟨d, htext ▸ hread, .inr ⟨hbits, hvalue ▸ hpos, _, hcontains, hvalue.symm⟩⟩

theorem Written.unique {bits bits' : Nat} {text : List Char} (h : Written bits text) (h' : Written bits' text)
    (hbits : bits < 2 ^ 63) (hbits' : bits' < 2 ^ 63) : bits = bits' := by
  obtain ⟨d, hread, hvalue⟩ := h.exists_decimal
  obtain ⟨d', hread', hvalue'⟩ := h'.exists_decimal
  obtain rfl := Option.some.inj (hread.symm.trans hread')
  rcases hvalue with ⟨rfl, hzero⟩ | ⟨hpos, hvalue, number, hcontains, hsame⟩ <;>
    rcases hvalue' with ⟨rfl, hzero'⟩ | ⟨hpos', hvalue', number', hcontains', hsame'⟩
  · rfl
  · exact absurd hzero hvalue'.ne'
  · exact absurd hzero' hvalue.ne'
  · exact Rounding.bits_eq_of_contains hpos hpos' hbits hbits' hcontains hcontains' (hsame.trans hsame'.symm)

section Render

variable {x y : Float} (hx : x.isFinite = true) (hxsign : isNegative x = false)
include hx hxsign

theorem numeral_render : Numeral (render x).toList :=
  (written_render hx hxsign).numeral

theorem render_inj (hy : y.isFinite = true) (hysign : isNegative y = false) (h : render x = render y) : x = y :=
  Float.toBits_inj.mp (UInt64.toNat_inj.mp ((written_render hx hxsign).unique (h ▸ written_render hy hysign)
    (isNegative_eq_false_iff.mp hxsign) (isNegative_eq_false_iff.mp hysign)))

end Render

end Script.Number
