/-!
Decimals and the choice of the shortest one that stands for a binary number.

A binary number stands for all reals that round to it. Of the decimals among those, `Rounding.shortest`
takes one with the fewest digits, and of these the nearest to the number itself, upwards when two are
equally near.
-/

namespace Script

/-- The number `digits · 10 ^ exponent`. -/
structure Decimal where
  digits : Nat
  exponent : Int
deriving DecidableEq, Repr

namespace Decimal

/-- A decimal is a fraction of two naturals, one of which carries the power of ten. -/
def numerator (d : Decimal) : Nat :=
  d.digits * Nat.pow 10 d.exponent.toNat

def denominator (d : Decimal) : Nat :=
  Nat.pow 10 (-d.exponent).toNat

theorem denominator_pos (d : Decimal) : 0 < d.denominator :=
  Nat.pow_pos (by decide)

end Decimal

/-- The reals that round to one binary number: `low / scale` to `high / scale` around `value / scale`.
The two ends belong to it when `closed`. -/
structure Rounding where
  low : Nat
  value : Nat
  high : Nat
  scale : Nat
  closed : Bool
deriving DecidableEq, Repr

namespace Rounding

/-- The interval of `significand · 2 ^ exponent`, which reaches half way to the neighbours. The
neighbour below is twice as near when `narrow`, as it is at a power of two. A tie goes to the even
significand. -/
def ofBinary (significand : Nat) (exponent : Int) (narrow : Bool) : Rounding :=
  let unit := Nat.pow 2 (exponent - 2).toNat
  { low := (4 * significand - if narrow then 1 else 2) * unit
    value := 4 * significand * unit
    high := (4 * significand + 2) * unit
    scale := Nat.pow 2 (2 - exponent).toNat
    closed := significand % 2 == 0 }

def contains (r : Rounding) (d : Decimal) : Bool :=
  let low := r.low * d.denominator
  let point := d.numerator * r.scale
  let high := r.high * d.denominator
  if r.closed then low ≤ point && point ≤ high else low < point && point < high

/-- The number of digits before the decimal point, negative by the zeros that follow it:
`10 ^ (magnitude - 1) ≤ value / scale < 10 ^ magnitude`. -/
def magnitude (r : Rounding) : Int :=
  if r.scale ≤ r.value then (Nat.toDigits 10 (r.value / r.scale)).length
  else 1 - (Nat.toDigits 10 ((r.scale - 1) / r.value)).length

/-- Of the two multiples of `10 ^ exponent` around the number, the one that rounds to it, and the
nearer if both do. -/
def onGrid? (r : Rounding) (exponent : Int) : Option Decimal :=
  let dividend := r.value * Nat.pow 10 (-exponent).toNat
  let divisor := r.scale * Nat.pow 10 exponent.toNat
  let below : Decimal := ⟨dividend / divisor, exponent⟩
  let above : Decimal := ⟨dividend / divisor + 1, exponent⟩
  match r.contains below, r.contains above with
  | true, true => some (if 2 * (dividend % divisor) < divisor then below else above)
  | true, false => some below
  | false, true => some above
  | false, false => none

theorem contains_of_onGrid? {r : Rounding} {exponent : Int} {d : Decimal}
    (h : r.onGrid? exponent = some d) : r.contains d = true := by
  unfold onGrid? at h
  grind

/-- Seventeen significant digits always reach a decimal that rounds to the number. -/
def mostDigits : Nat := 17

/-- The coarsest grid that holds a decimal for the number decides the count of digits. -/
def shortest? (r : Rounding) : Option Decimal :=
  (List.range mostDigits).findSome? fun n => r.onGrid? (r.magnitude - (n + 1 : Nat))

theorem contains_of_shortest? {r : Rounding} {d : Decimal} (h : r.shortest? = some d) :
    r.contains d = true := by
  obtain ⟨_, _, _, _, hd, _⟩ := List.findSome?_eq_some_iff.mp h
  exact contains_of_onGrid? hd

end Rounding

end Script
