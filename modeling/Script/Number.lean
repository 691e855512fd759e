import Script.Decimal

/-!
The text of numbers. A number is written with the fewest digits that read back, always positionally:
no exponent, no point on a whole number, and a sign on the negative zero.
-/

namespace Script.Number

/-- Whether a number has a minus sign. Zero may have one. -/
def isNegative (x : Float) : Bool :=
  x.toBits >>> 63 == 1

/-- The interval of the reals that round to a positive finite number, read off its bits. -/
def rounding (x : Float) : Rounding :=
  let bits := x.toBits.toNat
  let fraction := bits % Nat.pow 2 52
  let exponent : Nat := bits / Nat.pow 2 52 % Nat.pow 2 11
  if exponent = 0 then .ofBinary fraction (-1074) false
  else .ofBinary (Nat.pow 2 52 + fraction) ((exponent : Int) - 1075) (fraction == 0 && exponent != 1)

/-- Digits with their decimal point, or with the zeros that reach up to it. -/
def positional (d : Decimal) : List Char :=
  let digits := Nat.toDigits 10 d.digits
  if 0 ≤ d.exponent then digits ++ List.replicate d.exponent.toNat '0'
  else
    let places := (-d.exponent).toNat
    let padded := List.replicate (places + 1 - digits.length) '0' ++ digits
    let whole := padded.take (padded.length - places)
    let fraction := (padded.drop (padded.length - places)).reverse.dropWhile (· == '0')
    if fraction.isEmpty then whole else whole ++ '.' :: fraction.reverse

def magnitudeText (x : Float) : List Char :=
  if x.isInf then "inf".toList
  else if x == 0 then ['0']
  else (rounding x).shortest?.elim ['0'] positional

def render (x : Float) : String :=
  if x.isNaN then "NaN"
  else String.ofList (if isNegative x then '-' :: magnitudeText (-x) else magnitudeText x)

def digitsValue (digits : List Char) : Nat :=
  digits.foldl (fun value c => value * 10 + (c.toNat - '0'.toNat)) 0

/-- Whether a text has a minus sign, and what follows its sign. -/
def splitSign : List Char → Bool × List Char
  | '-' :: rest => (true, rest)
  | '+' :: rest => (false, rest)
  | text => (false, text)

/-- The exponent at the end of a numeral: nothing, or a mark, a sign and at least one digit. -/
def exponent? : List Char → Option Int
  | [] => some 0
  | mark :: rest =>
    let (negative, digits) := splitSign rest
    if (mark == 'e' || mark == 'E') && !digits.isEmpty && digits.all Char.isDigit then
      some (if negative then -(digitsValue digits : Int) else digitsValue digits)
    else none

/-- Digits with at most one point among them, at least one digit, then an optional exponent. -/
def decimal? (text : List Char) : Option Decimal :=
  let whole := text.takeWhile Char.isDigit
  let (fraction, rest) := match text.dropWhile Char.isDigit with
    | '.' :: rest => (rest.takeWhile Char.isDigit, rest.dropWhile Char.isDigit)
    | rest => ([], rest)
  if whole.isEmpty && fraction.isEmpty then none
  else (exponent? rest).map fun e => ⟨digitsValue (whole ++ fraction), e - fraction.length⟩

/-- The number nearest to a decimal. Decimals far beyond the range of numbers are settled by their
exponent alone. -/
def nearest (d : Decimal) : Float :=
  if d.digits = 0 then 0
  else if 310 < d.exponent then 1 / 0
  else if d.exponent < -(d.digits.log2 + 350 : Nat) then 0
  else Float.ofScientific d.digits (d.exponent < 0) d.exponent.natAbs

def magnitude? (text : List Char) : Option Float :=
  let word := String.ofList (text.map Char.toLower)
  if word == "inf" || word == "infinity" then some (1 / 0)
  else if word == "nan" then some (0 / 0)
  else (decimal? text).map nearest

/-- The number that a text stands for: an optional sign, then a numeral or a word for infinity or for
no number. -/
def read? (text : String) : Option Float :=
  let (negative, rest) := splitSign text.toList
  (magnitude? rest).map fun x => if negative then -x else x

example : render 100 = "100" ∧ render 0.25 = "0.25" ∧ render (-0.0) = "-0" := by decide +kernel

example : (read? "1e21").map render = some "1000000000000000000000" := by decide +kernel

/-- Halfway between two texts of seventeen digits, the upper one is written. -/
example : render (1 / 33554432) = "0.000000029802322387695313" := by decide +kernel

example : (read? "-.5E+1").map render = some "-5" ∧ (read? "5.").map render = some "5" ∧
    (read? ".").map render = none ∧ (read? "-Infinity").map render = some "-inf" := by decide +kernel

end Script.Number
