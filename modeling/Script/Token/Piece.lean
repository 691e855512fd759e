import Script.Token

/-!
A source text cut into pieces: blanks, comments, the texts of tokens, and what is none of these.

The cut loses nothing: `pieces_text` says that the pieces in order are the source. A token takes as
many characters as it can.
-/

namespace Script

/-- A piece of the source. Only an unclosed string, the rest of the source from its quote on, has to
be the last one. -/
inductive Piece.Shape where
  | blank
  | comment
  | token (kind : Kind)
  | stray
  | unclosed
deriving DecidableEq, Repr

/-- `line` is the line on which the piece ends. -/
structure Piece where
  shape : Piece.Shape
  text : List Char
  line : Nat
deriving DecidableEq, Repr

namespace Piece

def isBlank (c : Char) : Bool :=
  c == ' ' || c == '\t' || c == '\r' || c == '\n'

def startsWord (c : Char) : Bool :=
  c.isAlpha || c == '_'

def continuesWord (c : Char) : Bool :=
  startsWord c || c.isDigit

/-- The marks, longer ones first. -/
def marks : List (List Char × Kind) :=
  [(['!', '='], .bangEqual), (['=', '='], .equalEqual), (['<', '='], .lessEqual),
    (['>', '='], .greaterEqual), (['('], .leftParen), ([')'], .rightParen), (['{'], .leftBrace),
    (['}'], .rightBrace), ([','], .comma), (['.'], .dot), (['-'], .minus), (['+'], .plus),
    ([';'], .semicolon), (['/'], .slash), (['*'], .star), (['!'], .bang), (['='], .equal),
    (['<'], .less), (['>'], .greater)]

def mark? (text : List Char) : Option (List Char × Kind) :=
  marks.find? fun mark => mark.1.isPrefixOf text

/-- The longest numeral at the start of a text: digits, then a point if a digit follows it. -/
def numeral (text : List Char) : List Char :=
  let whole := text.takeWhile Char.isDigit
  match text.dropWhile Char.isDigit with
  | '.' :: rest =>
    if (rest.takeWhile Char.isDigit).isEmpty then whole
    else whole ++ '.' :: rest.takeWhile Char.isDigit
  | _ => whole

theorem numeral_isPrefixOf (text : List Char) : numeral text <+: text := by
  have whole := List.takeWhile_append_dropWhile (p := Char.isDigit) (l := text)
  unfold numeral
  split
  case h_1 rest h =>
    split
    · exact List.takeWhile_prefix _
    · rw [h] at whole
      conv => rhs; rw [← whole]
      exact List.prefix_append_right_inj _ |>.mpr (List.cons_prefix_cons.mpr
        ⟨rfl, List.takeWhile_prefix _⟩)
  case h_2 => exact List.takeWhile_prefix _

theorem mark?_isPrefixOf {text mark : List Char} {kind : Kind} (h : mark? text = some (mark, kind)) :
    mark <+: text := by
  unfold mark? at h
  simpa using List.find?_some h

/-- The shape of the piece at the start of the source `c :: rest`, and its text after `c`. -/
def measure (c : Char) (rest : List Char) : Shape × List Char :=
  if isBlank c then (.blank, [])
  else if c == '/' && rest.head? == some '/' then (.comment, rest.takeWhile (· != '\n'))
  else if c == '"' then
    let closing := (rest.dropWhile (· != '"')).take 1
    (if closing.isEmpty then .unclosed else .token .string, rest.takeWhile (· != '"') ++ closing)
  else if c.isDigit then (.token .number, (numeral (c :: rest)).tail)
  else if startsWord c then
    let word := rest.takeWhile continuesWord
    (.token (.ofWord (String.ofList (c :: word))), word)
  else match mark? (c :: rest) with
    | some (text, kind) => (.token kind, text.tail)
    | none => (.stray, [])

theorem measure_isPrefixOf (c : Char) (rest : List Char) : (measure c rest).2 <+: rest := by
  have tail {text : List Char} (h : text <+: c :: rest) : text.tail <+: rest := by
    cases text with
    | nil => exact List.nil_prefix
    | cons _ _ => exact (List.cons_prefix_cons.mp h).2
  unfold measure
  split
  · exact List.nil_prefix
  · split
    · exact List.takeWhile_prefix _
    · split
      · conv => rhs; rw [← List.takeWhile_append_dropWhile (p := (· != '"')) (l := rest)]
        exact List.prefix_append_right_inj _ |>.mpr (List.take_prefix _ _)
      · split
        · exact tail (numeral_isPrefixOf _)
        · split
          · exact List.takeWhile_prefix _
          · split
            · next h => exact tail (mark?_isPrefixOf h)
            · exact List.nil_prefix

/-- The piece at the start of `c :: rest`, which begins on the given line. -/
def first (line : Nat) (c : Char) (rest : List Char) : Piece :=
  let (shape, text) := measure c rest
  { shape, text := c :: text, line := line + (c :: text).count '\n' }

end Piece

/-- The pieces of a text that begins on the given line, after those already `seen`, last first. -/
def piecesAfter (line : Nat) (seen : List Piece) : List Char → List Piece
  | [] => seen.reverse
  | c :: rest =>
    let piece := Piece.first line c rest
    piecesAfter piece.line (piece :: seen) (rest.drop (piece.text.length - 1))
termination_by text => text.length
decreasing_by
  simp only [List.length_drop, List.length_cons]
  omega

/-- The pieces of a source, whose first line is line 1. -/
def pieces (source : List Char) : List Piece :=
  piecesAfter 1 [] source

theorem piecesAfter_text (line : Nat) (seen : List Piece) (text : List Char) :
    (piecesAfter line seen text).flatMap Piece.text = seen.reverse.flatMap Piece.text ++ text := by
  fun_induction piecesAfter line seen text with
  | case1 => simp
  | case2 line seen c rest piece ih =>
    have whole := List.prefix_iff_eq_append.mp (Piece.measure_isPrefixOf c rest)
    rw [ih]
    simp [piece, Piece.first, whole]

/-- Nothing of the source is lost. -/
theorem pieces_text (source : List Char) : (pieces source).flatMap Piece.text = source := by
  simp [pieces, piecesAfter_text]

end Script
