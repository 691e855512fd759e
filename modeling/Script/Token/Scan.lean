import Script.Token.Piece
import Script.Diagnostic

/-!
The tokens of a source, and the errors among its pieces.
-/

namespace Script

namespace Piece

def lexeme (kind : Kind) (text : List Char) : String :=
  String.ofList (if kind = .string then text.tail.dropLast else text)

/-- The constant that a token of some kind takes from its lexeme. -/
def literal (kind : Kind) (lexeme : String) : Literal :=
  match kind with
  | .identifier => .identifier lexeme
  | .string => .string lexeme
  | .number => (Number.read? lexeme).elim .none .number
  | _ => .none

/-- The token of a piece. The text of a string stands without its quotes. -/
def token? (piece : Piece) : Option Token :=
  match piece.shape with
  | .token kind =>
    let lexeme := lexeme kind piece.text
    some { kind, lexeme, literal := literal kind lexeme, line := piece.line }
  | _ => none

def diagnostic? (piece : Piece) : Option Diagnostic :=
  match piece.shape with
  | .stray => some (.atLine piece.line "Unexpected character.")
  | .unclosed => some (.atLine piece.line "Unterminated string.")
  | _ => none

end Piece

/-- What reading a source as tokens gives. -/
structure Scan where
  tokens : List Token
  diagnostics : Diagnostics
deriving DecidableEq, Repr

/-- The tokens of a source with their closing mark. Errors stop nothing. -/
def scan (source : String) : Scan :=
  let text := source.toList
  let pieces := pieces text
  { tokens := pieces.filterMap Piece.token? ++ [.closing (1 + text.count '\n')]
    diagnostics := pieces.filterMap Piece.diagnostic? }

end Script
