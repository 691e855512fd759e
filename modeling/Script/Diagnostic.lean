import Script.Token

/-!
Syntax errors as they are shown: a line, the place on it, and a message.
-/

namespace Script

/-- Where on its line an error is. -/
inductive Place where
  | unknown
  | closing
  | lexeme (text : String)
deriving DecidableEq, Repr

def Place.text : Place → String
  | .unknown => ""
  | .closing => " at end"
  | .lexeme text => " at '" ++ text ++ "'"

def Place.ofToken (token : Token) : Place :=
  if token.kind = .endMark then .closing else .lexeme token.lexeme

structure Diagnostic where
  line : Nat
  place : Place
  message : String
deriving DecidableEq, Repr

namespace Diagnostic

def atToken (token : Token) (message : String) : Diagnostic :=
  { line := token.line, place := .ofToken token, message }

def atLine (line : Nat) (message : String) : Diagnostic :=
  { line, place := .unknown, message }

def text (d : Diagnostic) : String :=
  "[line " ++ toString d.line ++ "] Error" ++ d.place.text ++ ": " ++ d.message

end Diagnostic

/-- The errors of one source, in the order they were met. -/
abbrev Diagnostics := List Diagnostic

namespace Diagnostics

def report (ds : Diagnostics) (token : Token) (message : String) : Diagnostics :=
  ds ++ [.atToken token message]

def error (ds : Diagnostics) (line : Nat) (message : String) : Diagnostics :=
  ds ++ [.atLine line message]

def hadError (ds : Diagnostics) : Bool :=
  !ds.isEmpty

/-- One line each. -/
def text (ds : Diagnostics) : String :=
  "\n".intercalate (ds.map Diagnostic.text)

/-- Whether the last two errors read the same. -/
def lastRepeats (ds : Diagnostics) : Bool :=
  match ds.reverse with
  | last :: previous :: _ => last == previous
  | _ => false

end Diagnostics

end Script
