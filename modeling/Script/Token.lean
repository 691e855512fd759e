import Script.Number

/-!
Tokens: the words and marks of a program, each with the text it was read from and its line.
-/

namespace Script

/-- What a token is for. Keywords end in `Word`; `endMark` closes a list of tokens. -/
inductive Kind where
  | leftParen | rightParen | leftBrace | rightBrace
  | comma | dot | minus | plus | semicolon | slash | star
  | bang | bangEqual | equal | equalEqual
  | greater | greaterEqual | less | lessEqual
  | identifier | string | number
  | andWord | classWord | elseWord | falseWord | funcWord | forWord | ifWord | nilWord
  | orWord | printWord | returnWord | superWord | thisWord | trueWord | varWord | whileWord
  | endMark
deriving DecidableEq, Repr

namespace Kind

/-- The reserved words. Every other word is an identifier. -/
def keywords : List (String × Kind) :=
  [("and", .andWord), ("class", .classWord), ("else", .elseWord), ("false", .falseWord),
    ("for", .forWord), ("func", .funcWord), ("if", .ifWord), ("nil", .nilWord),
    ("or", .orWord), ("print", .printWord), ("return", .returnWord), ("super", .superWord),
    ("this", .thisWord), ("true", .trueWord), ("var", .varWord), ("while", .whileWord)]

def ofWord (word : String) : Kind :=
  (keywords.lookup word).getD .identifier

end Kind

/-- The constant that a token carries, or that an expression stands for. -/
inductive Literal where
  | none
  | identifier (name : String)
  | string (text : String)
  | bool (value : Bool)
  | number (value : Float)
deriving DecidableEq, Repr

def Literal.text : Literal → String
  | .none => "nil"
  | .identifier name => name
  | .string text => text
  | .bool value => if value then "true" else "false"
  | .number value => Number.render value

structure Token where
  kind : Kind
  lexeme : String
  literal : Literal
  line : Nat
deriving DecidableEq, Repr

/-- The mark that closes a list of tokens. -/
def Token.closing (line : Nat) : Token :=
  { kind := .endMark, lexeme := "", literal := .none, line }

end Script
