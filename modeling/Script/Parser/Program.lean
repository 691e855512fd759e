import Script.Parser.Statement
import Script.Token.Scan

/-!
The tree of a whole list of tokens or of a source, with the errors met on the way.
-/

namespace Script

variable {α : Type}

/-- A tree, or what there is of it, and the errors met while reading it. -/
structure Parsed (α : Type) where
  tree : α
  diagnostics : Diagnostics

namespace Report

/-- An error at the end of the list is shown on the line of the last token. -/
def diagnostic (lastLine : Nat) (report : Report) : Diagnostic :=
  .atToken (report.unread.head?.getD (.closing lastLine)) report.error.message

end Report

namespace Parse

def value? : Parse α → Option α
  | .done value _ _ => some value
  | _ => none

def reports : Parse α → List Report
  | .done _ _ reports => reports
  | .failed unread reports cause => reports ++ [⟨unread, .missing cause⟩]
  | .exhausted => []

end Parse

namespace Parser

/-- Levels enough for a list of tokens: a token is read on two of them at most, and four remain for the
end of the list. -/
def levels (tokens : List Token) : Nat :=
  2 * tokens.length + 4

theorem le_levels_append (read rest : List Token) : 2 * read.length + 4 ≤ levels (read ++ rest) := by
  rw [levels, List.length_append]
  omega

def lastLine (tokens : List Token) : Nat :=
  tokens.getLast?.elim 0 Token.line

/-- What a parser makes of the list, given levels enough for it. -/
def parse (parser : Nat → Parser α) (tokens : List Token) : Parsed (Option α) :=
  let outcome := parser (levels tokens) tokens
  let lastLine := lastLine tokens
  { tree := outcome.value?
    diagnostics := outcome.reports.map (·.diagnostic lastLine) }

end Parser

def parseProgram (tokens : List Token) : Parsed (List Stmt) :=
  let parsed := Parser.parse Parser.program tokens
  { parsed with tree := parsed.tree.getD [] }

/-- The expression at the start of a list of tokens, nothing after an error that ends it. -/
def parseExpression (tokens : List Token) : Parsed (Option Expr) :=
  Parser.parse Parser.expression tokens

/-- The errors of the tokens come before those of the tree. -/
def readWith (parse : List Token → Parsed α) (source : String) : Parsed α :=
  let scanned := scan source
  let parsed := parse scanned.tokens
  { parsed with diagnostics := scanned.diagnostics ++ parsed.diagnostics }

def readProgram (source : String) : Parsed (List Stmt) :=
  readWith parseProgram source

def readExpression (source : String) : Parsed (Option Expr) :=
  readWith parseExpression source

end Script
