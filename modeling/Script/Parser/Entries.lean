import Script.Parser

/-!
Lists of parameters and arguments, which go up to the closing parenthesis.
-/

namespace Script.Parser

variable {α : Type}

/-- Reads one item more, and whether a comma promises another. -/
def oneMore (item : Parser α) (read : Array α) : Parser (Turn (Array α)) := do
  let read := read.push (← item)
  match ← accept (· == .comma) with
  | some _ => return .again read
  | none => return .last read

/-- One entry more. An entry beyond the greatest length is reported and kept. -/
def entry (which : Entries) (item : Parser α) (read : Array α) : Parser (Turn (Array α)) := do
  if Entries.most ≤ read.size then
    report (← unread) (.tooMany which)
  oneMore item read

/-- The entries between parentheses, with commas between them. Reads the closing parenthesis only as
far as to see that there are none. -/
def entries (which : Entries) (item : Parser α) (turns : Nat) : Parser (List α) := do
  match ← unlessSees .rightParen (iterate (entry which item) turns #[]) with
  | some read => return read.toList
  | none => return []

end Script.Parser
