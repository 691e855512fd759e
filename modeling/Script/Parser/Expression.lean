import Script.Parser.Entries
import Script.Expr

/-!
Reading expressions, from assignment, which binds loosest, down to single tokens.

Each part takes the parsers of its own parts, so that only `expression` and `unary` call themselves.
They count down the levels of nesting; a level is also the number of turns that a loop on it may take.
-/

namespace Script

/-- The levels of the operators that group to the left, the loosest first. -/
inductive Level where
  | disjunction
  | conjunction
  | equality
  | comparison
  | sum
  | product
deriving DecidableEq, Repr

namespace Level

def all : List Level :=
  [.disjunction, .conjunction, .equality, .comparison, .sum, .product]

def has : Level → Kind → Bool
  | .disjunction, .orWord => true
  | .conjunction, .andWord => true
  | .equality, .bangEqual | .equality, .equalEqual => true
  | .comparison, .greater | .comparison, .greaterEqual => true
  | .comparison, .less | .comparison, .lessEqual => true
  | .sum, .minus | .sum, .plus => true
  | .product, .slash | .product, .star => true
  | _, _ => false

def join (level : Level) (left : Expr) (operator : Token) (right : Expr) : Expr :=
  match level with
  | .disjunction | .conjunction => .logical left operator right
  | _ => .binary left operator right

end Level

namespace Parser

def operation (level : Level) (operand : Parser Expr) (left : Expr) : Parser (Turn Expr) := do
  match ← accept level.has with
  | some operator => return .again (level.join left operator (← operand))
  | none => return .last left

/-- Operands with operators of one level between them. -/
def chain (level : Level) (operand : Parser Expr) (turns : Nat) : Parser Expr := do
  iterate (operation level operand) turns (← operand)

/-- Chains of chains of operands, down the levels. -/
def chains (operand : Parser Expr) (turns : Nat) : List Level → Parser Expr
  | [] => operand
  | level :: tighter => chain level (chains operand turns tighter) turns

def suffix (expression : Parser Expr) (turns : Nat) (callee : Expr) : Parser (Turn Expr) := do
  match ← accept (fun kind => kind == .leftParen || kind == .dot) with
  | none => return .last callee
  | some mark =>
    if mark.kind = .dot then
      return .again (.get callee (← expect .identifier .propertyName))
    else
      let arguments ← entries .arguments expression turns
      return .again (.call callee (← expect .rightParen .argumentsClosing) arguments)

def primary (expression : Parser Expr) : Parser Expr :=
  fun tokens =>
    match next? tokens with
    | none => fail .expression tokens
    | some (token, rest) =>
      match token.kind with
      | .falseWord => .done (.literal (.bool false)) rest []
      | .trueWord => .done (.literal (.bool true)) rest []
      | .nilWord => .done (.literal .none) rest []
      | .number | .string => .done (.literal token.literal) rest []
      | .identifier => .done (.variable token) rest []
      | .thisWord => .done (.this token) rest []
      | .leftParen => group rest
      | _ => fail .expression tokens
where
  group : Parser Expr := do
    let inner ← expression
    let _ ← expect .rightParen .groupClosing
    return .grouping inner

def call (expression : Parser Expr) (turns : Nat) : Parser Expr := do
  iterate (suffix expression turns) turns (← primary expression)

def signed (operand call : Parser Expr) : Parser Expr := do
  match ← accept (fun kind => kind == .bang || kind == .minus) with
  | some operator => return .unary operator (← operand)
  | none => call

/-- What stands left of `=` is read as an expression first. If it turns out to be no target, the
error is reported at the `=`, and the target stands for the whole. -/
def assignment (target value : Parser Expr) : Parser Expr := do
  let target ← target
  let equals ← unread
  match ← accept (· == .equal) with
  | none => return target
  | some _ =>
    let value ← value
    match target with
    | .variable name => return .assign name value
    | .get object name => return .set object name value
    | _ =>
      report equals .assignmentTarget
      return target

mutual

def expression : Nat → Parser Expr
  | 0 => exhausted
  | level + 1 => assignment (chains (unary level) level Level.all) (expression level)

def unary : Nat → Parser Expr
  | 0 => exhausted
  | level + 1 => signed (unary level) (call (expression level) level)

end

end Parser

end Script
