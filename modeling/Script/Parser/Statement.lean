import Script.Parser.Expression
import Script.Stmt

/-!
Reading statements and declarations. As with expressions, each part takes the parsers of its own
parts, and only `statement` and `declaration` call themselves. What a keyword or a brace begins is read
from the token after it on. An `else` belongs to the nearest `if`.

A declaration that fails gives nothing, and reading goes on where the next one is likely to begin.
-/

namespace Script

/-- The kinds of token that begin a declaration or a statement, and nothing else. -/
def Kind.beginsStatement : Kind → Bool
  | .classWord | .funcWord | .varWord | .forWord | .ifWord | .whileWord | .printWord
  | .returnWord => true
  | _ => false

namespace Parser

variable {α : Type}

/-- Skips up to the end of a statement, to the beginning of one, or to the end of the list, when
`previous` was the last token read. -/
def skip (previous : Kind) : List Token → List Token
  | [] => []
  | token :: rest =>
    if token.kind = .endMark ∨ previous = .semicolon ∨ token.kind.beginsStatement then token :: rest
    else skip token.kind rest

/-- Where to go on after an error: past the token at fault, unless it is the end of the list. -/
def recover : List Token → List Token
  | [] => []
  | token :: rest => if token.kind = .endMark then token :: rest else skip token.kind rest

def condition (expression : Parser Expr) (opening closing : Expected) : Parser Expr := do
  let _ ← expect .leftParen opening
  let condition ← expression
  let _ ← expect .rightParen closing
  return condition

def conditional (expression : Parser Expr) (statement : Parser Stmt) : Parser Stmt := do
  let condition ← condition expression .ifOpening .ifClosing
  let whenTrue ← statement
  match ← accept (· == .elseWord) with
  | some _ => return .conditional condition whenTrue (some (← statement))
  | none => return .conditional condition whenTrue none

def loop (expression : Parser Expr) (statement : Parser Stmt) : Parser Stmt := do
  let condition ← condition expression .whileOpening .whileClosing
  return .loop condition (← statement)

def expressionStatement (expression : Parser Expr) : Parser Stmt := do
  let expression ← expression
  let _ ← expect .semicolon .expressionEnd
  return .expression expression

def varDeclaration (expression : Parser Expr) : Parser Stmt := do
  let name ← expect .identifier .variableName
  match ← accept (· == .equal) with
  | some _ =>
    let value ← expression
    let _ ← expect .semicolon .variableEnd
    return .var name (some value)
  | none =>
    let _ ← expect .semicolon .variableEnd
    return .var name none

/-- The first clause of a `for`, with its semicolon. -/
def initializer (expression : Parser Expr) : Parser (Option Stmt) := do
  match ← accept (fun kind => kind == .semicolon || kind == .varWord) with
  | none => return some (← expressionStatement expression)
  | some mark => if mark.kind = .semicolon then return none else return some (← varDeclaration expression)

def forLoop (expression : Parser Expr) (statement : Parser Stmt) : Parser Stmt := do
  let _ ← expect .leftParen .forOpening
  let initializer ← initializer expression
  let condition ← unlessSees .semicolon expression
  let _ ← expect .semicolon .forConditionEnd
  let increment ← unlessSees .rightParen expression
  let _ ← expect .rightParen .forClosing
  return .forLoop initializer condition increment (← statement)

def print (expression : Parser Expr) : Parser Stmt := do
  let expression ← expression
  let _ ← expect .semicolon .printEnd
  return .print expression

def returned (expression : Parser Expr) (keyword : Token) : Parser Stmt := do
  let value ← unlessSees .semicolon expression
  let _ ← expect .semicolon .returnEnd
  return .return keyword value

/-- One declaration of a block, unless its end is reached. -/
def member (declaration : Parser (Option Stmt)) (read : Array Stmt) : Parser (Turn (Array Stmt)) :=
  fun tokens =>
    if sees .rightBrace tokens || atEnd tokens then .done (.last read) tokens []
    else ((fun stmt? => .again (stmt?.elim read read.push)) <$> declaration) tokens

def block (declaration : Parser (Option Stmt)) (turns : Nat) : Parser (List Stmt) := do
  let read ← iterate (member declaration) turns #[]
  let _ ← expect .rightBrace .blockClosing
  return read.toList

/-- A function or a method, from its name on. -/
def function (role : Role) (block : Parser (List Stmt)) (turns : Nat) : Parser Declaration := do
  let name ← expect .identifier (.name role)
  let _ ← expect .leftParen (.parametersOpening role)
  let params ← entries .parameters (expect .identifier .parameterName) turns
  let _ ← expect .rightParen .parametersClosing
  let _ ← expect .leftBrace (.bodyOpening role)
  return { name, params, body := ← block }

def method (block : Parser (List Stmt)) (turns : Nat) (read : Array Declaration) :
    Parser (Turn (Array Declaration)) :=
  fun tokens =>
    if sees .rightBrace tokens || atEnd tokens then .done (.last read) tokens []
    else ((.again ∘ read.push) <$> function .method block turns) tokens

def classDeclaration (block : Parser (List Stmt)) (turns : Nat) : Parser Stmt := do
  let name ← expect .identifier .className
  let _ ← expect .leftBrace .classOpening
  let methods ← iterate (method block turns) turns #[]
  let _ ← expect .rightBrace .classClosing
  return .classDecl name methods.toList

def statementOf (expression : Parser Expr) (statement : Parser Stmt) (block : Parser (List Stmt)) :
    Parser Stmt :=
  fun tokens =>
    match next? tokens with
    | none => expressionStatement expression tokens
    | some (token, rest) =>
      match token.kind with
      | .ifWord => conditional expression statement rest
      | .whileWord => loop expression statement rest
      | .forWord => forLoop expression statement rest
      | .printWord => print expression rest
      | .returnWord => returned expression token rest
      | .leftBrace => (Stmt.block <$> block) rest
      | _ => expressionStatement expression tokens

def declarationOf (expression : Parser Expr) (statement : Parser Stmt) (block : Parser (List Stmt))
    (turns : Nat) : Parser Stmt :=
  fun tokens =>
    match next? tokens with
    | none => statement tokens
    | some (token, rest) =>
      match token.kind with
      | .classWord => classDeclaration block turns rest
      | .funcWord => (Stmt.function <$> function .function block turns) rest
      | .varWord => varDeclaration expression rest
      | _ => statement tokens

/-- Gives nothing where the parser fails, and recovers. -/
def recovering (parser : Parser α) : Parser (Option α) :=
  fun tokens =>
    match parser tokens with
    | .done value unread reports => .done (some value) unread reports
    | .failed unread reports cause =>
      .done none (recover unread) (reports ++ [⟨unread, .missing cause⟩])
    | .exhausted => .exhausted

mutual

def statement : Nat → Parser Stmt
  | 0 => exhausted
  | level + 1 =>
    statementOf (expression level) (statement level) (block (declaration level) level)

def declaration : Nat → Parser (Option Stmt)
  | 0 => exhausted
  | level + 1 =>
    recovering (declarationOf (expression level) (statement level)
      (block (declaration level) level) level)

end

/-- One declaration, unless the end of the list is reached. -/
def topLevel (declaration : Parser (Option Stmt)) (read : Array Stmt) :
    Parser (Turn (Array Stmt)) :=
  fun tokens =>
    if atEnd tokens then .done (.last read) tokens []
    else ((fun stmt? => .again (stmt?.elim read read.push)) <$> declaration) tokens

def program (level : Nat) : Parser (List Stmt) := do
  let read ← iterate (topLevel (declaration level)) level #[]
  return read.toList

end Parser

end Script
