import Script.Expr

/-!
Statements, and the declarations of functions and methods.
-/

namespace Script

mutual

inductive Stmt where
  | block (statements : List Stmt)
  | classDecl (name : Token) (methods : List Declaration)
  | expression (expression : Expr)
  | function (declaration : Declaration)
  | conditional (condition : Expr) (whenTrue : Stmt) (whenFalse : Option Stmt)
  | print (expression : Expr)
  | return (keyword : Token) (value : Option Expr)
  | var (name : Token) (initializer : Option Expr)
  | loop (condition : Expr) (body : Stmt)

/-- A function or a method: its name, its parameters and its body. -/
structure Declaration where
  name : Token
  params : List Token
  body : List Stmt

end

namespace Stmt

/-- The loop over an increment: the body, then the increment in a block around both. -/
def withIncrement (body : Stmt) : Option Expr → Stmt
  | none => body
  | some increment => .block [body, .expression increment]

/-- A `for` statement in terms of `while`. A missing condition is true; the initializer gets a block
of its own around the loop. -/
def forLoop (initializer : Option Stmt) (condition increment : Option Expr) (body : Stmt) : Stmt :=
  let loop := Stmt.loop (condition.getD (.literal (.bool true))) (body.withIncrement increment)
  match initializer with
  | none => loop
  | some initializer => .block [initializer, loop]

end Stmt

end Script
