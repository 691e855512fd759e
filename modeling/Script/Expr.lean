import Script.Token

/-!
Expressions. A node keeps the tokens that an error or a printed form may need: names, operators, and
the parenthesis that closes a call.
-/

namespace Script

inductive Expr where
  | assign (name : Token) (value : Expr)
  | binary (left : Expr) (operator : Token) (right : Expr)
  | call (callee : Expr) (paren : Token) (arguments : List Expr)
  | get (object : Expr) (name : Token)
  | grouping (inner : Expr)
  | literal (value : Literal)
  | logical (left : Expr) (operator : Token) (right : Expr)
  | set (object : Expr) (name : Token) (value : Expr)
  | this (keyword : Token)
  | unary (operator : Token) (right : Expr)
  | variable (name : Token)
deriving Repr

mutual

/-- The printed form of an expression: operators before their operands in parentheses, all else as
it is written. -/
def Expr.text : Expr → String
  | .assign name value => name.lexeme ++ " = " ++ value.text
  | .binary left operator right =>
    "(" ++ operator.lexeme ++ " " ++ left.text ++ " " ++ right.text ++ ")"
  | .call callee _ arguments => callee.text ++ "(" ++ Expr.listText arguments ++ ")"
  | .get object name => object.text ++ "." ++ name.lexeme
  | .grouping inner => "(group " ++ inner.text ++ ")"
  | .literal value => value.text
  | .logical left operator right => left.text ++ " " ++ operator.lexeme ++ " " ++ right.text
  | .set object name value => object.text ++ "." ++ name.lexeme ++ " = " ++ value.text
  | .this keyword => keyword.lexeme
  | .unary operator right => "(" ++ operator.lexeme ++ " " ++ right.text ++ ")"
  | .variable name => name.lexeme

def Expr.listText : List Expr → String
  | [] => ""
  | [e] => e.text
  | e :: es => e.text ++ "," ++ Expr.listText es

end

end Script
