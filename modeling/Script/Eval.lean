import Script.Call
import Script.Operator

/-!
Evaluating expressions and executing statements. Both count down the levels of nesting, through calls
too; a level is also the number of turns that a loop on it may take.
-/

namespace Script

namespace Eval

/-- Takes the result of an operator, or fails at it. -/
def ofOperator (operator : Token) : Except OperandFault Value → Eval Value
  | .ok value => pure value
  | .error fault => fail (.operand operator fault)

/-- The values of the arguments, from left to right. -/
def values (eval : Expr → Eval Value) : List Expr → Eval (List Value)
  | [] => return []
  | argument :: rest => return (← eval argument) :: (← values eval rest)

/-- Executes the body as long as the condition is true, at most as many times as given. -/
def repeatWhile (condition : Eval Value) (body : Eval Flow) : Nat → Eval Flow
  | 0 => exhausted
  | turns + 1 => do
    if (← condition).truthy then
      match ← body with
      | .next => repeatWhile condition body turns
      | .returned value => return .returned value
    else
      return .next

end Eval

/-- One step of evaluation, given how to evaluate and execute what is inside. -/
def Expr.evalWith (eval : Expr → Eval Value) (exec : Stmt → Eval Flow) : Expr → Eval Value
  | .assign name value => do
    let value ← eval value
    Eval.assign name value
    return value
  | .binary left operator right => do
    let left ← eval left
    let right ← eval right
    Eval.ofOperator operator (operator.kind.binary left right)
  | .call callee paren arguments => do
    let callee ← eval callee
    let arguments ← Eval.values eval arguments
    callee.call exec paren arguments
  | .get object name => do
    match ← eval object with
    | .instance object => object.get name
    | _ => Eval.fail (.notAnInstance name .read)
  | .grouping inner => eval inner
  | .literal value => return .ofLiteral value
  | .logical left operator right => do
    let left ← eval left
    if operator.kind.settledBy left then return left else eval right
  | .set object name value => do
    match ← eval object with
    | .instance object =>
      let value ← eval value
      object.set name value
      return value
    | _ => Eval.fail (.notAnInstance name .write)
  | .this keyword => Eval.lookup keyword
  | .unary operator right => do
    let right ← eval right
    Eval.ofOperator operator (operator.kind.unary right)
  | .variable name => Eval.lookup name

/-- One step of execution, given how to evaluate and execute what is inside, and the turns that a loop
may take. -/
def Stmt.execWith (eval : Expr → Eval Value) (exec : Stmt → Eval Flow) (turns : Nat) :
    Stmt → Eval Flow
  | .block statements => do
    let scope ← Eval.change fun store => store.addScope {}
    Eval.within ((← Eval.environment).push scope) (Eval.sequence exec statements)
  | .classDecl name methods => do
    let environment ← Eval.environment
    let cls ← Eval.change fun store => store.addClass name.lexeme methods environment
    Eval.define name.lexeme (.callable (.class cls))
    return .next
  | .expression e => do
    let _ ← eval e
    return .next
  | .function declaration => do
    let environment ← Eval.environment
    let function ← Eval.change fun store => store.addFunction declaration environment
    Eval.define function.name (.callable (.function function))
    return .next
  | .conditional condition whenTrue whenFalse => do
    if (← eval condition).truthy then exec whenTrue
    else
      match whenFalse with
      | some statement => exec statement
      | none => return .next
  | .print e => do
    Eval.print (← eval e)
    return .next
  | .return _ value => do
    match value with
    | some e => return .returned (← eval e)
    | none => return .returned .nil
  | .var name initializer => do
    let value ← match initializer with
      | some e => eval e
      | none => pure .nil
    Eval.define name.lexeme value
    return .next
  | .loop condition body => Eval.repeatWhile (eval condition) (exec body) turns

mutual

def eval : Nat → Expr → Eval Value
  | 0, _ => Eval.exhausted
  | level + 1, expression => expression.evalWith (eval level) (exec level)

def exec : Nat → Stmt → Eval Flow
  | 0, _ => Eval.exhausted
  | level + 1, statement => statement.execWith (eval level) (exec level) level

end

end Script
