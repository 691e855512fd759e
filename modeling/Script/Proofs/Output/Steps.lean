import Script.Proofs.Outcomes
import Script.Run

/-!
# Computations are made of steps

Whatever is evaluated or executed is made of few sorts of steps, of which one alone writes output and one alone
flushes it. What holds of the steps and is handed on from parts to wholes so holds of every program.

How a program is made of steps also tells which values it prints, which its output does not: the string `a` and a
class of that name are written alike. The same program on two machines has the same steps, so that the values printed
on both can be compared even where one of the runs breaks off.
-/

namespace Script

variable {α β : Type}

namespace Eval

/-- How a computation is made of steps. A `guarded` one refuses to go deeper than calls may. -/
inductive Steps : {α : Type} → Eval α → Type 1 where
  | pure {α : Type} (value : α) : Steps (pure value)
  | bind {α β : Type} {first : Eval α} {next : α → Eval β} (firstSteps : Steps first)
      (nextSteps : ∀ value, Steps (next value)) : Steps (first >>= next)
  | fail {α : Type} (error : RuntimeError) : Steps (fail error : Eval α)
  | exhausted {α : Type} : Steps (exhausted : Eval α)
  | environment : Steps environment
  | read {α : Type} (f : Store → α) : Steps (read f)
  | change {α : Type} (f : Store → α × Store) : Steps (change f)
  | clock : Steps Native.clock.call
  | print (value : Value) : Steps (print value)
  | flush : Steps flush
  | within {α : Type} {body : Eval α} (inner : Environment) (steps : Steps body) : Steps (within inner body)
  | counted {α : Type} {body : Eval α} (steps : Steps body) : Steps (counted body)
  | guarded {α : Type} {body : Eval α} (error : RuntimeError) (steps : Steps body) :
      Steps fun machine => if machine.depth < maxCallDepth then body machine else .failed error machine
  | ite {α : Type} {yes no : Eval α} (condition : Prop) [Decidable condition] (yesSteps : Steps yes)
      (noSteps : Steps no) : Steps (if condition then yes else no)

/-- The values that a computation prints, in the order in which it does. -/
def Steps.log {α : Type} {body : Eval α} : Steps body → Machine → List Value
  | .pure _, _ | .fail _, _ | .exhausted, _ | .environment, _ | .read _, _ | .change _, _ | .clock, _ | .flush, _ => []
  | @bind _ _ first _ steps next, machine =>
    steps.log machine ++
      match first machine with
      | .done value after => (next value).log after
      | .failed _ _ | .exhausted => []
  | .print value, _ => [value]
  | .within inner steps, machine => steps.log { machine with environment := inner }
  | .counted steps, machine => steps.log { machine with depth := machine.depth + 1 }
  | .guarded _ steps, machine => if machine.depth < maxCallDepth then steps.log machine else []
  | @ite _ _ _ condition _ yes no, machine => if condition then yes.log machine else no.log machine

/-! ### Operations -/

def lookupSteps (name : Token) : Steps (lookup name) :=
  .bind .environment fun environment => .bind (.read (·.lookup? environment name.lexeme)) fun
    | some value => .pure value
    | none => .fail (.undefinedVariable name)

def assignSteps (name : Token) (value : Value) : Steps (assign name value) :=
  .bind .environment fun environment => .bind (.read (·.resolve? environment name.lexeme)) fun
    | some scope => .change fun store => ((), store.define scope name.lexeme value)
    | none => .fail (.undefinedVariable name)

def defineSteps (name : String) (value : Value) : Steps (define name value) :=
  .bind .environment fun environment => .change fun store => ((), store.define environment.innermost name value)

def ofOperatorSteps (operator : Token) : (result : Except OperandFault Value) → Steps (ofOperator operator result)
  | .ok value => .pure value
  | .error fault => .fail (.operand operator fault)

end Eval

open Eval

def Function.bindSteps (method : Function) (object : Instance) : Steps (method.bind object) :=
  .change fun store => store.bind method object

def Class.instantiateSteps (cls : Class) : Steps cls.instantiate :=
  .bind (.change Store.addObject) fun id => .pure (Instance.mk cls id)

def Instance.getSteps (object : Instance) (name : Token) : Steps (object.get name) :=
  .bind (.read fun store => (store.fields object.id).get? name.lexeme) fun
    | some value => .pure value
    | none =>
      match object.cls.method? name.lexeme with
      | some method => .bind (method.bindSteps object) fun bound => .pure (Value.callable (.function bound))
      | none => .fail (.undefinedProperty name)

def Instance.setSteps (object : Instance) (name : Token) (value : Value) : Steps (object.set name value) :=
  .change fun store => ((), store.setField object.id name.lexeme value)

section Step

variable {eval : Expr → Eval Value} {exec : Stmt → Eval Flow} (evalSteps : ∀ expression, Steps (eval expression))
  (execSteps : ∀ statement, Steps (exec statement))

/-! ### Calls -/

def Eval.sequenceSteps : (statements : List Stmt) → Steps (Eval.sequence exec statements)
  | [] => .pure Flow.next
  | statement :: rest => .bind (execSteps statement) fun
    | Flow.next => sequenceSteps rest
    | .returned value => .pure (Flow.returned value)

def Function.callSteps (f : Function) (arguments : List Value) : Steps (f.call exec arguments) :=
  .bind (.change fun store => store.addScope (.ofList ((f.declaration.params.map Token.lexeme).zip arguments)))
    fun scope => .bind (.within (f.closure.push scope) (sequenceSteps execSteps f.declaration.body)) fun
      | Flow.next => .pure Value.nil
      | .returned value => .pure value

def Class.callSteps (c : Class) (arguments : List Value) : Steps (c.call exec arguments) :=
  .bind c.instantiateSteps fun object =>
    match c.method? Class.initializer with
    | none => .pure (Value.instance object)
    | some method => .bind (method.bindSteps object) fun bound =>
      .bind (bound.callSteps execSteps arguments) fun _ => .pure (Value.instance object)

def Callable.callSteps (arguments : List Value) : (c : Callable) → Steps (c.call exec arguments)
  | .function f => f.callSteps execSteps arguments
  | .class c => c.callSteps execSteps arguments
  | .native .clock => .clock

def Value.callSteps (paren : Token) (arguments : List Value) :
    (callee : Value) → Steps (callee.call exec paren arguments)
  | .callable c =>
    .ite (arguments.length = c.arity) (.guarded (.stackOverflow paren) (.counted (c.callSteps execSteps arguments)))
      (.fail (.arity paren c.arity arguments.length))
  | .nil | .bool _ | .number _ | .string _ | .instance _ => .fail (.notCallable paren)

/-! ### Expressions and statements -/

def Eval.valuesSteps : (arguments : List Expr) → Steps (values eval arguments)
  | [] => .pure []
  | argument :: rest => .bind (evalSteps argument) fun value => .bind (valuesSteps rest) fun values =>
    .pure (value :: values)

def Expr.evalWithSteps : (expression : Expr) → Steps (expression.evalWith eval exec)
  | .assign name value => .bind (evalSteps value) fun value => .bind (assignSteps name value) fun _ => .pure value
  | .binary left operator right => .bind (evalSteps left) fun left => .bind (evalSteps right) fun right =>
    ofOperatorSteps operator (operator.kind.binary left right)
  | .call callee paren arguments => .bind (evalSteps callee) fun callee =>
    .bind (valuesSteps evalSteps arguments) fun arguments => callee.callSteps execSteps paren arguments
  | .get object name => .bind (evalSteps object) fun
    | Value.instance object => object.getSteps name
    | .nil | .bool _ | .number _ | .string _ | .callable _ => .fail (.notAnInstance name .read)
  | .grouping inner => evalSteps inner
  | .literal value => .pure (Value.ofLiteral value)
  | .logical left operator right => .bind (evalSteps left) fun left =>
    .ite (operator.kind.settledBy left = true) (.pure left) (evalSteps right)
  | .set object name value => .bind (evalSteps object) fun
    | Value.instance object => .bind (evalSteps value) fun value =>
      .bind (object.setSteps name value) fun _ => .pure value
    | .nil | .bool _ | .number _ | .string _ | .callable _ => .fail (.notAnInstance name .write)
  | .this keyword => lookupSteps keyword
  | .unary operator right => .bind (evalSteps right) fun right =>
    ofOperatorSteps operator (operator.kind.unary right)
  | .variable name => lookupSteps name

def Eval.repeatWhileSteps {condition : Eval Value} {body : Eval Flow} (conditionSteps : Steps condition)
    (bodySteps : Steps body) : (turns : Nat) → Steps (repeatWhile condition body turns)
  | 0 => .exhausted
  | turns + 1 => .bind conditionSteps fun value =>
    .ite (value.truthy = true)
      (.bind bodySteps fun
        | Flow.next => repeatWhileSteps conditionSteps bodySteps turns
        | .returned value => .pure (Flow.returned value))
      (.pure Flow.next)

def Stmt.execWithSteps (turns : Nat) : (statement : Stmt) → Steps (statement.execWith eval exec turns)
  | .block statements => .bind (.change fun store => store.addScope {}) fun scope =>
    .bind .environment fun environment => .within (environment.push scope) (sequenceSteps execSteps statements)
  | .classDecl name methods => .bind .environment fun environment =>
    .bind (.change fun store => store.addClass name.lexeme methods environment) fun cls =>
      .bind (defineSteps name.lexeme (.callable (.class cls))) fun _ => .pure Flow.next
  | .expression e => .bind (evalSteps e) fun _ => .pure Flow.next
  | .function declaration => .bind .environment fun environment =>
    .bind (.change fun store => store.addFunction declaration environment) fun function =>
      .bind (defineSteps function.name (.callable (.function function))) fun _ => .pure Flow.next
  | .conditional condition whenTrue whenFalse => .bind (evalSteps condition) fun value =>
    .ite (value.truthy = true) (execSteps whenTrue)
      (match whenFalse with
      | some statement => execSteps statement
      | none => .pure Flow.next)
  | .print e => .bind (evalSteps e) fun value => .bind (.print value) fun _ => .pure Flow.next
  | .return _ value =>
    match value with
    | some e => .bind (evalSteps e) fun value => .pure (Flow.returned value)
    | none => .pure (Flow.returned .nil)
  | .var name initializer =>
    match initializer with
    | some e => .bind (evalSteps e) fun value => .bind (defineSteps name.lexeme value) fun _ => .pure Flow.next
    | none => .bind (.pure Value.nil) fun value => .bind (defineSteps name.lexeme value) fun _ => .pure Flow.next
  | .loop condition body => repeatWhileSteps (evalSteps condition) (execSteps body) turns

end Step

def evalExecSteps : (level : Nat) →
    (∀ expression, Steps (eval level expression)) × (∀ statement, Steps (exec level statement))
  | 0 => (fun _ => .exhausted, fun _ => .exhausted)
  | level + 1 =>
    let (evalSteps, execSteps) := evalExecSteps level
    (Expr.evalWithSteps evalSteps execSteps, Stmt.execWithSteps evalSteps execSteps level)

/-- How the run of a program is made of steps. -/
def interpretSteps (level : Nat) (program : List Stmt) : Steps (interpret level program) :=
  .bind (sequenceSteps (evalExecSteps level).2 program) fun _ => .flush

end Script
