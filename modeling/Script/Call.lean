import Script.Machine

/-!
Calls, objects and their properties. Running the body of a function takes a way to execute statements.
-/

namespace Script

/-- How a statement ends: the next one follows, or the function around it returns. -/
inductive Flow where
  | next
  | returned (value : Value)

/-- The most calls that may be in progress at once. -/
def maxCallDepth : Nat := 1024

/-- Executes statements in order, up to one that returns. -/
def Eval.sequence (exec : Stmt → Eval Flow) : List Stmt → Eval Flow
  | [] => return .next
  | statement :: rest => do
    match ← exec statement with
    | .next => sequence exec rest
    | .returned value => return .returned value

namespace Function

/-- Runs the body in a new scope with the parameters. A parameter without an argument stays
undefined, an argument without a parameter is dropped. -/
def call (function : Function) (exec : Stmt → Eval Flow) (arguments : List Value) : Eval Value := do
  let params := function.declaration.params.map Token.lexeme
  let scope ← Eval.change fun store => store.addScope (.ofList (params.zip arguments))
  match ← Eval.within (function.closure.push scope)
      (Eval.sequence exec function.declaration.body) with
  | .next => return .nil
  | .returned value => return value

def bind (method : Function) (object : Instance) : Eval Function :=
  Eval.change fun store => store.bind method object

end Function

namespace Class

/-- A new object, without running the initializer. -/
def instantiate (cls : Class) : Eval Instance := do
  return { cls, id := ← Eval.change Store.addObject }

/-- A new object after its initializer, whatever that returns. -/
def call (cls : Class) (exec : Stmt → Eval Flow) (arguments : List Value) : Eval Value := do
  let object ← cls.instantiate
  match cls.method? initializer with
  | none => return .instance object
  | some method =>
    let _ ← (← method.bind object).call exec arguments
    return .instance object

end Class

def Native.call : Native → Eval Value
  | .clock => fun machine =>
    let (reading, time) := machine.time.read
    .done (.number reading) { machine with time }

/-- Calls without looking at the number of arguments or the depth of calls. -/
def Callable.call (callable : Callable) (exec : Stmt → Eval Flow) (arguments : List Value) :
    Eval Value :=
  match callable with
  | .function f => f.call exec arguments
  | .class c => c.call exec arguments
  | .native n => n.call

/-- A call of the program: of something callable, with as many arguments as it takes, and not too
deep. The three are checked in this order. -/
def Value.call (callee : Value) (exec : Stmt → Eval Flow) (paren : Token) (arguments : List Value) :
    Eval Value :=
  match callee with
  | .callable c =>
    if arguments.length = c.arity then
      fun machine =>
        if machine.depth < maxCallDepth then (c.call exec arguments).counted machine
        else .failed (.stackOverflow paren) machine
    else Eval.fail (.arity paren c.arity arguments.length)
  | _ => Eval.fail (.notCallable paren)

namespace Instance

/-- A field, or else a method bound to the object. -/
def get (object : Instance) (name : Token) : Eval Value := do
  match ← Eval.read fun store => (store.fields object.id).get? name.lexeme with
  | some value => return value
  | none =>
    match object.cls.method? name.lexeme with
    | some method => return .callable (.function (← method.bind object))
    | none => Eval.fail (.undefinedProperty name)

def set (object : Instance) (name : Token) (value : Value) : Eval Unit :=
  Eval.change fun store => ((), store.setField object.id name.lexeme value)

end Instance

end Script
