import Script.Bindings
import Script.Environment
import Script.Stmt

/-!
Runtime values. Functions, classes and objects have an identity, which is a number given to each when
it is made.
-/

namespace Script

/-- A function or method with the environment it was made in. -/
structure Function where
  id : Nat
  declaration : Declaration
  closure : Environment

namespace Function

def name (function : Function) : String :=
  function.declaration.name.lexeme

def arity (function : Function) : Nat :=
  function.declaration.params.length

end Function

structure Class where
  id : Nat
  name : String
  methods : Bindings Function

namespace Class

/-- The method that a new instance runs. -/
def initializer : String := "init"

def method? (cls : Class) (name : String) : Option Function :=
  cls.methods.get? name

/-- A class takes the arguments of its initializer. -/
def arity (cls : Class) : Nat :=
  (cls.method? initializer).elim 0 Function.arity

end Class

/-- The functions that every program starts with. -/
inductive Native where
  | clock
deriving DecidableEq, Repr

namespace Native

def name : Native → String
  | .clock => "clock"

def arity : Native → Nat
  | .clock => 0

end Native

inductive Callable where
  | function (function : Function)
  | class (cls : Class)
  | native (native : Native)

namespace Callable

def name : Callable → String
  | .function f => f.name
  | .class c => c.name
  | .native n => n.name

def arity : Callable → Nat
  | .function f => f.arity
  | .class c => c.arity
  | .native n => n.arity

def text : Callable → String
  | .function f => "<fn " ++ f.name ++ ">"
  | .class c => c.name
  | .native _ => "<native fn>"

/-- Whether two callables are one and the same. -/
def same : Callable → Callable → Bool
  | .function f, .function g => f.id == g.id
  | .class c, .class d => c.id == d.id
  | .native m, .native n => m == n
  | _, _ => false

end Callable

/-- An object of some class. Its fields are in the store. -/
structure Instance where
  cls : Class
  id : Nat

namespace Instance

def text (object : Instance) : String :=
  object.cls.name ++ " instance"

end Instance

inductive Value where
  | nil
  | bool (value : Bool)
  | number (value : Float)
  | string (text : String)
  | callable (callable : Callable)
  | instance (object : Instance)

namespace Value

def ofLiteral : Literal → Value
  | .none | .identifier _ => .nil
  | .string text => .string text
  | .bool value => .bool value
  | .number value => .number value

/-- All values are true but nil and false. -/
def truthy : Value → Bool
  | .nil => false
  | .bool value => value
  | _ => true

/-- Plain values are equal by content, the others by identity. -/
def equal : Value → Value → Bool
  | .nil, .nil => true
  | .bool x, .bool y => x == y
  | .number x, .number y => x == y
  | .string x, .string y => x == y
  | .callable x, .callable y => x.same y
  | .instance x, .instance y => x.id == y.id
  | _, _ => false

def text : Value → String
  | .nil => "nil"
  | .bool value => if value then "true" else "false"
  | .number value => Number.render value
  | .string text => text
  | .callable c => c.text
  | .instance o => o.text

def describe? : Value → Option String
  | .callable c => some ("Callable(" ++ c.text ++ ")")
  | .instance o => some ("Instance(" ++ o.text ++ ")")
  | _ => none

end Value

end Script
