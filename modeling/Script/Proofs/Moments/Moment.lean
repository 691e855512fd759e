import Mathlib.Logic.Relation
import Script.Proofs.Session

/-!
# Moments of a session

A session is a row of requests to one machine. While a request is served, tasks are in progress, each
started by the one around it: a moment is the start of a task, in the state that it starts in. What a task
starts next depends on how the earlier ones ended, and these are told by the values and states that they
ended with.
-/

namespace Script

/-- An expression to evaluate, or a statement to execute. -/
inductive Task where
  | eval (expression : Expr)
  | exec (statement : Stmt)

/-! ### Parts of a task -/

/-- The operands of an expression, in the order of their evaluation. -/
def Expr.parts : Expr → List Expr
  | .assign _ value => [value]
  | .binary left _ right => [left, right]
  | .call callee _ arguments => callee :: arguments
  | .get object _ => [object]
  | .grouping inner => [inner]
  | .logical left _ right => [left, right]
  | .set object _ value => [object, value]
  | .unary _ right => [right]
  | .literal _ | .this _ | .variable _ => []

/-- Whether more operands are evaluated after those that have the values. -/
def Expr.goesOn : Expr → List Value → Bool
  | .logical _ operator _, [left] => !operator.kind.settledBy left
  | .set _ _ _, [.instance _] => true
  | .set _ _ _, [_] => false
  | _, _ => true

/-- What a statement evaluates and executes in the environment that it stands in. -/
def Stmt.parts : Stmt → List Task
  | .expression e | .print e => [.eval e]
  | .conditional condition whenTrue whenFalse =>
    .eval condition :: .exec whenTrue :: whenFalse.toList.map .exec
  | .return _ value => value.toList.map .eval
  | .var _ initializer => initializer.toList.map .eval
  | .loop condition body => [.eval condition, .exec body]
  | .block _ | .classDecl _ _ | .function _ => []

def Task.parts : Task → List Task
  | .eval expression => expression.parts.map .eval
  | .exec statement => statement.parts

/-! ### What a task starts -/

/-- The state in which the statements of a block begin. -/
def Machine.enterBlock (machine : Machine) : Machine :=
  let (scope, store) := machine.store.addScope {}
  { machine with store, environment := machine.environment.push scope }

/-- The state in which the body of a function begins. -/
def Machine.enterBody (machine : Machine) (function : Function) (arguments : List Value) : Machine :=
  let params := function.declaration.params.map Token.lexeme
  let (scope, store) := machine.store.addScope (.ofList (params.zip arguments))
  { machine with store, environment := function.closure.push scope }

/-- The function whose body a call runs, and the state it is called in: a class makes an object and calls
its initializer for it. -/
inductive Callable.Calls : Callable → Machine → Function → Machine → Prop where
  | function (f : Function) (machine : Machine) : Calls (.function f) machine f machine
  | class {cls : Class} {machine : Machine} {object : Instance} {made : Machine} {method : Function}
      {initializer : Function} {bound : Machine} (hobject : cls.instantiate machine = .done object made)
      (hmethod : cls.method? Class.initializer = some method)
      (hbound : method.bind object made = .done initializer bound) :
      Calls (.class cls) machine initializer bound

/-- Some turns of a loop, each with a true condition and a body that goes on to its end. -/
inductive Turns (level : Nat) (condition : Expr) (body : Stmt) : Machine → Machine → Prop where
  | none (machine : Machine) : Turns level condition body machine machine
  | more {machine before tested after : Machine} {value : Value}
      (hturns : Turns level condition body machine before)
      (hcondition : eval level condition before = .done value tested) (htrue : value.truthy = true)
      (hbody : exec level body tested = .done .next after) : Turns level condition body machine after

/-- The start of a task, for which some levels of nesting are left. `held` are the values that the task
around it has in hand. -/
structure Moment where
  level : Nat
  task : Task
  machine : Machine
  held : List Value

/-- The second moment is the start of something that the task of the first does itself. -/
inductive Moment.Starts : Moment → Moment → Prop where
  | operand {level : Nat} {expression operand : Expr} {before after : List Expr} {values held : List Value}
      {machine middle : Machine} (hparts : expression.parts = before ++ operand :: after)
      (hvalues : Eval.values (eval level) before machine = .done values middle)
      (hgoesOn : expression.goesOn values = true) :
      Starts ⟨level + 1, .eval expression, machine, held⟩ ⟨level, .eval operand, middle, values⟩
  | body {level : Nat} {callee : Expr} {paren : Token} {arguments : List Expr} {callable : Callable}
      {values held : List Value} {machine called bound middle : Machine} {function : Function}
      {statement : Stmt} {before after : List Stmt}
      (hvalues : Eval.values (eval level) (callee :: arguments) machine =
        .done (.callable callable :: values) called)
      (harity : values.length = callable.arity) (hdepth : called.depth < maxCallDepth)
      (hcalls : callable.Calls { called with depth := called.depth + 1 } function bound)
      (hbody : function.declaration.body = before ++ statement :: after)
      (hbefore : Eval.sequence (exec level) before (bound.enterBody function values) =
        .done .next middle) :
      Starts ⟨level + 1, .eval (.call callee paren arguments), machine, held⟩
        ⟨level, .exec statement, middle, .callable callable :: .callable (.function function) :: values⟩
  | first {level : Nat} {statement : Stmt} {expression : Expr} {others : List Task} {held : List Value}
      {machine : Machine} (hparts : statement.parts = .eval expression :: others) :
      Starts ⟨level + 1, .exec statement, machine, held⟩ ⟨level, .eval expression, machine, []⟩
  | branch {level : Nat} {condition : Expr} {whenTrue branch : Stmt} {whenFalse : Option Stmt}
      {value : Value} {held : List Value} {machine middle : Machine}
      (hcondition : eval level condition machine = .done value middle)
      (hbranch : (if value.truthy then some whenTrue else whenFalse) = some branch) :
      Starts ⟨level + 1, .exec (.conditional condition whenTrue whenFalse), machine, held⟩
        ⟨level, .exec branch, middle, []⟩
  | condition {level : Nat} {condition : Expr} {body : Stmt} {held : List Value}
      {machine middle : Machine} (hturns : Turns level condition body machine middle) :
      Starts ⟨level + 1, .exec (.loop condition body), machine, held⟩ ⟨level, .eval condition, middle, []⟩
  | turn {level : Nat} {condition : Expr} {body : Stmt} {value : Value} {held : List Value}
      {machine middle tested : Machine} (hturns : Turns level condition body machine middle)
      (hcondition : eval level condition middle = .done value tested) (htrue : value.truthy = true) :
      Starts ⟨level + 1, .exec (.loop condition body), machine, held⟩ ⟨level, .exec body, tested, []⟩
  | inner {level : Nat} {statement : Stmt} {before after : List Stmt} {held : List Value}
      {machine middle : Machine}
      (hbefore : Eval.sequence (exec level) before machine.enterBlock = .done .next middle) :
      Starts ⟨level + 1, .exec (.block (before ++ statement :: after)), machine, held⟩
        ⟨level, .exec statement, middle, []⟩

/-! ### Sessions -/

/-- What a session is asked to do with a source. -/
inductive Request where
  | run (source : String)
  | evaluate (source : String)

def Request.source : Request → String
  | .run source | .evaluate source => source

/-- What there is to do: nothing, if the source has errors. -/
def Request.tasks : Request → List Task
  | .run source =>
    let parsed := readProgram source
    if parsed.diagnostics.hadError then [] else parsed.tree.map .exec
  | .evaluate source =>
    let parsed := readExpression source
    if parsed.diagnostics.hadError then [] else parsed.tree.toList.map .eval

/-- Requests that a machine has served since it started, the last one first, and the values that they
gave. The machine may have its clock set in between. -/
inductive Session : List Request → List Value → Machine → Prop where
  | start (sink : Sink) (time : Clock) : Session [] [] (.start sink time)
  | run {requests : List Request} {results : List Value} {machine after : Machine}
      (h : Session requests results machine) (level : Nat) (source : String) {value? : Option Unit}
      (hends : (machine.run level source).Ends value? after) :
      Session (.run source :: requests) results after
  | evaluate {requests : List Request} {results : List Value} {machine after : Machine}
      (h : Session requests results machine) (level : Nat) (source : String) {value? : Option Value}
      (hends : (machine.evaluate level source).Ends value? after) :
      Session (.evaluate source :: requests) (value?.toList ++ results) after
  | clock {requests : List Request} {results : List Value} {machine : Machine}
      (h : Session requests results machine) (time : Clock) :
      Session requests results { machine with time }

/-- The tasks in progress while the last of some requests is served, the innermost first. -/
inductive InProgress : List Request → List Value → List Moment → Prop where
  | statement {requests : List Request} {results : List Value} {machine middle : Machine} {source : String}
      {statement : Stmt} {before after : List Stmt} {level : Nat} (h : Session requests results machine)
      (hprogram : (Request.run source).tasks = (before ++ statement :: after).map .exec)
      (hbefore : Eval.sequence (exec level) before machine = .done .next middle) :
      InProgress (.run source :: requests) results [⟨level, .exec statement, middle, []⟩]
  | expression {requests : List Request} {results : List Value} {machine : Machine} {source : String}
      {expression : Expr} (level : Nat) (h : Session requests results machine)
      (hexpression : (Request.evaluate source).tasks = [.eval expression]) :
      InProgress (.evaluate source :: requests) results [⟨level, .eval expression, machine, []⟩]
  | deeper {requests : List Request} {results : List Value} {outer inner : Moment} {around : List Moment}
      (h : InProgress requests results (outer :: around)) (hstarts : outer.Starts inner) :
      InProgress requests results (inner :: outer :: around)

/-- The value that a statement returns, if it does. -/
def Flow.values : Flow → List Value
  | .next => []
  | .returned value => [value]

/-- How a task ends: with a value, if it gives or returns one, or with an error. -/
inductive Moment.Ends : Moment → List Value → Machine → Prop where
  | eval {level : Nat} {expression : Expr} {machine after : Machine} {held : List Value}
      {value? : Option Value} (hrun : (eval level expression machine).Ends value? after) :
      Ends ⟨level, .eval expression, machine, held⟩ value?.toList after
  | exec {level : Nat} {statement : Stmt} {machine after : Machine} {held : List Value}
      {flow? : Option Flow} (hrun : (exec level statement machine).Ends flow? after) :
      Ends ⟨level, .exec statement, machine, held⟩ (flow?.elim [] Flow.values) after

/-- All states of a session: between two requests, where a task starts, and where it ends. With the state
go the environments that are in use, the current one first, and the values that are in hand. -/
inductive Situation : List Request → Machine → List Environment → List Value → Prop where
  | between {requests : List Request} {results : List Value} {machine : Machine}
      (h : Session requests results machine) :
      Situation requests machine [machine.environment] results
  | start {requests : List Request} {results : List Value} {moment : Moment} {around : List Moment}
      (h : InProgress requests results (moment :: around)) :
      Situation requests moment.machine ((moment :: around).map (·.machine.environment))
        ((moment :: around).flatMap Moment.held ++ results)
  | stop {requests : List Request} {results values : List Value} {moment : Moment} {around : List Moment}
      {after : Machine} (h : InProgress requests results (moment :: around))
      (hends : moment.Ends values after) :
      Situation requests after ((moment :: around).map (·.machine.environment))
        (values ++ ((moment :: around).flatMap Moment.held ++ results))

/-! ### Time -/

/-- The machine is in the state at some time while the task of the moment is in progress. -/
inductive Moment.Passes : Moment → Machine → Prop where
  | start (moment : Moment) : Passes moment moment.machine
  | inside {outer inner : Moment} {machine : Machine} (hstarts : outer.Starts inner)
      (h : inner.Passes machine) : Passes outer machine
  | stop {moment : Moment} {values : List Value} {after : Machine} (hends : moment.Ends values after) :
      Passes moment after

/-- While some requests are served, the first state leads to the second. What follows a task begins in the very
state in which that has ended, but for the body of a function, which begins in a state of its own when the operands
of the call are evaluated. -/
inductive Leads : List Request → Machine → Machine → Prop where
  | begins {requests : List Request} {results : List Value} {machine middle : Machine} {source : String}
      {statement : Stmt} {before after : List Stmt} {level : Nat} (h : Session requests results machine)
      (hprogram : (Request.run source).tasks = (before ++ statement :: after).map .exec)
      (hbefore : Eval.sequence (exec level) before machine = .done .next middle) :
      Leads (.run source :: requests) machine middle
  | starts {requests : List Request} {results : List Value} {outer inner : Moment} {around : List Moment}
      (h : InProgress requests results (outer :: around)) (hstarts : outer.Starts inner) :
      Leads requests outer.machine inner.machine
  | enters {requests : List Request} {results : List Value} {around : List Moment} {level : Nat} {callee : Expr}
      {paren : Token} {arguments : List Expr} {callable : Callable} {values held : List Value}
      {machine called bound : Machine} {function : Function}
      (h : InProgress requests results
        (⟨level + 1, .eval (.call callee paren arguments), machine, held⟩ :: around))
      (hvalues : Eval.values (eval level) (callee :: arguments) machine =
        .done (.callable callable :: values) called)
      (harity : values.length = callable.arity) (hdepth : called.depth < maxCallDepth)
      (hcalls : callable.Calls { called with depth := called.depth + 1 } function bound) :
      Leads requests called (bound.enterBody function values)
  | ends {requests : List Request} {results values : List Value} {moment : Moment} {around : List Moment}
      {machine after : Machine} (h : InProgress requests results (moment :: around))
      (hpasses : moment.Passes machine) (hends : moment.Ends values after) :
      Leads requests machine after
  | run {requests : List Request} {results : List Value} {machine after : Machine}
      (h : Session requests results machine) (level : Nat) (source : String) {value? : Option Unit}
      (hends : (machine.run level source).Ends value? after) : Leads (.run source :: requests) machine after
  | evaluate {requests : List Request} {results : List Value} {machine after : Machine}
      (h : Session requests results machine) (level : Nat) (source : String) {value? : Option Value}
      (hends : (machine.evaluate level source).Ends value? after) :
      Leads (.evaluate source :: requests) machine after
  | clock {requests : List Request} {results : List Value} {machine : Machine}
      (h : Session requests results machine) (time : Clock) :
      Leads requests machine { machine with time }

/-- The first state comes no later than the second, in some session that both are in. -/
def Precedes : Machine → Machine → Prop :=
  Relation.ReflTransGen fun before after => ∃ requests, Leads requests before after

end Script
