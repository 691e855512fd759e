import Script.Proofs.Moments.Operands

/-!
# The log of a run

What a task does to properties, in the order in which it does it: every read and every write, each with the
state in which it is done. The log is told by the same steps as the evaluation, so there is one for runs that
fail too, up to the point where they do.
-/

namespace Script

variable {α : Type}

/-- A property is read, or the value is written to it. The state is the one just before. -/
structure Event where
  machine : Machine
  object : Instance
  name : Token
  written? : Option Value

/-- The state with another value in a field of an object. -/
def Machine.withField (machine : Machine) (id : Nat) (name : String) (value : Value) : Machine :=
  { machine with store := machine.store.setField id name value }

namespace Event

/-- The state just after, as far as fields go. -/
def next (event : Event) : Machine :=
  event.written?.elim event.machine (event.machine.withField event.object.id event.name.lexeme)

/-- What is written to the field of the name of the object of the number, if that is what happens. -/
def writes? (event : Event) (id : Nat) (name : String) : Option Value :=
  if event.object.id = id ∧ event.name.lexeme = name then event.written? else none

end Event

/-- What a computation does to properties, from the state that it starts in. -/
abbrev Log := Machine → List Event

namespace Log

def none : Log :=
  fun _ => []

/-- The log of the first computation, and then that of what follows on its value. -/
def bind (first : Eval α) (log : Log) (next : α → Log) : Log :=
  fun machine =>
    log machine ++
      match first machine with
      | .done value middle => next value middle
      | _ => []

end Log

/-- The value written last to the field, if any is. -/
def lastWritten? (events : List Event) (id : Nat) (name : String) : Option Value :=
  events.reverse.findSome? (·.writes? id name)

/-! ### The logs of tasks -/

def Expr.operandsLog (eval : Expr → Eval Value) (log : Expr → Log) (expression : Expr)
    (values : List Value) : List Expr → Log
  | [] => .none
  | operand :: rest =>
    if expression.goesOn values then
      .bind (eval operand) (log operand) fun value => operandsLog eval log expression (values ++ [value]) rest
    else .none

def Eval.sequenceLog (exec : Stmt → Eval Flow) (log : Stmt → Log) : List Stmt → Log
  | [] => .none
  | statement :: rest =>
    .bind (exec statement) (log statement) fun flow =>
      match flow with
      | .next => sequenceLog exec log rest
      | .returned _ => .none

def Function.callLog (function : Function) (exec : Stmt → Eval Flow) (log : Stmt → Log)
    (arguments : List Value) : Log :=
  fun machine => Eval.sequenceLog exec log function.declaration.body (machine.enterBody function arguments)

def Class.callLog (cls : Class) (exec : Stmt → Eval Flow) (log : Stmt → Log) (arguments : List Value) : Log :=
  .bind cls.instantiate .none fun object =>
    match cls.method? Class.initializer with
    | none => .none
    | some method => .bind (method.bind object) .none fun initializer => initializer.callLog exec log arguments

def Callable.callLog (callable : Callable) (exec : Stmt → Eval Flow) (log : Stmt → Log)
    (arguments : List Value) : Log :=
  match callable with
  | .function f => f.callLog exec log arguments
  | .class c => c.callLog exec log arguments
  | .native _ => .none

/-- A call that is refused runs nothing. -/
def Value.callLog (callee : Value) (exec : Stmt → Eval Flow) (log : Stmt → Log) (arguments : List Value) : Log :=
  match callee with
  | .callable c => fun machine =>
    if arguments.length = c.arity ∧ machine.depth < maxCallDepth then
      c.callLog exec log arguments { machine with depth := machine.depth + 1 }
    else []
  | _ => .none

/-- What an expression adds when its operands have the values. -/
def Expr.finishLog (exec : Stmt → Eval Flow) (log : Stmt → Log) : Expr → List Value → Log
  | .get _ name, [.instance object] => fun machine => [{ machine, object, name, written? := none }]
  | .set _ name _, [.instance object, value] => fun machine => [{ machine, object, name, written? := some value }]
  | .call _ _ _, callee :: arguments => callee.callLog exec log arguments
  | _, _ => .none

def Eval.repeatWhileLog (condition : Eval Value) (conditionLog : Log) (body : Eval Flow) (bodyLog : Log) :
    Nat → Log
  | 0 => .none
  | turns + 1 =>
    .bind condition conditionLog fun value =>
      if value.truthy then
        .bind body bodyLog fun flow =>
          match flow with
          | .next => repeatWhileLog condition conditionLog body bodyLog turns
          | .returned _ => .none
      else .none

section Step

variable (eval : Expr → Eval Value) (evalLog : Expr → Log) (exec : Stmt → Eval Flow) (execLog : Stmt → Log)

def Expr.logWith (expression : Expr) : Log :=
  .bind (expression.operands eval [] expression.parts)
    (expression.operandsLog eval evalLog [] expression.parts) (expression.finishLog exec execLog)

def Stmt.logWith (turns : Nat) : Stmt → Log
  | .block statements => fun machine => Eval.sequenceLog exec execLog statements machine.enterBlock
  | .classDecl _ _ | .function _ => .none
  | .expression e | .print e => evalLog e
  | .conditional condition whenTrue whenFalse =>
    .bind (eval condition) (evalLog condition) fun value =>
      if value.truthy then execLog whenTrue else whenFalse.elim .none execLog
  | .return _ e | .var _ e => e.elim .none evalLog
  | .loop condition body =>
    Eval.repeatWhileLog (eval condition) (evalLog condition) (exec body) (execLog body) turns

end Step

mutual

def Expr.log : Nat → Expr → Log
  | 0, _ => .none
  | level + 1, expression => expression.logWith (eval level) (Expr.log level) (exec level) (Stmt.log level)

def Stmt.log : Nat → Stmt → Log
  | 0, _ => .none
  | level + 1, statement => statement.logWith (eval level) (Expr.log level) (exec level) (Stmt.log level) level

end

theorem Log.bind_of_done {β : Type} {first : Eval β} {log : Log} {next : β → Log} {machine middle : Machine}
    {value : β} (h : first machine = .done value middle) :
    Log.bind first log next machine = log machine ++ next value middle := by
  simp only [Log.bind, h]

/-- Reading a property of what an expression gives is the last thing in the log. -/
theorem Expr.log_get {level : Nat} {inner : Expr} {name : Token} {object : Instance} {machine middle : Machine}
    (hinner : eval level inner machine = .done (.instance object) middle) :
    eval (level + 1) (.get inner name) machine = object.get name middle ∧
      (Expr.get inner name).log (level + 1) machine =
        inner.log level machine ++ [{ machine := middle, object, name, written? := none }] := by
  have hoperands : (Expr.get inner name).operands (eval level) [] [inner] machine =
      .done [.instance object] middle :=
    Eval.bind_eq_done_iff.mpr ⟨_, middle, hinner, rfl⟩
  constructor
  · change (eval level inner >>= _) machine = _
    rw [Eval.bind_apply, hinner]
  · rw [Expr.log, logWith, parts, Log.bind_of_done hoperands]
    change Log.bind _ _ _ machine ++ _ = _
    rw [Log.bind_of_done hinner]
    exact congrArg (· ++ _) (List.append_nil _)

/-- Writing to it is, and then the field has the value. -/
theorem Expr.log_set {level : Nat} {inner right : Expr} {name : Token} {object : Instance} {value : Value}
    {machine middle last : Machine} (hinner : eval level inner machine = .done (.instance object) middle)
    (hright : eval level right middle = .done value last) :
    eval (level + 1) (.set inner name right) machine =
        .done value (last.withField object.id name.lexeme value) ∧
      (Expr.set inner name right).log (level + 1) machine =
        inner.log level machine ++ right.log level middle ++
          [{ machine := last, object, name, written? := some value }] := by
  have hrest : (Expr.set inner name right).operands (eval level) [.instance object] [right] middle =
      .done [.instance object, value] last :=
    Eval.bind_eq_done_iff.mpr ⟨_, last, hright, rfl⟩
  have hoperands : (Expr.set inner name right).operands (eval level) [] [inner, right] machine =
      .done [.instance object, value] last :=
    Eval.bind_eq_done_iff.mpr ⟨_, middle, hinner, hrest⟩
  constructor
  · change (eval level inner >>= _) machine = _
    rw [Eval.bind_apply, hinner]
    change (eval level right >>= _) middle = _
    rw [Eval.bind_apply, hright]
    rfl
  · rw [Expr.log, logWith, parts, Log.bind_of_done hoperands]
    change Log.bind _ _ _ machine ++ _ = _
    rw [Log.bind_of_done hinner]
    change _ ++ Log.bind _ _ _ middle ++ _ = _
    rw [Log.bind_of_done hright]
    exact congrArg (_ ++ · ++ _) (List.append_nil _)

/-- What is done to properties while a request is served. -/
def Request.log (level : Nat) : Request → Log
  | .run source =>
    let parsed := readProgram source
    if parsed.diagnostics.hadError then .none
    else Eval.sequenceLog (exec level) (Stmt.log level) parsed.tree
  | .evaluate source =>
    let parsed := readExpression source
    if parsed.diagnostics.hadError then .none else parsed.tree.elim .none (Expr.log level)

end Script
