import Mathlib.Data.List.Basic
import Mathlib.Logic.Relation
import Script.Proofs.Moments.Operands

/-!
# What a task breaks off at

A task breaks off in its own operation, or because something that it starts does. So an error that ends a request
is raised by the operation of a task at some moment, however deep inside of blocks and calls, and nothing but the
turns of a loop or the levels of nesting can be exhausted.
-/

namespace Script

variable {level : Nat} {machine after : Machine} {error : RuntimeError} {error? : Option RuntimeError}

/-- The operation of the task itself can fail with the error, when all that the task starts has ended. -/
inductive Task.Raises : Task → RuntimeError → Prop where
  | variable (name : Token) : Raises (.eval (.variable name)) (.undefinedVariable name)
  | this (keyword : Token) : Raises (.eval (.this keyword)) (.undefinedVariable keyword)
  | assign (name : Token) (value : Expr) : Raises (.eval (.assign name value)) (.undefinedVariable name)
  | property (object : Expr) (name : Token) : Raises (.eval (.get object name)) (.undefinedProperty name)
  | read (object : Expr) (name : Token) : Raises (.eval (.get object name)) (.notAnInstance name .read)
  | write (object : Expr) (name : Token) (value : Expr) :
      Raises (.eval (.set object name value)) (.notAnInstance name .write)
  | binary {left right : Expr} {operator : Token} {x y : Value} {fault : OperandFault}
      (hfault : operator.kind.binary x y = .error fault) :
      Raises (.eval (.binary left operator right)) (.operand operator fault)
  | unary {right : Expr} {operator : Token} {x : Value} {fault : OperandFault}
      (hfault : operator.kind.unary x = .error fault) :
      Raises (.eval (.unary operator right)) (.operand operator fault)
  | notCallable (callee : Expr) (paren : Token) (arguments : List Expr) :
      Raises (.eval (.call callee paren arguments)) (.notCallable paren)
  | arity (callee : Expr) (paren : Token) (arguments : List Expr) (expected found : Nat) :
      Raises (.eval (.call callee paren arguments)) (.arity paren expected found)
  | stackOverflow (callee : Expr) (paren : Token) (arguments : List Expr) :
      Raises (.eval (.call callee paren arguments)) (.stackOverflow paren)
  | output (e : Expr) (fault : OutputFault) : Raises (.exec (.print e)) (.output fault)

/-- The task itself can break off so: with an error that its operation raises, or for want of turns. -/
inductive Task.Stops : Task → Option RuntimeError → Prop where
  | raises {task : Task} {error : RuntimeError} (h : task.Raises error) : Stops task (some error)
  | turns (condition : Expr) (body : Stmt) : Stops (.exec (.loop condition body)) none

theorem Task.Stops.of_error {task : Task} (h : task.Stops (some error)) : task.Raises error := by
  cases h with
  | raises h => exact h

/-- The task of the moment breaks off, with an error unless it is exhausted. -/
inductive Moment.Breaks : Moment → Option RuntimeError → Prop where
  | eval {level : Nat} {expression : Expr} {machine : Machine} {held : List Value}
      {error? : Option RuntimeError} (hrun : (eval level expression machine).Breaks error?) :
      Breaks ⟨level, .eval expression, machine, held⟩ error?
  | exec {level : Nat} {statement : Stmt} {machine : Machine} {held : List Value}
      {error? : Option RuntimeError} (hrun : (exec level statement machine).Breaks error?) :
      Breaks ⟨level, .exec statement, machine, held⟩ error?

/-! ### Parts that break off -/

namespace Eval

variable {α : Type}

theorem exists_of_sequence_breaks {exec : Stmt → Eval Flow} {statements : List Stmt}
    (h : (Eval.sequence exec statements machine).Breaks error?) :
    ∃ before statement rest middle, statements = before ++ statement :: rest ∧
      Eval.sequence exec before machine = .done .next middle ∧ (exec statement middle).Breaks error? := by
  induction statements generalizing machine with
  | nil => cases h
  | cons statement rest ih =>
      rcases breaks_bind h with hfirst | ⟨flow, next, hfirst, hrest⟩
      · exact ⟨[], statement, rest, machine, rfl, rfl, hfirst⟩
      · cases flow with
        | returned => cases hrest
        | next =>
            obtain ⟨before, last, others, middle, rfl, hbefore, hlast⟩ := ih hrest
            refine ⟨statement :: before, last, others, middle, rfl, ?_, hlast⟩
            exact bind_eq_done_iff.mpr ⟨.next, next, hfirst, hbefore⟩

/-- A loop breaks off in one of its turns, unless there are no more of them. -/
theorem exists_of_repeatWhile_breaks {condition : Expr} {body : Stmt} {start : Machine}
    (hturns : Turns level condition body start machine) {turns : Nat}
    (h : (repeatWhile (Script.eval level condition) (Script.exec level body) turns machine).Breaks error?) :
    error? = none ∨ ∃ middle, Turns level condition body start middle ∧
      ((Script.eval level condition middle).Breaks error? ∨
        ∃ value tested, Script.eval level condition middle = .done value tested ∧ value.truthy = true ∧
          (Script.exec level body tested).Breaks error?) := by
  induction turns generalizing machine with
  | zero =>
      cases h
      exact .inl rfl
  | succ turns ih =>
      rcases breaks_bind h with hcondition | ⟨value, tested, hcondition, h⟩
      · exact .inr ⟨machine, hturns, .inl hcondition⟩
      · split at h
        · next htrue =>
            rcases breaks_bind h with hbody | ⟨flow, next, hbody, h⟩
            · exact .inr ⟨machine, hturns, .inr ⟨value, tested, hcondition, htrue, hbody⟩⟩
            · cases flow with
              | returned => cases h
              | next => exact ih (.more hturns hcondition htrue hbody) h
        · cases h

end Eval

/-- Operands break off in one of them, after those before it. -/
theorem Expr.exists_of_operands_breaks {eval : Expr → Eval Value} {expression : Expr} {seen : List Value}
    {operands : List Expr} (h : (expression.operands eval seen operands machine).Breaks error?) :
    ∃ before operand rest values middle, operands = before ++ operand :: rest ∧
      Eval.values eval before machine = .done values middle ∧ expression.goesOn (seen ++ values) = true ∧
        (eval operand middle).Breaks error? := by
  induction operands generalizing machine seen with
  | nil => cases h
  | cons operand rest ih =>
      unfold Expr.operands at h
      split at h
      · next hgoesOn =>
          rcases Eval.breaks_bind h with hfirst | ⟨value, next, hfirst, h⟩
          · exact ⟨[], operand, rest, [], machine, rfl, rfl, by rwa [List.append_nil], hfirst⟩
          · obtain ⟨before, last, others, values, middle, rfl, hvalues, hgoesOn, hlast⟩ := ih h
            refine ⟨operand :: before, last, others, value :: values, middle, rfl, ?_, ?_, hlast⟩
            · refine Eval.bind_eq_done_iff.mpr ⟨value, next, hfirst, ?_⟩
              exact Eval.bind_eq_done_iff.mpr ⟨values, middle, hvalues, rfl⟩
            · rwa [List.append_assoc] at hgoesOn
      · cases h

/-- All operands are evaluated, or those up to one after which the expression does not go on. -/
theorem Expr.length_of_operands {eval : Expr → Eval Value} {expression : Expr} {seen values : List Value}
    {operands : List Expr} (h : expression.operands eval seen operands machine = .done values after) :
    values.length = seen.length + operands.length ∨ expression.goesOn values = false := by
  induction operands generalizing machine seen with
  | nil =>
      cases h
      exact .inl rfl
  | cons operand rest ih =>
      unfold Expr.operands at h
      split at h
      · obtain ⟨value, next, -, h⟩ := Eval.bind_eq_done_iff.mp h
        refine (ih h).imp_left fun hlength => ?_
        rw [hlength, List.length_append, List.length_singleton, List.length_cons]
        omega
      · next hgoesOn =>
          cases h
          exact .inr (Bool.eq_false_iff.mpr hgoesOn)

/-! ### Operations that break off -/

theorem Eval.undefined_of_lookup_breaks {name : Token} (h : (Eval.lookup name machine).Breaks error?) :
    error? = some (.undefinedVariable name) := by
  rw [Eval.lookup_apply] at h
  generalize machine.store.lookup? machine.environment name.lexeme = found at h
  cases found <;> cases h
  rfl

theorem Eval.fault_of_ofOperator_breaks {operator : Token} {result : Except OperandFault Value}
    (h : (Eval.ofOperator operator result machine).Breaks error?) :
    ∃ fault, result = .error fault ∧ error? = some (.operand operator fault) := by
  cases result <;> cases h
  exact ⟨_, rfl, rfl⟩

theorem Instance.undefined_of_get_breaks {object : Instance} {name : Token}
    (h : (object.get name machine).Breaks error?) : error? = some (.undefinedProperty name) := by
  simp only [Instance.get, Eval.bind_apply, Eval.read] at h
  generalize (machine.store.fields object.id).get? name.lexeme = field, object.cls.method? name.lexeme = method
    at h
  cases field with
  | some => cases h
  | none =>
      cases method <;> cases h
      rfl

/-- A call that nothing stands against breaks off in a function's body. -/
theorem Callable.exists_of_call_breaks {exec : Stmt → Eval Flow} {callable : Callable} {arguments : List Value}
    (h : (callable.call exec arguments machine).Breaks error?) :
    ∃ f bound before statement rest middle, callable.Calls machine f bound ∧
      f.declaration.body = before ++ statement :: rest ∧
        Eval.sequence exec before (bound.enterBody f arguments) = .done .next middle ∧
          (exec statement middle).Breaks error? := by
  have hfunction {f : Function} {bound : Machine} (hcall : (f.call exec arguments bound).Breaks error?) :
      ∃ before statement rest middle, f.declaration.body = before ++ statement :: rest ∧
        Eval.sequence exec before (bound.enterBody f arguments) = .done .next middle ∧
          (exec statement middle).Breaks error? := by
    rw [Function.call_eq] at hcall
    rcases Eval.breaks_bind hcall with hbody | ⟨flow, next, -, hdone⟩
    · exact Eval.exists_of_sequence_breaks (Outcome.breaks_of_mapMachine hbody)
    · cases flow <;> cases hdone
  cases callable with
  | function f =>
      obtain ⟨before, statement, rest, middle, hbody⟩ := hfunction h
      exact ⟨f, machine, before, statement, rest, middle, .function f machine, hbody⟩
  | «class» c =>
      rcases Eval.breaks_bind h with hobject | ⟨object, made, hobject, h⟩
      · cases hobject
      · cases hmethod : c.method? Class.initializer with
        | none =>
            rw [hmethod] at h
            cases h
        | some method =>
            rw [hmethod] at h
            rcases Eval.breaks_bind h with hbound | ⟨f, bound, hbound, h⟩
            · cases hbound
            · rcases Eval.breaks_bind h with hcall | ⟨value, next, -, hdone⟩
              · obtain ⟨before, statement, rest, middle, hbody⟩ := hfunction hcall
                exact ⟨f, bound, before, statement, rest, middle, .class hobject hmethod hbound, hbody⟩
              · cases hdone
  | native native =>
      cases native
      cases h

/-- An expression whose operands are evaluated raises an error itself, unless it is a call that is made. -/
theorem Expr.raises_of_finish_breaks {exec : Stmt → Eval Flow} {expression : Expr} {values : List Value}
    (hvalues : values.length = expression.parts.length ∨ expression.goesOn values = false)
    (h : (expression.finish exec values machine).Breaks error?) :
    (Task.eval expression).Stops error? ∨ ∃ callee paren arguments callable rest,
      expression = .call callee paren arguments ∧ values = .callable callable :: rest ∧
        rest.length = callable.arity ∧ machine.depth < maxCallDepth ∧
          ((callable.call exec rest).counted machine).Breaks error? := by
  unfold Expr.finish at h
  split at h
  · rcases Eval.breaks_bind h with h | ⟨_, _, -, h⟩
    · rw [Eval.assign_apply] at h
      split at h <;> cases h
      exact .inl (.raises (.assign _ _))
    · cases h
  · obtain ⟨fault, hfault, rfl⟩ := Eval.fault_of_ofOperator_breaks h
    exact .inl (.raises (.binary hfault))
  · next callee paren arguments called rest =>
      cases called with
      | callable callable =>
          by_cases harity : rest.length = callable.arity
          · by_cases hdepth : machine.depth < maxCallDepth
            · rw [Value.call_counted paren harity hdepth] at h
              exact .inr ⟨callee, paren, arguments, callable, rest, rfl, rfl, harity, hdepth, h⟩
            · rw [Value.call_of_overflow paren harity hdepth] at h
              cases h
              exact .inl (.raises (.stackOverflow _ _ _))
          · rw [Value.call_of_arity paren harity] at h
            cases h
            exact .inl (.raises (.arity _ _ _ _ _))
      | _ =>
          cases h
          exact .inl (.raises (.notCallable _ _ _))
  · split at h
    · obtain rfl := Instance.undefined_of_get_breaks h
      exact .inl (.raises (.property _ _))
    · cases h
      exact .inl (.raises (.read _ _))
  · cases h
  · cases h
  · cases h
  · cases h
  · cases h
  · cases h
    exact .inl (.raises (.write _ _ _))
  · obtain rfl := Eval.undefined_of_lookup_breaks h
    exact .inl (.raises (.this _))
  · obtain ⟨fault, hfault, rfl⟩ := Eval.fault_of_ofOperator_breaks h
    exact .inl (.raises (.unary hfault))
  · obtain rfl := Eval.undefined_of_lookup_breaks h
    exact .inl (.raises (.variable _))
  · -- There are no other numbers of operands.
    next hwrite hassign hbinary hcall hget hgrouping hsettled hlogical hliteral hset hthis hunary hvariable =>
    have hlength (hgoesOn : expression.goesOn values = true) : values.length = expression.parts.length :=
      hvalues.resolve_right (ne_false_of_eq_true hgoesOn)
    cases expression with
    | logical left operator right =>
        rcases values with _ | ⟨first, _ | ⟨second, _ | ⟨third, others⟩⟩⟩
        · simp [Expr.parts, Expr.goesOn] at hvalues
        · exact (hsettled _ _ _ _ rfl rfl).elim
        · exact (hlogical _ _ _ _ _ rfl rfl).elim
        · simp [Expr.parts, Expr.goesOn] at hvalues
    | set object name value => exact (hwrite _ _ _ rfl).elim
    | binary left operator right =>
        obtain ⟨x, y, rfl⟩ := List.length_eq_two.mp (hlength rfl)
        exact (hbinary _ _ _ _ _ rfl rfl).elim
    | call callee paren arguments =>
        obtain ⟨called, rest, rfl⟩ := List.exists_cons_of_length_eq_add_one (hlength rfl)
        exact (hcall _ _ _ _ _ rfl rfl).elim
    | literal =>
        obtain rfl := List.eq_nil_of_length_eq_zero (hlength rfl)
        exact (hliteral _ rfl rfl).elim
    | this =>
        obtain rfl := List.eq_nil_of_length_eq_zero (hlength rfl)
        exact (hthis _ rfl rfl).elim
    | «variable» =>
        obtain rfl := List.eq_nil_of_length_eq_zero (hlength rfl)
        exact (hvariable _ rfl rfl).elim
    | assign =>
        obtain ⟨x, rfl⟩ := List.length_eq_one_iff.mp (hlength rfl)
        exact (hassign _ _ _ rfl rfl).elim
    | get =>
        obtain ⟨x, rfl⟩ := List.length_eq_one_iff.mp (hlength rfl)
        exact (hget _ _ _ rfl rfl).elim
    | grouping =>
        obtain ⟨x, rfl⟩ := List.length_eq_one_iff.mp (hlength rfl)
        exact (hgrouping _ _ rfl rfl).elim
    | unary =>
        obtain ⟨x, rfl⟩ := List.length_eq_one_iff.mp (hlength rfl)
        exact (hunary _ _ _ rfl rfl).elim

/-! ### Moments -/

namespace Moment

theorem stops_or_starts_of_eval {expression : Expr} {held : List Value}
    (h : (Script.eval (level + 1) expression machine).Breaks error?) :
    (Task.eval expression).Stops error? ∨
      ∃ inner, Starts ⟨level + 1, .eval expression, machine, held⟩ inner ∧ inner.Breaks error? := by
  change (expression.evalWith (Script.eval level) (Script.exec level) machine).Breaks error? at h
  rw [Expr.evalWith_eq] at h
  rcases Eval.breaks_bind h with hoperands | ⟨values, called, hoperands, hfinish⟩
  · obtain ⟨before, operand, rest, values, middle, hparts, hvalues, hgoesOn, hoperand⟩ :=
      Expr.exists_of_operands_breaks hoperands
    exact .inr ⟨_, .operand hparts hvalues hgoesOn, .eval hoperand⟩
  have hlength := Expr.length_of_operands hoperands
  rw [List.length_nil, Nat.zero_add] at hlength
  rcases Expr.raises_of_finish_breaks hlength hfinish with
    hstops | ⟨callee, paren, arguments, callable, others, rfl, rfl, harity, hdepth, hcall⟩
  · exact .inl hstops
  -- All operands of a call are evaluated, whatever their values are.
  have hall (values : List Value) : (Expr.call callee paren arguments).goesOn values = true := rfl
  rw [Expr.operands_of_goesOn hall, map_eq_pure_bind] at hoperands
  obtain ⟨values, middle, hvalues, hdone⟩ := Eval.bind_eq_done_iff.mp hoperands
  cases hdone
  obtain ⟨f, bound, before, statement, rest, next, hcalls, hbody, hbefore, hstatement⟩ :=
    Callable.exists_of_call_breaks (Outcome.breaks_of_mapMachine hcall)
  exact .inr ⟨_, .body hvalues harity hdepth hcalls hbody hbefore, .exec hstatement⟩

theorem stops_or_starts_of_exec {statement : Stmt} {held : List Value}
    (h : (Script.exec (level + 1) statement machine).Breaks error?) :
    (Task.exec statement).Stops error? ∨
      ∃ inner, Starts ⟨level + 1, .exec statement, machine, held⟩ inner ∧ inner.Breaks error? := by
  cases statement with
  | block statements =>
      have hentered : (Eval.entered Machine.enterBlock (Eval.sequence (Script.exec level) statements)
          machine).Breaks error? := h
      obtain ⟨before, statement, rest, middle, rfl, hbefore, hstatement⟩ :=
        Eval.exists_of_sequence_breaks (Outcome.breaks_of_mapMachine hentered)
      exact .inr ⟨_, .inner hbefore, .exec hstatement⟩
  | classDecl | function => cases h
  | expression e =>
      rcases Eval.breaks_bind h with hvalue | ⟨_, _, -, hdone⟩
      · exact .inr ⟨_, .first rfl, .eval hvalue⟩
      · cases hdone
  | conditional condition whenTrue whenFalse =>
      rcases Eval.breaks_bind h with hcondition | ⟨value, middle, hcondition, hbranch⟩
      · exact .inr ⟨_, .first rfl, .eval hcondition⟩
      · split at hbranch
        · next htrue => exact .inr ⟨_, .branch hcondition (if_pos htrue), .exec hbranch⟩
        · next htrue =>
            split at hbranch
            · exact .inr ⟨_, .branch hcondition (if_neg htrue), .exec hbranch⟩
            · cases hbranch
  | print e =>
      rcases Eval.breaks_bind h with hvalue | ⟨value, middle, -, h⟩
      · exact .inr ⟨_, .first rfl, .eval hvalue⟩
      · rcases Eval.breaks_bind h with hprint | ⟨_, _, -, hdone⟩
        · unfold Eval.print at hprint
          simp only at hprint
          split at hprint <;> cases hprint
          exact .inl (.raises (.output _ _))
        · cases hdone
  | «return» keyword value =>
      cases value with
      | none => cases h
      | some e =>
          rcases Eval.breaks_bind h with hvalue | ⟨_, _, -, hdone⟩
          · exact .inr ⟨_, .first rfl, .eval hvalue⟩
          · cases hdone
  | var name initializer =>
      cases initializer with
      | none => cases h
      | some e =>
          rcases Eval.breaks_bind h with hvalue | ⟨_, _, -, hdone⟩
          · exact .inr ⟨_, .first rfl, .eval hvalue⟩
          · cases hdone
  | loop condition body =>
      rcases Eval.exists_of_repeatWhile_breaks (.none machine) h with
        rfl | ⟨middle, hturns, hcondition | ⟨value, tested, hcondition, htrue, hbody⟩⟩
      · exact .inl (.turns condition body)
      · exact .inr ⟨_, .condition hturns, .eval hcondition⟩
      · exact .inr ⟨_, .turn hturns hcondition htrue, .exec hbody⟩

/-- A task that breaks off does so itself, or starts something that breaks off so, unless it has no level to begin
with. -/
theorem Breaks.stops_or_starts {moment : Moment} (h : moment.Breaks error?) :
    (moment.level = 0 ∧ error? = none) ∨ moment.task.Stops error? ∨
      ∃ inner, moment.Starts inner ∧ inner.Breaks error? := by
  cases h with
  | @eval level _ _ _ _ hrun =>
      cases level with
      | zero =>
          cases hrun
          exact .inl ⟨rfl, rfl⟩
      | succ level => exact .inr (stops_or_starts_of_eval hrun)
  | @exec level _ _ _ _ hrun =>
      cases level with
      | zero =>
          cases hrun
          exact .inl ⟨rfl, rfl⟩
      | succ level => exact .inr (stops_or_starts_of_exec hrun)

/-- The task fails with the error, and nothing that it starts does. -/
structure FailsItself (moment : Moment) (error : RuntimeError) : Prop where
  breaks : moment.Breaks (some error)
  alone : ∀ inner, moment.Starts inner → ¬ inner.Breaks (some error)

theorem FailsItself.raises {moment : Moment} (h : moment.FailsItself error) : moment.task.Raises error := by
  rcases h.breaks.stops_or_starts with ⟨-, hnone⟩ | hstops | ⟨inner, hstarts, hbreaks⟩
  · cases hnone
  · exact hstops.of_error
  · exact absurd hbreaks (h.alone inner hstarts)

/-- An error comes from a task that fails by itself, the failing one or one that is started inside of it. -/
theorem Breaks.exists_failsItself {moment : Moment} (h : moment.Breaks (some error)) :
    ∃ inner, Relation.ReflTransGen Starts moment inner ∧ inner.FailsItself error := by
  induction hlevel : moment.level using Nat.strong_induction_on generalizing moment with
  | h level ih =>
      by_cases hdeeper : ∃ inner, moment.Starts inner ∧ inner.Breaks (some error)
      · obtain ⟨inner, hstarts, hbreaks⟩ := hdeeper
        have hless : inner.level < level := by
          rw [← hlevel, hstarts.level_eq]
          exact Nat.lt_succ_self _
        obtain ⟨last, hinner, hlast⟩ := ih inner.level hless hbreaks rfl
        exact ⟨last, .head hstarts hinner, hlast⟩
      · exact ⟨moment, .refl, h, fun inner hstarts hbreaks => hdeeper ⟨inner, hstarts, hbreaks⟩⟩

end Moment

/-! ### Requests -/

theorem InProgress.inside {requests : List Request} {results : List Value} {outer inner : Moment}
    {around : List Moment} (h : InProgress requests results (outer :: around))
    (hinner : Relation.ReflTransGen Moment.Starts outer inner) :
    ∃ others, InProgress requests results (inner :: others) := by
  induction hinner with
  | refl => exact ⟨around, h⟩
  | tail _ hstarts ih =>
      obtain ⟨others, hothers⟩ := ih
      exact ⟨_, hothers.deeper hstarts⟩

/-- A run that breaks off has statements to execute, and one of them breaks off so, unless all that fails is to
flush the output. -/
theorem Machine.exists_of_run_breaks {source : String}
    (h : (machine.run level source).Breaks (error?.map .runtime)) :
    (∃ fault, error? = some (.output fault)) ∨ ∃ before statement rest middle,
      (Request.run source).tasks = (before ++ statement :: rest).map .exec ∧
        Eval.sequence (exec level) before machine = .done .next middle ∧
          (exec level statement middle).Breaks error? := by
  simp only [Machine.run] at h
  split at h
  · cases error? <;> cases h
  · next hread =>
      have htasks : (Request.run source).tasks = (readProgram source).tree.map .exec := if_neg hread
      obtain ⟨cause?, hinterpret, heq⟩ := Outcome.breaks_of_mapError h
      obtain rfl : error? = cause? := Option.map_injective (fun _ _ => RunError.runtime.inj) heq
      rcases Eval.breaks_bind hinterpret with hsequence | ⟨flow, middle, -, hflush⟩
      · obtain ⟨before, statement, rest, middle, htree, hbefore, hstatement⟩ :=
          Eval.exists_of_sequence_breaks hsequence
        exact .inr ⟨before, statement, rest, middle, htree ▸ htasks, hbefore, hstatement⟩
      · unfold Eval.flush at hflush
        split at hflush <;> cases hflush
        exact .inl ⟨_, rfl⟩

/-- Where evaluating breaks off, there is an expression to evaluate, and that breaks off. -/
theorem Machine.exists_of_evaluate_breaks {source : String}
    (h : (machine.evaluate level source).Breaks (error?.map .runtime)) :
    ∃ expression, (Request.evaluate source).tasks = [.eval expression] ∧
      (eval level expression machine).Breaks error? := by
  simp only [Machine.evaluate] at h
  split at h
  · next expression htree =>
      split at h
      · cases error? <;> cases h
      · next hread =>
          obtain ⟨cause?, hrun, heq⟩ := Outcome.breaks_of_mapError h
          obtain rfl : error? = cause? := Option.map_injective (fun _ _ => RunError.runtime.inj) heq
          refine ⟨expression, ?_, hrun⟩
          simp only [Request.tasks, if_neg hread, htree]
          rfl
  · cases error? <;> cases h

section Sessions

variable {requests : List Request} {results : List Value} {machine after : Machine} {level : Nat} {source : String}
  {error : RuntimeError} (h : Session requests results machine)

include h

/-- An error of a request comes from a task that fails by itself, unless it is one of output. -/
theorem Session.exists_failsItself_of_run (hrun : machine.run level source = .failed (.runtime error) after) :
    (∃ fault, error = .output fault) ∨ ∃ moment around,
      InProgress (.run source :: requests) results (moment :: around) ∧ moment.FailsItself error := by
  have hbreaks : (machine.run level source).Breaks ((some error).map .runtime) := hrun ▸ .failed _ _
  rcases Machine.exists_of_run_breaks hbreaks with
    ⟨fault, hfault⟩ | ⟨before, statement, rest, middle, htasks, hbefore, hstatement⟩
  · exact .inl ⟨fault, Option.some.inj hfault⟩
  · obtain ⟨moment, hinner, hfails⟩ := Moment.Breaks.exists_failsItself (@Moment.Breaks.exec _ _ _ [] _ hstatement)
    obtain ⟨around, hprogress⟩ := (InProgress.statement h htasks hbefore).inside hinner
    exact .inr ⟨moment, around, hprogress, hfails⟩

theorem Session.exists_failsItself_of_evaluate
    (hevaluate : machine.evaluate level source = .failed (.runtime error) after) :
    ∃ moment around,
      InProgress (.evaluate source :: requests) results (moment :: around) ∧ moment.FailsItself error := by
  have hbreaks : (machine.evaluate level source).Breaks ((some error).map .runtime) := hevaluate ▸ .failed _ _
  obtain ⟨expression, htasks, hrun⟩ := Machine.exists_of_evaluate_breaks hbreaks
  obtain ⟨moment, hinner, hfails⟩ := Moment.Breaks.exists_failsItself (@Moment.Breaks.eval _ _ _ [] _ hrun)
  obtain ⟨around, hprogress⟩ := (InProgress.expression level h htasks).inside hinner
  exact ⟨moment, around, hprogress, hfails⟩

end Sessions

end Script
