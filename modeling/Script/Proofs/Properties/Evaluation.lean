import Script.Proofs.Discipline.Moments
import Script.Proofs.Properties.Course

/-!
# What is evaluated and executed follows its log

Only two operations are in a log, the reading of a property and the writing to one. All others are silent, and
are followed because they keep the discipline.
-/

namespace Script

theorem Machine.sameFields_enterBlock (machine : Machine) : machine.SameFields machine.enterBlock :=
  fun _ => rfl

theorem Machine.sameFields_enterBody (machine : Machine) (f : Function) (arguments : List Value) :
    machine.SameFields (machine.enterBody f arguments) :=
  fun _ => rfl

/-- An expression that is neither a property nor a call is silent when its operands are evaluated. -/
theorem Expr.silent_finish {expression : Expr} {values : List Value} (exec : Stmt → Eval Flow)
    (hget : ∀ object name value, expression = .get object name → values = [.instance value] → False)
    (hset : ∀ object name value target written, expression = .set object name value →
      values = [.instance target, written] → False)
    (hcall : ∀ callee paren arguments called rest, expression = .call callee paren arguments →
      values = called :: rest → False) : (expression.finish exec values).Silent := by
  unfold finish
  split
  · exact Eval.silent_bind (Eval.silent_assign _ _) fun _ => Eval.silent_pure _
  · exact Eval.silent_ofOperator _ _
  · exact (hcall _ _ _ _ _ rfl rfl).elim
  · split
    · exact (hget _ _ _ rfl rfl).elim
    · exact Eval.silent_fail _
  · exact Eval.silent_pure _
  · exact Eval.silent_pure _
  · exact Eval.silent_pure _
  · exact Eval.silent_pure _
  · exact (hset _ _ _ _ _ rfl rfl).elim
  · exact Eval.silent_fail _
  · exact Eval.silent_lookup _
  · exact Eval.silent_ofOperator _ _
  · exact Eval.silent_lookup _
  · exact Eval.silent_exhausted

namespace Discipline

variable {W : Type} [Preorder W] {d : Discipline W} {world : W} {environment : Environment}

/-- Whatever is executed follows its log, wherever it stands. -/
def FollowsFlow (d : Discipline W) (exec : Stmt → Eval Flow) (log : Stmt → Log) : Prop :=
  ∀ world environment statement, d.task world environment (.exec statement) →
    d.Follows world environment (exec statement) (log statement) d.flow

/-- Whatever is evaluated follows its log, wherever it stands. -/
def FollowsValue (d : Discipline W) (eval : Expr → Eval Value) (log : Expr → Log) : Prop :=
  ∀ world environment expression, d.task world environment (.eval expression) →
    d.Follows world environment (eval expression) (log expression) d.value

theorem FollowsFlow.keeps {exec : Stmt → Eval Flow} {log : Stmt → Log} (h : d.FollowsFlow exec log) :
    d.KeepsFlow exec :=
  fun world environment statement htask => (h world environment statement htask).keeps

theorem FollowsValue.keeps {eval : Expr → Eval Value} {log : Expr → Log} (h : d.FollowsValue eval log) :
    d.KeepsValue eval :=
  fun world environment expression htask => (h world environment expression htask).keeps

/-! ### Properties -/

theorem follows_get {object : Instance} (name : Token) (hobject : d.object world object) :
    d.Follows world environment (object.get name)
      (fun machine => [{ machine, object, name, written? := none }]) d.value := by
  intro machine hgood henvironment
  obtain ⟨later, after, hle, hcourse, hends⟩ :=
    (keeps_get name hobject).follows (object.silent_get name) machine hgood henvironment
  exact ⟨later, after, hle, ⟨.refl machine, ⟨world, hle, hgood, hobject⟩, hcourse⟩, hends⟩

theorem follows_set {object : Instance} {value : Value} (name : Token) (hobject : d.object world object)
    (hvalue : d.value world value) :
    d.Follows world environment (object.set name value)
      (fun machine => [{ machine, object, name, written? := some value }]) fun _ _ => True := by
  intro machine hgood henvironment
  have hset : object.set name value machine = .done () (machine.withField object.id name.lexeme value) := rfl
  obtain ⟨later, hle, hafter, hback, -⟩ := (keeps_set name hvalue).of_done hgood henvironment hset
  refine ⟨later, _, hle, ⟨.refl machine, ⟨world, hle, hgood, hobject⟩, .refl _⟩, ?_⟩
  intro value? last hends
  cases hends
  exact ⟨rfl, hafter, hback, fun _ _ => trivial⟩

/-! ### Calls -/

section Calls

variable {exec : Stmt → Eval Flow} {log : Stmt → Log} (hexec : d.FollowsFlow exec log)

include hexec

theorem follows_sequence {statements : List Stmt}
    (htasks : ∀ statement ∈ statements, d.task world environment (.exec statement)) :
    d.Follows world environment (Eval.sequence exec statements) (Eval.sequenceLog exec log statements)
      d.flow := by
  induction statements generalizing world with
  | nil => exact follows_pure trivial
  | cons statement rest ih =>
      rw [List.forall_mem_cons] at htasks
      refine follows_bind (hexec world environment statement htasks.1) fun later flow hle hflow => ?_
      cases flow with
      | next => exact ih fun statement hmem => d.task_mono hle (htasks.2 statement hmem)
      | returned value => exact follows_pure hflow

theorem follows_block {statements : List Stmt}
    (htask : d.task world environment (.exec (.block statements))) :
    d.Follows world environment (Eval.entered Machine.enterBlock (Eval.sequence exec statements))
      (fun machine => Eval.sequenceLog exec log statements machine.enterBlock) d.flow := by
  refine follows_entered Machine.sameFields_enterBlock fun machine hgood henvironment => ?_
  subst henvironment
  obtain ⟨later, hle, hinner, htasks⟩ := hgood.enterBlock htask
  exact ⟨later, hle, hinner, follows_sequence hexec htasks⟩

theorem follows_call_function {f : Function} {arguments : List Value} (hfunction : d.function world f)
    (harguments : ∀ value ∈ arguments, d.value world value) :
    d.Follows world environment (f.call exec arguments) (f.callLog exec log arguments) d.value := by
  have hbody : d.Follows world environment
      (Eval.entered (·.enterBody f arguments) (Eval.sequence exec f.declaration.body))
      (f.callLog exec log arguments) d.flow := by
    refine follows_entered (·.sameFields_enterBody f arguments) fun machine hgood _ => ?_
    obtain ⟨later, hle, hinner, htasks⟩ := hgood.enterBody hfunction harguments
    exact ⟨later, hle, hinner, follows_sequence hexec htasks⟩
  rw [Function.call_eq]
  refine follows_bind_silent hbody (fun later flow _ hflow => ?_) fun flow => ?_
  · cases flow with
    | next => exact keeps_pure trivial
    | returned value => exact keeps_pure hflow
  · cases flow <;> exact Eval.silent_pure _

theorem follows_call_class {c : Class} {arguments : List Value} (hcls : d.cls world c)
    (harguments : ∀ value ∈ arguments, d.value world value) :
    d.Follows world environment (c.call exec arguments) (c.callLog exec log arguments) d.value := by
  refine follows_bind ((keeps_instantiate hcls).follows c.silent_instantiate) fun made object hle h => ?_
  obtain ⟨hobject, -⟩ := h
  cases hmethod : c.method? Class.initializer with
  | none => exact follows_pure hobject
  | some method =>
      have hmade : d.method made method := d.method_mono hle (d.method_of_cls hcls _ method hmethod)
      refine follows_bind ((keeps_bind_method hmade hobject).follows (method.silent_bind object))
        fun bound f hle' hf => ?_
      have hbound : ∀ value ∈ arguments, d.value bound value :=
        fun value hmem => value_mono (le_trans hle hle') (harguments value hmem)
      refine follows_bind_silent (follows_call_function hexec hf hbound) (fun later _ hle'' _ => ?_)
        fun _ => Eval.silent_pure _
      exact keeps_pure (d.object_mono (le_trans hle' hle'') hobject)

theorem follows_call_callable {callable : Callable} {arguments : List Value}
    (hcallable : d.value world (.callable callable))
    (harguments : ∀ value ∈ arguments, d.value world value) :
    d.Follows world environment (callable.call exec arguments) (callable.callLog exec log arguments)
      d.value := by
  cases callable with
  | function f => exact follows_call_function hexec hcallable harguments
  | «class» c => exact follows_call_class hexec hcallable harguments
  | native n =>
      intro machine hgood henvironment
      have hsame : machine.SameFields { machine with time := machine.time.read.2 } := fun _ => rfl
      refine ⟨world, _, le_refl world, hsame, fun value? last hends => ?_⟩
      cases hends
      refine ⟨rfl, hgood.elsewhere _ _ _, henvironment, ?_⟩
      rintro _ ⟨⟩
      trivial

theorem follows_call {callee : Value} (paren : Token) {arguments : List Value}
    (hcallee : d.value world callee) (harguments : ∀ value ∈ arguments, d.value world value) :
    d.Follows world environment (callee.call exec paren arguments) (callee.callLog exec log arguments)
      d.value := by
  cases callee with
  | callable c =>
      intro machine hgood henvironment
      simp only [Value.callLog]
      by_cases harity : arguments.length = c.arity
      · by_cases hdepth : machine.depth < maxCallDepth
        · rw [Value.call_counted paren harity hdepth, if_pos ⟨harity, hdepth⟩]
          exact follows_counted (follows_call_callable hexec hcallee harguments) machine hgood henvironment
        · rw [Value.call_of_overflow paren harity hdepth, if_neg fun h => hdepth h.2]
          exact (keeps_fail (.stackOverflow paren)).follows (Eval.silent_fail _) machine hgood henvironment
      · rw [Value.call_of_arity paren harity, if_neg fun h => harity h.1]
        exact (keeps_fail _).follows (Eval.silent_fail _) machine hgood henvironment
  | _ => exact (keeps_fail _).follows (Eval.silent_fail _)

end Calls

/-! ### Steps -/

section Step

variable {eval : Expr → Eval Value} {evalLog : Expr → Log} (heval : d.FollowsValue eval evalLog)

include heval

theorem follows_operands {expression : Expr} {values : List Value} {rest : List Expr}
    (htasks : ∀ operand ∈ rest, d.task world environment (.eval operand))
    (hvalues : ∀ value ∈ values, d.value world value) :
    d.Follows world environment (expression.operands eval values rest)
      (expression.operandsLog eval evalLog values rest)
      fun later values => ∀ value ∈ values, d.value later value := by
  induction rest generalizing world values with
  | nil => exact follows_pure hvalues
  | cons operand rest ih =>
      rw [List.forall_mem_cons] at htasks
      unfold Expr.operands Expr.operandsLog
      split
      · refine follows_bind (heval world environment operand htasks.1) fun later value hle hvalue => ?_
        refine ih (fun operand hmem => d.task_mono hle (htasks.2 operand hmem)) fun other hmem => ?_
        rcases List.mem_append.mp hmem with hbefore | hlast
        · exact value_mono hle (hvalues other hbefore)
        · exact List.mem_singleton.mp hlast ▸ hvalue
      · exact follows_pure hvalues

variable {exec : Stmt → Eval Flow} {execLog : Stmt → Log} (hexec : d.FollowsFlow exec execLog)

include hexec

omit heval in
theorem follows_finish {expression : Expr} {values : List Value}
    (htask : d.task world environment (.eval expression))
    (hvalues : ∀ value ∈ values, d.value world value) :
    d.Follows world environment (expression.finish exec values) (expression.finishLog exec execLog values)
      d.value := by
  have hkeeps := keeps_finish hexec.keeps htask hvalues
  unfold Expr.finishLog
  split
  · exact follows_get _ (hvalues _ List.mem_cons_self)
  · have hvalue := hvalues _ (List.mem_cons_of_mem _ List.mem_cons_self)
    refine follows_bind_silent (follows_set _ (hvalues _ List.mem_cons_self) hvalue) ?_ ?_
    · exact fun later _ hle _ => keeps_pure (value_mono hle hvalue)
    · exact fun _ => Eval.silent_pure _
  · rw [List.forall_mem_cons] at hvalues
    exact follows_call hexec _ hvalues.1 hvalues.2
  · next hget hset hcall =>
      exact hkeeps.follows (Expr.silent_finish exec hget hset hcall)

theorem follows_evalWith :
    d.FollowsValue (Expr.evalWith eval exec) (Expr.logWith eval evalLog exec execLog) := by
  intro world environment expression htask
  rw [Expr.evalWith_eq]
  refine follows_bind (follows_operands heval ?_ fun _ h => nomatch h) fun later values hle hvalues => ?_
  · exact fun operand hmem => d.part htask (List.mem_map_of_mem hmem)
  · exact follows_finish hexec (d.task_mono hle htask) hvalues

theorem follows_repeatWhile {condition : Expr} {body : Stmt}
    (htask : d.task world environment (.exec (.loop condition body))) (turns : Nat) :
    d.Follows world environment (Eval.repeatWhile (eval condition) (exec body) turns)
      (Eval.repeatWhileLog (eval condition) (evalLog condition) (exec body) (execLog body) turns) d.flow := by
  induction turns generalizing world with
  | zero => exact follows_exhausted
  | succ turns ih =>
      have hcondition : d.task world environment (.eval condition) :=
        d.part htask (by simp [Task.parts, Stmt.parts])
      have hbody : d.task world environment (.exec body) := d.part htask (by simp [Task.parts, Stmt.parts])
      refine follows_bind (heval _ _ _ hcondition) fun later value hle _ => ?_
      split
      · refine follows_bind (hexec _ _ _ (d.task_mono hle hbody)) fun last flow hle' hflow => ?_
        cases flow with
        | next => exact ih (d.task_mono (le_trans hle hle') htask)
        | returned value => exact follows_pure hflow
      · exact follows_pure trivial

theorem follows_execWith (turns : Nat) :
    d.FollowsFlow (Stmt.execWith eval exec turns) (Stmt.logWith eval evalLog exec execLog turns) := by
  intro world environment statement htask
  have hpart {later : W} {part : Task} (hle : world ≤ later) (hmem : part ∈ statement.parts) :
      d.task later environment part :=
    d.task_mono hle (d.part htask hmem)
  cases statement with
  | block statements => exact follows_block hexec htask
  | classDecl | function =>
      refine (keeps_execWith heval.keeps hexec.keeps turns _ _ _ htask).follows ?_
      refine Eval.silent_bind Eval.silent_environment fun environment => ?_
      refine Eval.silent_bind (Eval.silent_change fun store id => ?_) fun _ => ?_
      · simp [Store.addClass_eq, Store.addFunction, Store.fields]
      · exact Eval.silent_bind (Eval.silent_define _ _) fun _ => Eval.silent_pure _
  | expression e =>
      refine follows_bind_silent (heval _ _ _ (hpart (le_refl world) List.mem_cons_self)) ?_ ?_
      · exact fun _ _ _ _ => keeps_next
      · exact fun _ => Eval.silent_pure _
  | conditional condition whenTrue whenFalse =>
      refine follows_bind (heval _ _ _ (hpart (le_refl world) List.mem_cons_self)) ?_
      intro later value hle _
      split
      · exact hexec _ _ _ (hpart hle (by simp [Stmt.parts]))
      · cases whenFalse with
        | some statement => exact hexec _ _ _ (hpart hle (by simp [Stmt.parts]))
        | none => exact follows_pure trivial
  | print e =>
      refine follows_bind_silent (heval _ _ _ (hpart (le_refl world) List.mem_cons_self)) ?_ ?_
      · exact fun later value _ _ => keeps_bind (keeps_print value) fun _ _ _ _ => keeps_next
      · exact fun value => Eval.silent_bind (Eval.silent_print value) fun _ => Eval.silent_pure _
  | «return» keyword value =>
      cases value with
      | some e =>
          refine follows_bind_silent (heval _ _ _ (hpart (le_refl world) List.mem_cons_self)) ?_ ?_
          · exact fun later value _ hvalue => keeps_pure hvalue
          · exact fun _ => Eval.silent_pure _
      | none => exact follows_pure trivial
  | var name initializer =>
      have hdefine {later : W} (value : Value) (hle : world ≤ later) (hvalue : d.value later value) :
          d.Keeps later environment (Eval.define name.lexeme value >>= fun _ => pure Flow.next) d.flow :=
        keeps_bind (keeps_define (d.task_mono hle htask) rfl hvalue) fun _ _ _ _ => keeps_next
      have hsilent (value : Value) : (Eval.define name.lexeme value >>= fun _ => pure Flow.next).Silent :=
        Eval.silent_bind (Eval.silent_define _ value) fun _ => Eval.silent_pure _
      cases initializer with
      | some e =>
          refine follows_bind_silent (heval _ _ _ (hpart (le_refl world) List.mem_cons_self)) ?_ hsilent
          exact fun later value hle hvalue => hdefine value hle hvalue
      | none => exact (hdefine .nil (le_refl world) trivial).follows (hsilent .nil)
  | loop condition body => exact follows_repeatWhile heval hexec htask turns

end Step

variable (d) in
theorem follows_eval_exec (level : Nat) :
    d.FollowsValue (eval level) (Expr.log level) ∧ d.FollowsFlow (exec level) (Stmt.log level) := by
  induction level with
  | zero => exact ⟨fun _ _ _ _ => follows_exhausted, fun _ _ _ _ => follows_exhausted⟩
  | succ level ih =>
      obtain ⟨heval, hexec⟩ := ih
      exact ⟨follows_evalWith heval hexec, follows_execWith heval hexec level⟩

variable (d) in
theorem follows_eval (level : Nat) : d.FollowsValue (eval level) (Expr.log level) :=
  (d.follows_eval_exec level).1

variable (d) in
theorem follows_exec (level : Nat) : d.FollowsFlow (exec level) (Stmt.log level) :=
  (d.follows_eval_exec level).2

/-! ### Requests -/

section Requests

variable {machine : Machine} {source : String} (level : Nat) (hgood : d.Good world machine)

include hgood

theorem Good.tracks_run
    (htasks : ∀ task ∈ (Request.run source).tasks, d.task world machine.environment task) :
    d.Tracks world machine.environment machine (machine.run level source)
      ((Request.run source).log level machine) fun _ _ => True := by
  simp only [Request.tasks] at htasks
  simp only [Machine.run, Request.log]
  split
  · exact tracks_failed _ hgood rfl
  · next hread =>
      rw [if_neg hread] at htasks
      have hprogram := follows_sequence (d.follows_exec level) fun statement hmem =>
        htasks _ (List.mem_map_of_mem hmem)
      have hall : d.Follows world machine.environment (interpret level (readProgram source).tree) _
          fun _ _ => True :=
        follows_bind_silent hprogram (fun _ _ _ _ => keeps_flush) fun _ => Eval.silent_flush
      exact (hall machine hgood rfl).mapError RunError.runtime

theorem Good.tracks_evaluate
    (htasks : ∀ task ∈ (Request.evaluate source).tasks, d.task world machine.environment task) :
    d.Tracks world machine.environment machine (machine.evaluate level source)
      ((Request.evaluate source).log level machine) d.value := by
  simp only [Request.tasks] at htasks
  simp only [Machine.evaluate, Request.log]
  cases htree : (readExpression source).tree with
  | none =>
      simp only [Option.elim, ite_self]
      exact tracks_failed _ hgood rfl
  | some expression =>
      simp only [Option.elim]
      split
      · exact tracks_failed _ hgood rfl
      · next hread =>
          rw [if_neg hread, htree] at htasks
          have htask := htasks (.eval expression) (by simp)
          exact (d.follows_eval level _ _ _ htask machine hgood rfl).mapError RunError.runtime

end Requests

end Discipline

end Script
