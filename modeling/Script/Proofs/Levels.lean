import Script.Proofs.Moments.Operands

/-!
# More levels do no harm

A computation that ends with some levels of nesting and turns of loops ends so with more of them. So how it ends,
if it ends at all, is no matter of levels, and what a task is seen to pass with some levels, it passes with more.
-/

namespace Script

variable {α β : Type}

/-- Where the first computation ends, the second one ends as it does. -/
def Eval.Below (body body' : Eval α) : Prop :=
  ∀ machine, body machine ≠ .exhausted → body' machine = body machine

namespace Eval

theorem Below.done {body body' : Eval α} (h : Below body body') {machine after : Machine} {value : α}
    (hdone : body machine = .done value after) : body' machine = .done value after := by
  have hends : body machine ≠ .exhausted := by simp [hdone]
  rw [h machine hends, hdone]

theorem Below.ends {body body' : Eval α} (h : Below body body') {machine after : Machine} {value? : Option α}
    (hends : (body machine).Ends value? after) : (body' machine).Ends value? after := by
  have hsome : body machine ≠ .exhausted := by
    intro hexhausted
    rw [hexhausted] at hends
    cases hends
  rwa [h machine hsome]

theorem Below.refl (body : Eval α) : Below body body :=
  fun _ _ => rfl

theorem Below.trans {first second third : Eval α} (h : Below first second) (h' : Below second third) :
    Below first third := by
  intro machine hends
  have hsecond := h machine hends
  rw [← hsecond] at hends ⊢
  exact h' machine hends

theorem below_exhausted (body : Eval α) : Below exhausted body :=
  fun _ hends => absurd rfl hends

theorem below_bind {first first' : Eval α} {next next' : α → Eval β} (hfirst : Below first first')
    (hnext : ∀ value, Below (next value) (next' value)) : Below (first >>= next) (first' >>= next') := by
  intro machine hends
  have hsame := hfirst machine
  rw [bind_apply] at hends ⊢
  rw [bind_apply]
  cases hrun : first machine with
  | done value middle =>
      rw [hrun] at hends hsame
      rw [hsame nofun]
      exact hnext value middle hends
  | failed error middle =>
      rw [hrun] at hsame
      rw [hsame nofun]
  | exhausted =>
      rw [hrun] at hends
      exact absurd rfl hends

/-- As `below_bind`, where the first step is the same. -/
theorem below_bind_next {first : Eval α} {next next' : α → Eval β}
    (hnext : ∀ value, Below (next value) (next' value)) : Below (first >>= next) (first >>= next') :=
  below_bind (.refl first) hnext

theorem below_mapMachine {body body' : Eval α} (h : Below body body') (enter : Machine → Machine)
    (leave : Machine → Machine → Machine) :
    Below (fun machine => (body (enter machine)).mapMachine (leave machine))
      (fun machine => (body' (enter machine)).mapMachine (leave machine)) := by
  intro machine hends
  have hinner : body (enter machine) ≠ .exhausted := by
    intro hexhausted
    simp only [hexhausted, Outcome.mapMachine, ne_eq, not_true_eq_false] at hends
  exact congrArg _ (h _ hinner)

theorem below_within (inner : Environment) {body body' : Eval α} (h : Below body body') :
    Below (within inner body) (within inner body') :=
  below_mapMachine h _ fun machine last => { last with environment := machine.environment }

theorem below_counted {body body' : Eval α} (h : Below body body') : Below (counted body) (counted body') :=
  below_mapMachine h _ fun machine last => { last with depth := machine.depth }

end Eval

open Eval

section Step

variable {eval eval' : Expr → Eval Value} {exec exec' : Stmt → Eval Flow}
  (heval : ∀ expression, Below (eval expression) (eval' expression))
  (hexec : ∀ statement, Below (exec statement) (exec' statement))

section Calls

include hexec

theorem Eval.below_sequence (statements : List Stmt) :
    Below (Eval.sequence exec statements) (Eval.sequence exec' statements) := by
  induction statements with
  | nil => exact .refl _
  | cons statement rest ih =>
      refine below_bind (hexec statement) fun flow => ?_
      cases flow with
      | next => exact ih
      | returned value => exact .refl _

theorem Function.below_call (f : Function) (arguments : List Value) :
    Below (f.call exec arguments) (f.call exec' arguments) := by
  refine below_bind_next fun scope => ?_
  exact below_bind (below_within _ (below_sequence hexec f.declaration.body)) fun _ => .refl _

theorem Class.below_call (c : Class) (arguments : List Value) :
    Below (c.call exec arguments) (c.call exec' arguments) := by
  refine below_bind_next fun object => ?_
  cases c.method? Class.initializer with
  | none => exact .refl _
  | some method =>
      refine below_bind_next fun bound => ?_
      exact below_bind (Function.below_call hexec bound arguments) fun _ => .refl _

theorem Callable.below_call (c : Callable) (arguments : List Value) :
    Below (c.call exec arguments) (c.call exec' arguments) := by
  cases c with
  | function f => exact Function.below_call hexec f arguments
  | «class» c => exact Class.below_call hexec c arguments
  | native => exact .refl _

theorem Value.below_call (callee : Value) (paren : Token) (arguments : List Value) :
    Below (callee.call exec paren arguments) (callee.call exec' paren arguments) := by
  cases callee with
  | callable c =>
      intro machine hends
      by_cases harity : arguments.length = c.arity
      · by_cases hdepth : machine.depth < maxCallDepth
        · rw [Value.call_counted paren harity hdepth] at hends ⊢
          rw [Value.call_counted paren harity hdepth]
          exact below_counted (Callable.below_call hexec c arguments) machine hends
        · rw [Value.call_of_overflow paren harity hdepth, Value.call_of_overflow paren harity hdepth]
      · rw [Value.call_of_arity paren harity, Value.call_of_arity paren harity]
  | _ => exact .refl _

end Calls

include heval

theorem Eval.below_values (arguments : List Expr) : Below (values eval arguments) (values eval' arguments) := by
  induction arguments with
  | nil => exact .refl _
  | cons argument rest ih => exact below_bind (heval argument) fun _ => below_bind ih fun _ => .refl _

include hexec

theorem Expr.below_evalWith (expression : Expr) :
    Below (expression.evalWith eval exec) (expression.evalWith eval' exec') := by
  cases expression with
  | assign name value => exact below_bind (heval value) fun _ => .refl _
  | binary left operator right =>
      exact below_bind (heval left) fun _ => below_bind (heval right) fun _ => .refl _
  | call callee paren arguments =>
      refine below_bind (heval callee) fun callee => ?_
      exact below_bind (below_values heval arguments) fun arguments => Value.below_call hexec callee paren arguments
  | get object name => exact below_bind (heval object) fun _ => .refl _
  | grouping inner => exact heval inner
  | logical left operator right =>
      refine below_bind (heval left) fun left => ?_
      split
      · exact .refl _
      · exact heval right
  | set object name value =>
      refine below_bind (heval object) fun object => ?_
      cases object with
      | «instance» object => exact below_bind (heval value) fun _ => .refl _
      | _ => exact .refl _
  | unary operator right => exact below_bind (heval right) fun _ => .refl _
  | literal | this | «variable» => exact .refl _

omit heval hexec in
theorem Eval.below_repeatWhile {condition condition' : Eval Value} {body body' : Eval Flow}
    (hcondition : Below condition condition') (hbody : Below body body') {turns turns' : Nat} (hle : turns ≤ turns') :
    Below (repeatWhile condition body turns) (repeatWhile condition' body' turns') := by
  induction turns generalizing turns' with
  | zero => exact below_exhausted _
  | succ turns ih =>
      obtain ⟨turns', rfl⟩ := Nat.exists_eq_add_one_of_ne_zero (Nat.ne_of_gt (Nat.lt_of_lt_of_le turns.succ_pos hle))
      refine below_bind hcondition fun value => ?_
      split
      · refine below_bind hbody fun flow => ?_
        cases flow with
        | next => exact ih (Nat.le_of_succ_le_succ hle)
        | returned => exact .refl _
      · exact .refl _

theorem Stmt.below_execWith {turns turns' : Nat} (hle : turns ≤ turns') (statement : Stmt) :
    Below (statement.execWith eval exec turns) (statement.execWith eval' exec' turns') := by
  cases statement with
  | block statements =>
      refine below_bind_next fun scope => below_bind_next fun environment => ?_
      exact below_within _ (below_sequence hexec statements)
  | expression e => exact below_bind (heval e) fun _ => .refl _
  | conditional condition whenTrue whenFalse =>
      refine below_bind (heval condition) fun value => ?_
      split
      · exact hexec whenTrue
      · cases whenFalse with
        | none => exact .refl _
        | some whenFalse => exact hexec whenFalse
  | print e => exact below_bind (heval e) fun _ => .refl _
  | «return» keyword value =>
      cases value with
      | none => exact .refl _
      | some e => exact below_bind (heval e) fun _ => .refl _
  | var name initializer =>
      cases initializer with
      | none => exact .refl _
      | some e => exact below_bind (heval e) fun _ => .refl _
  | loop condition body => exact below_repeatWhile (heval condition) (hexec body) hle
  | classDecl | function => exact .refl _

end Step

theorem below_eval_exec {level level' : Nat} (hle : level ≤ level') :
    (∀ expression, Below (eval level expression) (eval level' expression)) ∧
      ∀ statement, Below (exec level statement) (exec level' statement) := by
  induction level generalizing level' with
  | zero => exact ⟨fun _ => below_exhausted _, fun _ => below_exhausted _⟩
  | succ level ih =>
      obtain ⟨level', rfl⟩ := Nat.exists_eq_add_one_of_ne_zero (Nat.ne_of_gt (Nat.lt_of_lt_of_le level.succ_pos hle))
      have hle := Nat.le_of_succ_le_succ hle
      obtain ⟨heval, hexec⟩ := ih hle
      exact ⟨Expr.below_evalWith heval hexec, Stmt.below_execWith heval hexec hle⟩

theorem below_eval {level level' : Nat} (hle : level ≤ level') (expression : Expr) :
    Below (eval level expression) (eval level' expression) :=
  (below_eval_exec hle).1 expression

theorem below_exec {level level' : Nat} (hle : level ≤ level') (statement : Stmt) :
    Below (exec level statement) (exec level' statement) :=
  (below_eval_exec hle).2 statement

/-! ### Moments -/

section Moments

variable {level : Nat}

theorem Turns.of_le {condition : Expr} {body : Stmt} {machine middle : Machine}
    (h : Turns level condition body machine middle) {level' : Nat} (hle : level ≤ level') :
    Turns level' condition body machine middle := by
  induction h with
  | none => exact .none machine
  | more _ hcondition htrue hbody ih =>
      exact .more ih ((below_eval hle condition).done hcondition) htrue ((below_exec hle body).done hbody)

namespace Moment

theorem Starts.of_le {outer inner : Moment} (h : outer.Starts inner) (hle : inner.level ≤ level) :
    Starts { outer with level := level + 1 } { inner with level } := by
  have hvalues (operands : List Expr) := Eval.below_values (below_eval hle) operands
  have hsequence (statements : List Stmt) := Eval.below_sequence (below_exec hle) statements
  cases h with
  | operand hparts hbefore hgoesOn => exact .operand hparts ((hvalues _).done hbefore) hgoesOn
  | body hall harity hdepth hcalls hbody hbefore =>
      exact .body ((hvalues _).done hall) harity hdepth hcalls hbody ((hsequence _).done hbefore)
  | first hparts => exact .first hparts
  | branch hcondition hbranch => exact .branch ((below_eval hle _).done hcondition) hbranch
  | condition hturns => exact .condition (hturns.of_le hle)
  | turn hturns hcondition htrue => exact .turn (hturns.of_le hle) ((below_eval hle _).done hcondition) htrue
  | inner hbefore => exact .inner ((hsequence _).done hbefore)

theorem Ends.of_le {moment : Moment} {values : List Value} {after : Machine} (h : moment.Ends values after)
    (hle : moment.level ≤ level) : Ends { moment with level } values after := by
  cases h with
  | eval hrun => exact .eval ((below_eval hle _).ends hrun)
  | exec hrun => exact .exec ((below_exec hle _).ends hrun)

theorem Passes.of_le {moment : Moment} {machine : Machine} (h : moment.Passes machine) (hle : moment.level ≤ level) :
    Passes { moment with level } machine := by
  induction h generalizing level with
  | start moment => exact .start { moment with level }
  | inside hstarts _ ih =>
      rw [hstarts.level_eq] at hle
      obtain ⟨level, rfl⟩ := Nat.exists_eq_add_one_of_ne_zero (Nat.ne_of_gt (Nat.lt_of_lt_of_le (Nat.succ_pos _) hle))
      have hle := Nat.le_of_succ_le_succ hle
      exact .inside (hstarts.of_le hle) (ih hle)
  | stop hends => exact .stop (hends.of_le hle)

end Moment

end Moments

end Script
