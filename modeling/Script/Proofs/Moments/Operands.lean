import Script.Proofs.Moments.Moment
import Script.Proofs.Outcomes

/-!
# What is left to do

A task that has come to some point of its own goes on from there alone: an expression from the operands that
it has evaluated, statements from those that are executed, and a loop from the turns that it has taken.
-/

namespace Script

variable {eval : Expr → Eval Value} {exec : Stmt → Eval Flow} {machine middle : Machine}

/-! ### Expressions -/

theorem Eval.values_cons_eq_done_iff {operand : Expr} {rest : List Expr} {all : List Value} {after : Machine} :
    Eval.values eval (operand :: rest) machine = .done all after ↔
      ∃ value next others, eval operand machine = .done value next ∧
        Eval.values eval rest next = .done others after ∧ all = value :: others := by
  simp only [Eval.values, Eval.bind_eq_done_iff, Eval.pure_apply, Outcome.done.injEq]
  constructor
  · rintro ⟨value, next, hoperand, others, _, hothers, rfl, rfl⟩
    exact ⟨value, next, others, hoperand, hothers, rfl⟩
  · rintro ⟨value, next, others, hoperand, hothers, rfl⟩
    exact ⟨value, next, hoperand, others, after, hothers, rfl, rfl⟩

namespace Expr

/-- Evaluates operands from left to right, as long as the expression goes on. -/
def operands (eval : Expr → Eval Value) (expression : Expr) (values : List Value) :
    List Expr → Eval (List Value)
  | [] => return values
  | operand :: rest =>
    if expression.goesOn values then do
      let value ← eval operand
      operands eval expression (values ++ [value]) rest
    else return values

/-- What an expression makes of the values of its operands. There are no other numbers of them. -/
def finish (exec : Stmt → Eval Flow) : Expr → List Value → Eval Value
  | .assign name _, [value] => do
    Eval.assign name value
    return value
  | .binary _ operator _, [left, right] => Eval.ofOperator operator (operator.kind.binary left right)
  | .call _ paren _, callee :: arguments => callee.call exec paren arguments
  | .get _ name, [object] =>
    match object with
    | .instance object => object.get name
    | _ => Eval.fail (.notAnInstance name .read)
  | .grouping _, [value] | .logical _ _ _, [value] | .logical _ _ _, [_, value] => return value
  | .literal value, [] => return .ofLiteral value
  | .set _ name _, [.instance object, value] => do
    object.set name value
    return value
  | .set _ name _, _ => Eval.fail (.notAnInstance name .write)
  | .this keyword, [] => Eval.lookup keyword
  | .unary operator _, [right] => Eval.ofOperator operator (operator.kind.unary right)
  | .variable name, [] => Eval.lookup name
  | _, _ => Eval.exhausted

theorem operands_of_goesOn {expression : Expr} (h : ∀ values, expression.goesOn values = true)
    (values : List Value) (rest : List Expr) :
    expression.operands eval values rest = (values ++ ·) <$> Eval.values eval rest := by
  induction rest generalizing values with
  | nil => simp [operands, Eval.values]
  | cons operand rest ih =>
      rw [operands, if_pos (h values)]
      simp [Eval.values, ih]

/-- An expression evaluates its operands, and then finishes. -/
theorem evalWith_eq (expression : Expr) :
    expression.evalWith eval exec = expression.operands eval [] expression.parts >>= expression.finish exec := by
  cases expression with
  | assign | binary | grouping | unary | literal | this | «variable» =>
      simp [evalWith, operands, goesOn, parts, finish]
  | get =>
      simp only [evalWith, operands, goesOn, parts, if_true, bind_assoc, pure_bind, List.nil_append]
      rfl
  | call callee paren arguments =>
      have hall (values : List Value) : (Expr.call callee paren arguments).goesOn values = true := rfl
      simp [evalWith, operands_of_goesOn hall, parts, finish, Eval.values]
  | logical left operator right =>
      simp only [evalWith, operands, goesOn, parts, if_true, bind_assoc, List.nil_append]
      congr 1
      funext left
      by_cases hsettled : operator.kind.settledBy left = true <;> simp [hsettled, finish]
  | set object name value =>
      simp only [evalWith, operands, goesOn, parts, if_true, bind_assoc, List.nil_append]
      congr 1
      funext object
      cases object <;> simp [finish]

/-- What goes on after some operands went on after fewer. -/
theorem goesOn_of_prefix {expression : Expr} {values fewer : List Value}
    (hlength : values.length < expression.parts.length) (h : expression.goesOn values = true)
    (hfewer : fewer <+: values) : expression.goesOn fewer = true := by
  have hnil : expression.goesOn [] = true := by
    cases expression <;> rfl
  have hpair (hparts : expression.parts.length = 2) : expression.goesOn fewer = true := by
    cases fewer with
    | nil => exact hnil
    | cons value fewer =>
        rw [hfewer.eq_of_length_le (by rw [List.length_cons]; omega)]
        exact h
  cases expression with
  | logical | set => exact hpair rfl
  | _ => rfl

/-- After some operands, the others are evaluated. -/
theorem operands_append {expression : Expr} {before : List Expr} {values : List Value}
    (hvalues : Eval.values eval before machine = .done values middle) (seen : List Value)
    (hgoesOn : ∀ fewer, fewer <+: values → expression.goesOn (seen ++ fewer) = true) (rest : List Expr) :
    expression.operands eval seen (before ++ rest) machine =
      expression.operands eval (seen ++ values) rest middle := by
  induction before generalizing machine seen values with
  | nil =>
      cases hvalues
      rw [List.append_nil, List.nil_append]
  | cons operand before ih =>
      obtain ⟨value, next, others, hoperand, hothers, rfl⟩ := Eval.values_cons_eq_done_iff.mp hvalues
      have hfirst : expression.goesOn seen = true := by simpa using hgoesOn [] List.nil_prefix
      rw [List.cons_append, operands, if_pos hfirst, Eval.bind_apply, hoperand]
      simp only
      rw [ih hothers (seen ++ [value]), List.append_assoc]
      · rfl
      · intro fewer hfewer
        rw [List.append_assoc]
        exact hgoesOn _ (List.cons_prefix_cons.mpr ⟨rfl, hfewer⟩)

end Expr

theorem Eval.length_values {expressions : List Expr} {values : List Value}
    (h : Eval.values eval expressions machine = .done values middle) :
    values.length = expressions.length := by
  induction expressions generalizing machine values with
  | nil =>
      cases h
      rfl
  | cons expression rest ih =>
      obtain ⟨value, next, others, -, hothers, rfl⟩ := Eval.values_cons_eq_done_iff.mp h
      rw [List.length_cons, List.length_cons, ih hothers]

theorem Eval.length_values_lt {before after operands : List Expr} {operand : Expr} {values : List Value}
    (hsplit : operands = before ++ operand :: after) (h : Eval.values eval before machine = .done values middle) :
    values.length < operands.length := by
  rw [Eval.length_values h, hsplit, List.length_append, List.length_cons]
  omega

theorem Eval.values_append_eq_done_iff {before rest : List Expr} {all : List Value} {after : Machine} :
    Eval.values eval (before ++ rest) machine = .done all after ↔
      ∃ earlier middle others, Eval.values eval before machine = .done earlier middle ∧
        Eval.values eval rest middle = .done others after ∧ all = earlier ++ others := by
  induction before generalizing machine all with
  | nil =>
      constructor
      · exact fun h => ⟨[], machine, all, rfl, h, rfl⟩
      · rintro ⟨_, _, others, hbefore, hrest, rfl⟩
        cases hbefore
        exact hrest
  | cons operand before ih =>
      simp only [List.cons_append, Eval.values_cons_eq_done_iff, ih]
      constructor
      · rintro ⟨value, next, _, hoperand, ⟨earlier, middle, others, hbefore, hrest, rfl⟩, rfl⟩
        exact ⟨_, middle, others, ⟨value, next, earlier, hoperand, hbefore, rfl⟩, hrest, rfl⟩
      · rintro ⟨_, middle, others, ⟨value, next, earlier, hoperand, hbefore, rfl⟩, hrest, rfl⟩
        exact ⟨value, next, _, hoperand, ⟨earlier, middle, others, hbefore, hrest, rfl⟩, rfl⟩

theorem Eval.values_concat_eq_done_iff {before : List Expr} {last : Expr} {values : List Value} {after : Machine} :
    Eval.values eval (before ++ [last]) machine = .done values after ↔
      ∃ earlier middle value, Eval.values eval before machine = .done earlier middle ∧
        eval last middle = .done value after ∧ values = earlier ++ [value] := by
  rw [Eval.values_append_eq_done_iff]
  constructor
  · rintro ⟨earlier, middle, others, hbefore, hlast, rfl⟩
    obtain ⟨value, _, _, hvalue, hnone, rfl⟩ := Eval.values_cons_eq_done_iff.mp hlast
    cases hnone
    exact ⟨earlier, middle, value, hbefore, hvalue, rfl⟩
  · rintro ⟨earlier, middle, value, hbefore, hvalue, rfl⟩
    have hlast : Eval.values eval [last] middle = .done [value] after :=
      Eval.values_cons_eq_done_iff.mpr ⟨value, after, [], hvalue, rfl, rfl⟩
    exact ⟨earlier, middle, [value], hbefore, hlast, rfl⟩

/-- When all operands are evaluated, each of them is, after those before it. -/
theorem Eval.exists_of_values_append_cons {before rest : List Expr} {operand : Expr} {values all : List Value}
    {after : Machine} (hall : Eval.values eval (before ++ operand :: rest) machine = .done all after)
    (hvalues : Eval.values eval before machine = .done values middle) :
    ∃ value next, eval operand middle = .done value next ∧
      Eval.values eval (before ++ [operand]) machine = .done (values ++ [value]) next ∧ values ++ [value] <+: all := by
  obtain ⟨_, _, others, hbefore, hothers, rfl⟩ := Eval.values_append_eq_done_iff.mp hall
  obtain ⟨rfl, rfl⟩ := Outcome.done.inj (hvalues.symm.trans hbefore)
  obtain ⟨value, next, more, hoperand, -, rfl⟩ := Eval.values_cons_eq_done_iff.mp hothers
  refine ⟨value, next, hoperand, ?_, more, by rw [List.append_assoc, List.singleton_append]⟩
  exact Eval.values_concat_eq_done_iff.mpr ⟨values, middle, value, hvalues, hoperand, rfl⟩

/-- A call is made when its callee and its arguments are evaluated. -/
theorem eval_call {level : Nat} {callee : Expr} {paren : Token} {arguments : List Expr} {called : Value}
    {values : List Value}
    (hvalues : Eval.values (Script.eval level) (callee :: arguments) machine = .done (called :: values) middle) :
    Script.eval (level + 1) (.call callee paren arguments) machine =
      called.call (Script.exec level) paren values middle := by
  have hgoesOn (fewer : List Value) (_ : fewer <+: called :: values) :
      (Expr.call callee paren arguments).goesOn ([] ++ fewer) = true := rfl
  have hall := Expr.operands_append hvalues [] hgoesOn []
  rw [List.append_nil] at hall
  change Expr.evalWith (Script.eval level) (Script.exec level) (.call callee paren arguments) machine = _
  rw [Expr.evalWith_eq, Eval.bind_apply, Expr.parts, hall]
  rfl

/-! ### Statements -/

/-- The body in the state that is entered, and then back to the environment around it. -/
def Eval.entered {α : Type} (enter : Machine → Machine) (body : Eval α) : Eval α :=
  fun machine => (body (enter machine)).mapMachine ({ · with environment := machine.environment })

theorem Function.call_eq (f : Function) (arguments : List Value) :
    f.call exec arguments = (do
      match ← Eval.entered (·.enterBody f arguments) (Eval.sequence exec f.declaration.body) with
      | .next => return .nil
      | .returned value => return value) :=
  rfl

theorem Eval.sequence_singleton (statement : Stmt) : Eval.sequence exec [statement] = exec statement := by
  have hsame : Eval.sequence exec [statement] = exec statement >>= pure := by
    rw [Eval.sequence]
    congr 1
    funext flow
    cases flow <;> rfl
  rw [hsame, bind_pure]

/-- Of several statements the first one ends, and unless they end with it, the others go on from there. -/
theorem Eval.ends_sequence_cons {statement : Stmt} {rest : List Stmt} {flow? : Option Flow} {after : Machine}
    (h : (Eval.sequence exec (statement :: rest) machine).Ends flow? after) :
    ∃ first? next, (exec statement machine).Ends first? next ∧ (next = after ∨
      exec statement machine = .done .next next ∧ (Eval.sequence exec rest next).Ends flow? after) := by
  rcases Eval.ends_bind h with ⟨error, hfailed, -⟩ | ⟨flow, next, hdone, hrest⟩
  · exact ⟨none, after, hfailed ▸ .failed error after, .inl rfl⟩
  · refine ⟨some flow, next, .of_done hdone, ?_⟩
    cases flow with
    | next => exact .inr ⟨hdone, hrest⟩
    | returned value =>
        cases hrest
        exact .inl rfl

theorem Eval.sequence_append {before : List Stmt}
    (hbefore : Eval.sequence exec before machine = .done .next middle) (rest : List Stmt) :
    Eval.sequence exec (before ++ rest) machine = Eval.sequence exec rest middle := by
  induction before generalizing machine with
  | nil =>
      cases hbefore
      rfl
  | cons statement before ih =>
      obtain ⟨flow, next, hstatement, hbefore⟩ := Eval.bind_eq_done_iff.mp hbefore
      rw [List.cons_append, Eval.sequence, Eval.bind_apply, hstatement]
      cases flow with
      | next => exact ih hbefore
      | returned => cases hbefore

/-- Behind statements that end early nothing is executed. -/
theorem Eval.sequence_append_of_ends {before : List Stmt}
    (hbefore : ∀ middle, Eval.sequence exec before machine ≠ .done .next middle) (rest : List Stmt) :
    Eval.sequence exec (before ++ rest) machine = Eval.sequence exec before machine := by
  induction before generalizing machine with
  | nil => exact absurd rfl (hbefore machine)
  | cons statement before ih =>
      rw [Eval.sequence, Eval.bind_apply] at hbefore
      rw [List.cons_append, Eval.sequence, Eval.sequence, Eval.bind_apply, Eval.bind_apply]
      cases hstatement : exec statement machine with
      | exhausted | failed => rfl
      | done flow next =>
          rw [hstatement] at hbefore
          cases flow with
          | next => exact ih hbefore
          | returned => rfl

theorem Stmt.ends_branch {level : Nat} {condition : Expr} {whenTrue branch : Stmt}
    {whenFalse : Option Stmt} {value : Value} {flow? : Option Flow} {after : Machine}
    (hcondition : Script.eval level condition machine = .done value middle)
    (hbranch : (if value.truthy then some whenTrue else whenFalse) = some branch)
    (hends : (Script.exec (level + 1) (.conditional condition whenTrue whenFalse) machine).Ends flow? after) :
    (Script.exec level branch middle).Ends flow? after := by
  simp only [Script.exec, execWith] at hends
  rw [Eval.bind_apply, hcondition] at hends
  simp only at hends
  split at hbranch
  · next htrue =>
      cases hbranch
      rwa [if_pos htrue] at hends
  · next htrue =>
      subst hbranch
      rwa [if_neg htrue] at hends

/-- A loop that ends has taken all turns that it can be seen to take, and goes on from there. -/
theorem Turns.exists_repeatWhile {level : Nat} {condition : Expr} {body : Stmt}
    (h : Turns level condition body machine middle) {turns : Nat} {flow? : Option Flow} {after : Machine}
    (hends : (Eval.repeatWhile (Script.eval level condition) (Script.exec level body) turns machine).Ends
      flow? after) :
    ∃ fewer, (Eval.repeatWhile (Script.eval level condition) (Script.exec level body) (fewer + 1)
      middle).Ends flow? after := by
  induction h generalizing turns with
  | none =>
      cases turns with
      | zero => cases hends
      | succ turns => exact ⟨turns, hends⟩
  | more _ hcondition htrue hbody ih =>
      obtain ⟨turns, hends⟩ := ih hends
      rw [Eval.repeatWhile, Eval.bind_apply, hcondition] at hends
      simp only [htrue, if_true, Eval.bind_apply, hbody] at hends
      cases turns with
      | zero => cases hends
      | succ turns => exact ⟨turns, hends⟩

/-- A call does what the body does that it runs, up to the value. -/
theorem Callable.Calls.exists_call_eq {callable : Callable} {f : Function}
    (h : callable.Calls machine f middle) (arguments : List Value) :
    ∃ result : Value → Value,
      callable.call exec arguments machine = (result <$> f.call exec arguments) middle := by
  cases h with
  | function => exact ⟨id, by rw [id_map]; rfl⟩
  | @«class» c _ object _ _ _ _ hobject hmethod hbound =>
      refine ⟨fun _ => .instance object, ?_⟩
      rw [Callable.call, Class.call, Eval.bind_apply, hobject]
      simp only [hmethod]
      rw [Eval.bind_apply, hbound, map_eq_pure_bind]

theorem Moment.Starts.level_eq {outer inner : Moment} (h : outer.Starts inner) : outer.level = inner.level + 1 := by
  cases h <;> rfl

end Script
