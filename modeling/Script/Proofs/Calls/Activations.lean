import Script.Proofs.Moments.Raising
import Script.Proofs.Moments.Standing

/-!
# Calls in progress

The tasks in progress tell how many calls are in progress: each statement that an expression has started is in the
body that a call runs. The depth of calls is that number at every moment. A call is refused by itself, when its
operands are evaluated, for what is called, for the number of its arguments, or for the number of calls in progress,
in this order.
-/

namespace Script

variable {level : Nat} {machine : Machine} {error : RuntimeError}

/-! ### The count -/

/-- One if the inner task is in the body that the outer one calls, for only calls have expressions start
statements. -/
def Task.calls : Task → Task → Nat
  | .eval _, .exec _ => 1
  | _, _ => 0

/-- The calls in progress, of tasks of which each is started by the next. -/
def activations : List Moment → Nat
  | inner :: outer :: around => outer.task.calls inner.task + activations (outer :: around)
  | _ => 0

theorem Task.calls_of_part {whole part : Task} (h : part ∈ whole.parts) : whole.calls part = 0 := by
  cases whole with
  | exec => rfl
  | eval expression =>
      obtain ⟨_, -, rfl⟩ := List.mem_map.mp h
      rfl

theorem Moment.Stands.callDepth_eq {outer inner : Moment} (h : outer.Stands inner) :
    inner.machine.depth = outer.task.calls inner.task + outer.machine.depth := by
  cases h with
  | part htask _ hdepth => rw [Task.calls_of_part htask, hdepth, Nat.zero_add]
  | inner hblock _ htask _ _ hdepth =>
      rw [hblock, htask, hdepth]
      exact (Nat.zero_add _).symm
  | body hcall _ _ htask _ _ hdepth =>
      rw [hcall, htask, hdepth]
      exact Nat.add_comm _ _

theorem Moment.Stands.depth_le {outer inner : Moment} (h : outer.Stands inner)
    (houter : outer.machine.depth ≤ maxCallDepth) : inner.machine.depth ≤ maxCallDepth := by
  cases h with
  | part _ _ hdepth | inner _ _ _ _ _ hdepth => exact hdepth ▸ houter
  | body _ _ _ _ _ _ hdepth hmost => exact hdepth ▸ hmost

theorem Session.reached {requests : List Request} {results : List Value} (h : Session requests results machine) :
    machine.Reached := by
  induction h with
  | start sink time => exact .start sink time
  | run _ level source hends ih => exact .run ih level source hends
  | evaluate _ level source hends ih => exact .evaluate ih level source hends
  | clock _ time ih => exact .clock ih time

theorem Session.depth_eq {requests : List Request} {results : List Value} (h : Session requests results machine) :
    machine.depth = 0 :=
  h.reached.atTop.depth

section Progress

variable {requests : List Request} {results : List Value}

/-- The depth is the number of calls in progress, of which there are no more than may be. -/
theorem InProgress.depth_eq {moment : Moment} {around : List Moment}
    (h : InProgress requests results (moment :: around)) :
    moment.machine.depth = activations (moment :: around) ∧ moment.machine.depth ≤ maxCallDepth := by
  generalize hstack : moment :: around = stack at h
  induction h generalizing moment around with
  | statement hsession _ hbefore =>
      cases hstack
      have hdepth := (kept_of_sequence (.of_done hbefore)).depth.trans hsession.depth_eq
      exact ⟨hdepth, hdepth ▸ Nat.zero_le _⟩
  | expression _ hsession =>
      cases hstack
      have hdepth := hsession.depth_eq
      exact ⟨hdepth, hdepth ▸ Nat.zero_le _⟩
  | deeper _ hstarts ih =>
      cases hstack
      obtain ⟨hcount, hmost⟩ := ih rfl
      refine ⟨?_, hstarts.stands.depth_le hmost⟩
      rw [hstarts.stands.callDepth_eq, hcount, activations]

theorem Moment.Ends.depth_eq {moment : Moment} {values : List Value} {after : Machine} (h : moment.Ends values after) :
    after.depth = moment.machine.depth := by
  cases h with
  | eval hrun => exact (kept_of_eval hrun).depth
  | exec hrun => exact (kept_of_exec hrun).depth

end Progress

/-! ### Calls that are refused -/

/-- Only a call overflows the stack, at the parenthesis that closes it. -/
theorem Moment.FailsItself.task_eq {moment : Moment} {paren : Token} (h : moment.FailsItself (.stackOverflow paren)) :
    ∃ callee arguments, moment.task = .eval (.call callee paren arguments) := by
  have hraises := h.raises
  generalize moment.task = task at hraises
  cases hraises with
  | stackOverflow callee _ arguments => exact ⟨callee, arguments, rfl⟩

/-- What stands against a call with so many arguments when so many calls are in progress. -/
def Value.refusal (called : Value) (paren : Token) (arguments active : Nat) : Option RuntimeError :=
  match called with
  | .callable c =>
    if arguments = c.arity then if active = maxCallDepth then some (.stackOverflow paren) else none
    else some (.arity paren c.arity arguments)
  | _ => some (.notCallable paren)

/-- The stack overflows where all else is right, and as many calls are in progress as may be. -/
theorem Value.refusal_eq_stackOverflow_iff {called : Value} {paren other : Token} {arguments active : Nat} :
    called.refusal paren arguments active = some (.stackOverflow other) ↔
      other = paren ∧ (∃ c, called = .callable c ∧ arguments = c.arity) ∧ active = maxCallDepth := by
  cases called with
  | callable c =>
      by_cases harity : arguments = c.arity <;> by_cases hactive : active = maxCallDepth <;>
        simp [refusal, harity, hactive, eq_comm]
  | _ => simp [refusal]

theorem Value.call_of_refusal {called : Value} {exec : Stmt → Eval Flow} {paren : Token} {values : List Value}
    (h : called.refusal paren values.length machine.depth = some error) :
    called.call exec paren values machine = .failed error machine := by
  cases called with
  | callable c =>
      unfold refusal at h
      simp only at h
      split at h
      · next harity =>
          split at h
          · next hactive =>
              cases h
              exact Value.call_of_overflow paren harity (Nat.not_lt.mpr (Nat.le_of_eq hactive.symm))
          · cases h
      · next harity =>
          cases h
          exact Value.call_of_arity paren harity
  | _ =>
      cases h
      rfl

theorem Value.exists_of_refusal_none {called : Value} {paren : Token} {arguments active : Nat}
    (hmost : active ≤ maxCallDepth) (h : called.refusal paren arguments active = none) :
    ∃ c, called = .callable c ∧ arguments = c.arity ∧ active < maxCallDepth := by
  cases called with
  | callable c =>
      unfold refusal at h
      simp only at h
      split at h
      · next harity =>
          split at h
          · cases h
          · next hactive => exact ⟨c, rfl, harity, Nat.lt_of_le_of_ne hmost hactive⟩
      · cases h
  | _ => cases h

/-- The task is a call that the token closes. Its callee and its arguments have been evaluated, which led to the
state. -/
inductive Moment.CallsWith : Moment → Token → Value → List Value → Machine → Prop where
  | mk {level : Nat} {callee : Expr} {paren : Token} {arguments : List Expr} {machine after : Machine}
      {held values : List Value} {called : Value}
      (hvalues : Eval.values (eval level) (callee :: arguments) machine = .done (called :: values) after) :
      CallsWith ⟨level + 1, .eval (.call callee paren arguments), machine, held⟩ paren called values after

namespace Moment

variable {moment : Moment} {paren : Token} {called : Value} {values : List Value} {after : Machine}

theorem CallsWith.depth_eq (h : moment.CallsWith paren called values after) :
    after.depth = moment.machine.depth := by
  cases h with
  | mk hvalues => exact (kept_of_values hvalues).depth

theorem CallsWith.fails {callee : Expr} {arguments : List Expr} {held : List Value}
    (h : CallsWith ⟨level, .eval (.call callee paren arguments), machine, held⟩ paren called values after)
    (hrefusal : called.refusal paren values.length machine.depth = some error) :
    eval level (.call callee paren arguments) machine = .failed error after := by
  rw [← h.depth_eq] at hrefusal
  cases h with
  | mk hvalues => rw [eval_call hvalues, Value.call_of_refusal hrefusal]

/-- A call that is not refused counts as one call more while what is called runs. -/
theorem CallsWith.exists_counted {callee : Expr} {arguments : List Expr} {held : List Value}
    (h : CallsWith ⟨level + 1, .eval (.call callee paren arguments), machine, held⟩ paren called values after)
    (hmost : machine.depth ≤ maxCallDepth) (hrefusal : called.refusal paren values.length machine.depth = none) :
    ∃ c, called = .callable c ∧ eval (level + 1) (.call callee paren arguments) machine =
      Eval.counted (c.call (exec level) values) after := by
  obtain ⟨c, rfl, harity, hless⟩ := Value.exists_of_refusal_none hmost hrefusal
  have hdepth := h.depth_eq
  cases h with
  | mk hvalues => exact ⟨c, rfl, by rw [eval_call hvalues, Value.call_counted paren harity (hdepth ▸ hless)]⟩

/-- A call that breaks off has its operands evaluated, or breaks off in one of them. -/
theorem callsWith_or_starts {callee : Expr} {arguments : List Expr} (held : List Value)
    {error? : Option RuntimeError}
    (h : (Script.eval (level + 1) (.call callee paren arguments) machine).Breaks error?) :
    (∃ called values after,
      CallsWith ⟨level + 1, .eval (.call callee paren arguments), machine, held⟩ paren called values after) ∨
    ∃ inner, Starts ⟨level + 1, .eval (.call callee paren arguments), machine, held⟩ inner ∧ inner.Breaks error? := by
  change (Expr.evalWith (Script.eval level) (Script.exec level) (.call callee paren arguments) machine).Breaks
    error? at h
  rw [Expr.evalWith_eq] at h
  rcases Eval.breaks_bind h with hoperands | ⟨results, next, hoperands, -⟩
  · obtain ⟨before, operand, rest, values, middle, hparts, hvalues, hgoesOn, hoperand⟩ :=
      Expr.exists_of_operands_breaks hoperands
    exact .inr ⟨_, .operand hparts hvalues hgoesOn, .eval hoperand⟩
  · have hall (values : List Value) : (Expr.call callee paren arguments).goesOn values = true := rfl
    rw [Expr.operands_of_goesOn hall, map_eq_pure_bind] at hoperands
    obtain ⟨results, middle, hvalues, hdone⟩ := Eval.bind_eq_done_iff.mp hoperands
    cases hdone
    obtain ⟨called, values, rfl⟩ := List.exists_cons_of_length_eq_add_one (Eval.length_values hvalues)
    exact .inl ⟨called, values, _, .mk hvalues⟩

/-- When all operands are evaluated, none of them breaks off. -/
theorem not_breaks_of_values {before rest : List Expr} {operand : Expr} {all earlier : List Value}
    {middle : Machine} (hall : Eval.values (Script.eval level) (before ++ operand :: rest) machine = .done all after)
    (hearlier : Eval.values (Script.eval level) before machine = .done earlier middle) {error? : Option RuntimeError} :
    ¬ (Script.eval level operand middle).Breaks error? := by
  intro hbreaks
  obtain ⟨value, next, hoperand, -⟩ := Eval.exists_of_values_append_cons hall hearlier
  rw [hoperand] at hbreaks
  cases hbreaks

/-- A call fails by itself where it is refused. -/
theorem failsItself_call_iff {callee : Expr} {arguments : List Expr}
    (htask : moment.task = .eval (.call callee paren arguments)) (hmost : moment.machine.depth ≤ maxCallDepth) :
    moment.FailsItself error ↔ ∃ called values after, moment.CallsWith paren called values after ∧
      called.refusal paren values.length moment.machine.depth = some error := by
  obtain ⟨level, task, machine, held⟩ := moment
  cases htask
  constructor
  · rintro ⟨⟨hrun⟩, halone⟩
    cases level with
    | zero => cases hrun
    | succ level =>
        rcases callsWith_or_starts held hrun with ⟨called, values, after, hcalls⟩ | ⟨inner, hstarts, hbreaks⟩
        · refine ⟨called, values, after, hcalls, ?_⟩
          cases hrefusal : called.refusal paren values.length machine.depth with
          | some other =>
              rw [hcalls.fails hrefusal] at hrun
              cases hrun
              rfl
          | none =>
              obtain ⟨c, rfl, harity, hless⟩ := Value.exists_of_refusal_none hmost hrefusal
              have hdepth := hcalls.depth_eq
              cases hcalls with
              | mk hvalues =>
                  rw [eval_call hvalues, Value.call_counted paren harity (hdepth ▸ hless)] at hrun
                  obtain ⟨f, bound, before, statement, rest, middle, hcalls, hbody, hbefore, hstatement⟩ :=
                    Callable.exists_of_call_breaks (Outcome.breaks_of_mapMachine hrun)
                  exact absurd (.exec hstatement)
                    (halone _ (.body hvalues harity (hdepth ▸ hless) hcalls hbody hbefore))
        · exact absurd hbreaks (halone inner hstarts)
  · rintro ⟨called, values, after, hcalls, hrefusal⟩
    refine ⟨.eval (hcalls.fails hrefusal ▸ .failed error after), fun inner hstarts hbreaks => ?_⟩
    have hdepth := hcalls.depth_eq
    cases hcalls with
    | mk hvalues =>
        cases hstarts with
        | operand hparts hearlier =>
            rw [← Expr.parts, hparts] at hvalues
            cases hbreaks with
            | eval hrun => exact not_breaks_of_values hvalues hearlier hrun
        | body hvalues' harity hless =>
            cases hvalues'.symm.trans hvalues
            simp [Value.refusal, harity, Nat.ne_of_lt (hdepth ▸ hless)] at hrefusal

end Moment

end Script
