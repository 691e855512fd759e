import Script.Proofs.Moments.Operands

/-!
# Where a started task stands

What a task starts stands in the same environment, or in one scope more: that of a block around it, or that of a
call around the scopes that the called function has kept. Only calls are counted, and not more than
`maxCallDepth` of them.
-/

namespace Script

variable {level : Nat} {machine middle : Machine}

theorem kept_of_values {expressions : List Expr} {values : List Value}
    (h : Eval.values (eval level) expressions machine = .done values middle) : machine.Kept middle := by
  have hconfined : Eval.Confined Set.univ True (Eval.values (eval level) expressions)
      fun values => ∀ value ∈ values, value.cells ⊆ Set.univ :=
    Eval.confined_values (fun expression => confined_eval Set.univ level expression) expressions
  exact hconfined.kept (.of_done h)

theorem kept_of_turns {condition : Expr} {body : Stmt} (h : Turns level condition body machine middle) :
    machine.Kept middle := by
  induction h with
  | none => exact .refl machine
  | more _ hcondition _ hbody ih =>
      exact (ih.trans (kept_of_eval (.of_done hcondition))).trans (kept_of_exec (.of_done hbody))

theorem Callable.Calls.depth_eq {callable : Callable} {f : Function} (h : callable.Calls machine f middle) :
    middle.depth = machine.depth := by
  cases h with
  | function => rfl
  | «class» hobject _ hbound =>
      cases hobject
      cases hbound
      rfl

namespace Moment

/-- How the second moment stands to the first one, in which its task is started. -/
inductive Stands (outer inner : Moment) : Prop where
  | part (htask : inner.task ∈ outer.task.parts)
      (henvironment : inner.machine.environment = outer.machine.environment)
      (hdepth : inner.machine.depth = outer.machine.depth)
  | inner {statements : List Stmt} {statement : Stmt} (hblock : outer.task = .exec (.block statements))
      (hstatement : statement ∈ statements) (htask : inner.task = .exec statement) (scope : ScopeId)
      (henvironment : inner.machine.environment = outer.machine.environment.push scope)
      (hdepth : inner.machine.depth = outer.machine.depth)
  | body {callee : Expr} {paren : Token} {arguments : List Expr} {callable : Callable} {f : Function}
      {values : List Value} {statement : Stmt} (hcall : outer.task = .eval (.call callee paren arguments))
      (hheld : inner.held = .callable callable :: .callable (.function f) :: values)
      (hstatement : statement ∈ f.declaration.body) (htask : inner.task = .exec statement) (scope : ScopeId)
      (henvironment : inner.machine.environment = f.closure.push scope)
      (hdepth : inner.machine.depth = outer.machine.depth + 1) (hmost : outer.machine.depth < maxCallDepth)

theorem Starts.stands {outer inner : Moment} (h : outer.Starts inner) : outer.Stands inner := by
  cases h with
  | operand hparts hvalues =>
      have hkept := kept_of_values hvalues
      refine .part ?_ hkept.environment hkept.depth
      rw [Task.parts, hparts]
      exact List.mem_map_of_mem (List.mem_append_right _ List.mem_cons_self)
  | body hvalues _ hdepth hcalls hbody hbefore =>
      have hkept := kept_of_values hvalues
      have hkept' := kept_of_sequence (.of_done hbefore)
      refine .body rfl rfl ?_ rfl _ hkept'.environment ?_ (hkept.depth ▸ hdepth)
      · rw [hbody]
        exact List.mem_append_right _ List.mem_cons_self
      · exact hkept'.depth.trans (hcalls.depth_eq.trans (congrArg (· + 1) hkept.depth))
  | first hparts =>
      refine .part ?_ rfl rfl
      rw [Task.parts, hparts]
      exact List.mem_cons_self
  | branch hcondition hbranch =>
      have hkept := kept_of_eval (.of_done hcondition)
      refine .part ?_ hkept.environment hkept.depth
      split at hbranch
      · cases hbranch
        simp [Task.parts, Stmt.parts]
      · simp [Task.parts, Stmt.parts, hbranch]
  | condition hturns =>
      have hkept := kept_of_turns hturns
      exact .part List.mem_cons_self hkept.environment hkept.depth
  | turn hturns hcondition =>
      have hkept := (kept_of_turns hturns).trans (kept_of_eval (.of_done hcondition))
      exact .part (List.mem_cons_of_mem _ List.mem_cons_self) hkept.environment hkept.depth
  | inner hbefore =>
      have hkept := kept_of_sequence (.of_done hbefore)
      exact .inner rfl (List.mem_append_right _ List.mem_cons_self) rfl _ hkept.environment hkept.depth

/-- The body of a function stands in one scope more than the function has kept. -/
theorem Stands.environment_eq_of_call {outer inner : Moment} (h : outer.Stands inner) {expression : Expr}
    {statement : Stmt} {callable : Callable} {f : Function} {values : List Value}
    (hcall : outer.task = .eval expression) (hbody : inner.task = .exec statement)
    (hheld : inner.held = .callable callable :: .callable (.function f) :: values) :
    ∃ scope, inner.machine.environment = f.closure.push scope := by
  cases h with
  | part htask =>
      rw [hcall, hbody] at htask
      obtain ⟨_, -, heq⟩ := List.mem_map.mp htask
      cases heq
  | inner hblock =>
      rw [hcall] at hblock
      cases hblock
  | body _ hheld' _ _ scope henvironment =>
      rw [hheld] at hheld'
      cases hheld'
      exact ⟨scope, henvironment⟩

end Moment

end Script
