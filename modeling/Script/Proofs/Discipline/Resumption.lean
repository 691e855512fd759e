import Script.Proofs.Discipline.Evaluation

/-!
# Going on after a part

A computation that comes to an end has come to the end of each of its parts, and what is left of it after a
part keeps a discipline as the whole does.
-/

namespace Script

namespace Discipline

variable {α β W : Type} [Preorder W] {d : Discipline W} {world : W} {environment : Environment}
  {machine middle after : Machine} {level : Nat}

/-- The part has come to an end. If that is good, the computation around it goes on from there, and ends well
in the state `after`. -/
def Resumes (d : Discipline W) (world : W) (environment : Environment) (part : Outcome RuntimeError α)
    (post : W → α → Prop) (after : Machine) : Prop :=
  ∃ value? last, part.Ends value? last ∧
    ∀ later, world ≤ later → d.Good later last → last.environment = environment →
      (∀ value ∈ value?, post later value) → ∃ final, later ≤ final ∧ d.Good final after

section Parts

variable {post : W → α → Prop} {part : Outcome RuntimeError α}

theorem resumes_of_ends (post : W → α → Prop) {value? : Option α} (h : part.Ends value? after) :
    d.Resumes world environment part post after :=
  ⟨value?, after, h, fun later _ hgood _ _ => ⟨later, le_refl later, hgood⟩⟩

theorem Resumes.bind {first : Eval α} {next : α → Eval β} {last : W → β → Prop}
    (h : d.Resumes world environment ((first >>= next) machine) last after)
    (hnext : ∀ later value, world ≤ later → post later value →
      d.Keeps later environment (next value) last) :
    d.Resumes world environment (first machine) post after := by
  obtain ⟨value?, final, hends, hrest⟩ := h
  rcases Eval.ends_bind hends with ⟨error, hfirst, rfl⟩ | ⟨value, middle, hfirst, hends⟩
  · refine ⟨none, final, hfirst ▸ .failed error final, fun later hle hgood henvironment _ => ?_⟩
    exact hrest later hle hgood henvironment fun _ h => nomatch h
  · refine ⟨some value, middle, hfirst ▸ .done value middle, fun later hle hgood henvironment hvalue => ?_⟩
    obtain ⟨then', hle', hgood', hback, hlast⟩ :=
      hnext later value hle (hvalue value rfl) middle value? final hgood henvironment hends
    obtain ⟨finally', hle'', hafter⟩ := hrest then' (le_trans hle hle') hgood' hback hlast
    exact ⟨finally', le_trans hle' hle'', hafter⟩

theorem Resumes.of_mapMachine {restore : Machine → Machine} {inner : Environment}
    (h : d.Resumes world environment (part.mapMachine restore) post after)
    (hrestore : ∀ later last, d.Good later last → last.environment = inner →
      d.Good later (restore last) ∧ (restore last).environment = environment) :
    d.Resumes world inner part post after := by
  obtain ⟨value?, _, hends, hrest⟩ := h
  obtain ⟨last, hlast, rfl⟩ := Outcome.ends_mapMachine_iff.mp hends
  refine ⟨value?, last, hlast, fun later hle hgood henvironment hvalue => ?_⟩
  obtain ⟨hgood, hback⟩ := hrestore later last hgood henvironment
  exact hrest later hle hgood hback hvalue

theorem Resumes.counted {body : Eval α}
    (h : d.Resumes world environment (body.counted machine) post after) :
    d.Resumes world environment (body { machine with depth := machine.depth + 1 }) post after :=
  h.of_mapMachine fun _ last hgood henvironment =>
    ⟨hgood.elsewhere last.environment machine.depth last.time, henvironment⟩

theorem Resumes.entered {enter : Machine → Machine} {body : Eval α}
    (h : d.Resumes world machine.environment (Eval.entered enter body machine) post after)
    (inner : Environment) : d.Resumes world inner (body (enter machine)) post after :=
  h.of_mapMachine fun _ last hgood _ =>
    ⟨hgood.elsewhere machine.environment last.depth last.time, rfl⟩

end Parts

/-! ### Tasks -/

theorem resumes_operand {expression operand : Expr} {before rest : List Expr} {values : List Value}
    {value? : Option Value} (htask : d.task world environment (.eval expression))
    (hparts : expression.parts = before ++ operand :: rest)
    (hvalues : Eval.values (eval level) before machine = .done values middle)
    (hgoesOn : expression.goesOn values = true) (hheld : ∀ value ∈ values, d.value world value)
    (hends : (eval (level + 1) expression machine).Ends value? after) :
    d.Resumes world environment (eval level operand middle) d.value after := by
  have hlength := Eval.length_values_lt hparts hvalues
  have hrun : eval (level + 1) expression machine =
      (expression.operands (eval level) values (operand :: rest) >>= expression.finish (exec level))
        middle := by
    change expression.evalWith (eval level) (exec level) machine = _
    have hall := Expr.operands_append hvalues []
      (fun fewer hfewer => Expr.goesOn_of_prefix hlength hgoesOn hfewer) (operand :: rest)
    rw [Expr.evalWith_eq, Eval.bind_apply, hparts, hall]
    rfl
  rw [hrun] at hends
  have hoperands : d.Resumes world environment
      (expression.operands (eval level) values (operand :: rest) middle)
      (fun later values => ∀ value ∈ values, d.value later value) after :=
    (resumes_of_ends _ hends).bind fun later values hle hvalues =>
      keeps_finish (d.keeps_exec level) (d.task_mono hle htask) hvalues
  rw [Expr.operands, if_pos hgoesOn] at hoperands
  refine hoperands.bind fun later value hle hvalue => keeps_operands (d.keeps_eval level) ?_ ?_
  · intro other hmem
    exact d.task_mono hle (d.part htask (List.mem_map_of_mem (hparts ▸ by simp [hmem])))
  · intro other hmem
    rcases List.mem_append.mp hmem with hbefore | hlast
    · exact value_mono hle (hheld other hbefore)
    · exact List.mem_singleton.mp hlast ▸ hvalue

theorem Resumes.statement {before rest : List Stmt} {statement : Stmt} {post : W → Flow → Prop}
    (h : d.Resumes world environment
      (Eval.sequence (exec level) (before ++ statement :: rest) machine) post after)
    (hpost : ∀ later flow, d.flow later flow → post later flow)
    (hbefore : Eval.sequence (exec level) before machine = .done .next middle)
    (hrest : ∀ statement ∈ rest, d.task world environment (.exec statement)) :
    d.Resumes world environment (exec level statement middle) d.flow after := by
  rw [Eval.sequence_append hbefore] at h
  refine Resumes.bind h fun later flow hle hflow => ?_
  cases flow with
  | next =>
      exact (keeps_sequence (d.keeps_exec level) fun statement hmem =>
        d.task_mono hle (hrest statement hmem)).mono fun later flow _ => hpost later flow
  | returned value => exact keeps_pure (hpost later _ hflow)

theorem resumes_body {callee : Expr} {paren : Token} {arguments : List Expr} {callable : Callable}
    {values : List Value} {called bound : Machine} {f : Function} {statement : Stmt}
    {before rest : List Stmt} {value? : Option Value}
    (hvalues : Eval.values (eval level) (callee :: arguments) machine =
      .done (.callable callable :: values) called)
    (harity : values.length = callable.arity) (hdepth : called.depth < maxCallDepth)
    (hcalls : callable.Calls { called with depth := called.depth + 1 } f bound)
    (hbody : f.declaration.body = before ++ statement :: rest)
    (hbefore : Eval.sequence (exec level) before (bound.enterBody f values) = .done .next middle)
    (hrest : ∀ statement ∈ rest, d.task world (bound.enterBody f values).environment (.exec statement))
    (hends : (eval (level + 1) (.call callee paren arguments) machine).Ends value? after) :
    d.Resumes world (bound.enterBody f values).environment (exec level statement middle) d.flow after := by
  have hrun : eval (level + 1) (.call callee paren arguments) machine =
      (callable.call (exec level) values).counted called := by
    rw [eval_call hvalues, Value.call_counted paren harity hdepth]
  rw [hrun] at hends
  have hcall : d.Resumes world bound.environment
      (callable.call (exec level) values { called with depth := called.depth + 1 }) (fun _ _ => True)
      after :=
    (resumes_of_ends _ hends).counted
  obtain ⟨result, hresult⟩ := hcalls.exists_call_eq values
  rw [hresult, map_eq_pure_bind] at hcall
  have hfunction : d.Resumes world bound.environment (f.call (exec level) values bound)
      (fun _ _ => True) after :=
    hcall.bind fun _ _ _ _ => keeps_pure trivial
  have hentered : d.Resumes world bound.environment
      (Eval.entered (·.enterBody f values) (Eval.sequence (exec level) f.declaration.body) bound)
      (fun _ _ => True) after :=
    Resumes.bind hfunction fun later flow _ _ => by
      cases flow <;> exact keeps_pure trivial
  have hsequence := hentered.entered (bound.enterBody f values).environment
  rw [hbody] at hsequence
  exact hsequence.statement (fun _ _ _ => trivial) hbefore hrest

theorem resumes_inner {statement : Stmt} {before rest : List Stmt} {flow? : Option Flow}
    (hbefore : Eval.sequence (exec level) before machine.enterBlock = .done .next middle)
    (hrest : ∀ statement ∈ rest, d.task world machine.enterBlock.environment (.exec statement))
    (hends : (exec (level + 1) (.block (before ++ statement :: rest)) machine).Ends flow? after) :
    d.Resumes world machine.enterBlock.environment (exec level statement middle) d.flow after := by
  have hentered : d.Resumes world machine.environment
      (Eval.entered Machine.enterBlock (Eval.sequence (exec level) (before ++ statement :: rest)) machine)
      d.flow after :=
    resumes_of_ends _ hends
  exact (hentered.entered _).statement (fun _ _ => id) hbefore hrest

section Loops

variable {condition : Expr} {body : Stmt} {flow? : Option Flow}
  (htask : d.task world environment (.exec (.loop condition body)))
  (hturns : Turns level condition body machine middle)
  (hends : (exec (level + 1) (.loop condition body) machine).Ends flow? after)

include htask hturns hends

theorem resumes_condition :
    d.Resumes world environment (eval level condition middle) d.value after := by
  obtain ⟨fewer, hrest⟩ := hturns.exists_repeatWhile hends
  refine Resumes.bind (resumes_of_ends d.flow hrest) fun later value hle _ => ?_
  split
  · have hbody : d.task later environment (.exec body) :=
      d.task_mono hle (d.part htask (by simp [Task.parts, Stmt.parts]))
    refine keeps_bind (d.keeps_exec level _ _ _ hbody) fun last flow hle' hflow => ?_
    cases flow with
    | next =>
        exact keeps_repeatWhile (d.keeps_eval level) (d.keeps_exec level)
          (d.task_mono (le_trans hle hle') htask) fewer
    | returned value => exact keeps_pure hflow
  · exact keeps_next

theorem resumes_turn {value : Value} {tested : Machine}
    (hcondition : eval level condition middle = .done value tested) (htrue : value.truthy = true) :
    d.Resumes world environment (exec level body tested) d.flow after := by
  obtain ⟨fewer, hrest⟩ := hturns.exists_repeatWhile hends
  rw [Eval.repeatWhile, Eval.bind_apply, hcondition] at hrest
  simp only [htrue, if_true] at hrest
  refine Resumes.bind (resumes_of_ends d.flow hrest) fun later flow hle hflow => ?_
  cases flow with
  | next =>
      exact keeps_repeatWhile (d.keeps_eval level) (d.keeps_exec level) (d.task_mono hle htask) fewer
  | returned value => exact keeps_pure hflow

end Loops

theorem resumes_first {statement : Stmt} {expression : Expr} {others : List Task} {flow? : Option Flow}
    (htask : d.task world environment (.exec statement))
    (hparts : statement.parts = .eval expression :: others)
    (hends : (exec (level + 1) statement machine).Ends flow? after) :
    d.Resumes world environment (eval level expression machine) d.value after := by
  have hpart {later : W} {part : Task} (hle : world ≤ later) (hmem : part ∈ statement.parts) :
      d.task later environment part :=
    d.task_mono hle (d.part htask hmem)
  cases statement with
  | expression =>
      cases hparts
      exact Resumes.bind (resumes_of_ends d.flow hends) fun _ _ _ _ => keeps_next
  | print =>
      cases hparts
      refine Resumes.bind (resumes_of_ends d.flow hends) fun _ value _ _ => ?_
      exact keeps_bind (keeps_print value) fun _ _ _ _ => keeps_next
  | conditional condition whenTrue whenFalse =>
      cases hparts
      refine Resumes.bind (resumes_of_ends d.flow hends) fun later value hle _ => ?_
      split
      · exact d.keeps_exec level _ _ _ (hpart hle (by simp [Stmt.parts]))
      · cases whenFalse with
        | some statement => exact d.keeps_exec level _ _ _ (hpart hle (by simp [Stmt.parts]))
        | none => exact keeps_next
  | «return» keyword value =>
      cases value with
      | none => cases hparts
      | some =>
          cases hparts
          exact Resumes.bind (resumes_of_ends d.flow hends) fun _ _ _ hvalue => keeps_pure hvalue
  | var name initializer =>
      cases initializer with
      | none => cases hparts
      | some =>
          cases hparts
          refine Resumes.bind (resumes_of_ends d.flow hends) fun later value hle hvalue => ?_
          exact keeps_bind (keeps_define (d.task_mono hle htask) rfl hvalue) fun _ _ _ _ => keeps_next
  | loop =>
      cases hparts
      exact resumes_condition htask (.none machine) hends
  | block | classDecl | function => cases hparts

end Discipline

end Script
