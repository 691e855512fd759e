import Script.Proofs.Discipline.Operations

/-!
# Evaluation keeps a discipline

Operands are evaluated and then finished with, statements executed one by one, and the levels of nesting go
by induction. Plain values hold no functions, so nothing is asked of the results of operators.
-/

namespace Script

namespace Discipline

variable {W : Type} [Preorder W] {d : Discipline W} {world : W} {environment : Environment}

theorem value_of_isPlain {value : Value} (h : value.isPlain = true) : d.value world value := by
  cases value with
  | callable | «instance» => cases h
  | _ => trivial

theorem keeps_ofOperator (operator : Token) {result : Except OperandFault Value}
    (hresult : ∀ value, result = .ok value → value.isPlain = true) :
    d.Keeps world environment (Eval.ofOperator operator result) d.value := by
  cases result with
  | error fault => exact keeps_fail _
  | ok value => exact keeps_pure (value_of_isPlain (hresult value rfl))

section Step

variable {eval : Expr → Eval Value} (heval : d.KeepsValue eval)

include heval

theorem keeps_values {expressions : List Expr}
    (htasks : ∀ expression ∈ expressions, d.task world environment (.eval expression)) :
    d.Keeps world environment (Eval.values eval expressions)
      fun later values => ∀ value ∈ values, d.value later value := by
  induction expressions generalizing world with
  | nil => exact keeps_pure fun _ h => nomatch h
  | cons expression rest ih =>
      rw [List.forall_mem_cons] at htasks
      refine keeps_bind (heval world environment expression htasks.1) fun later first hle hfirst => ?_
      have hrest := ih fun expression hmem => d.task_mono hle (htasks.2 expression hmem)
      refine keeps_bind hrest fun last others hle' hothers => keeps_pure ?_
      exact List.forall_mem_cons.mpr ⟨value_mono hle' hfirst, hothers⟩

theorem keeps_operands {expression : Expr} {values : List Value} {rest : List Expr}
    (htasks : ∀ operand ∈ rest, d.task world environment (.eval operand))
    (hvalues : ∀ value ∈ values, d.value world value) :
    d.Keeps world environment (expression.operands eval values rest)
      fun later values => ∀ value ∈ values, d.value later value := by
  induction rest generalizing world values with
  | nil => exact keeps_pure hvalues
  | cons operand rest ih =>
      rw [List.forall_mem_cons] at htasks
      unfold Expr.operands
      split
      · refine keeps_bind (heval world environment operand htasks.1) fun later value hle hvalue => ?_
        refine ih (fun operand hmem => d.task_mono hle (htasks.2 operand hmem)) fun other hmem => ?_
        rcases List.mem_append.mp hmem with hbefore | hlast
        · exact value_mono hle (hvalues other hbefore)
        · exact List.mem_singleton.mp hlast ▸ hvalue
      · exact keeps_pure hvalues

variable {exec : Stmt → Eval Flow} (hexec : d.KeepsFlow exec)

include hexec

omit heval in
theorem keeps_finish {expression : Expr} {values : List Value}
    (htask : d.task world environment (.eval expression))
    (hvalues : ∀ value ∈ values, d.value world value) :
    d.Keeps world environment (expression.finish exec values) d.value := by
  have hfirst {first : Value} {others : List Value} (h : ∀ value ∈ first :: others, d.value world value) :
      d.value world first :=
    h first List.mem_cons_self
  unfold Expr.finish
  split
  · have hvalue := hfirst hvalues
    refine keeps_bind (keeps_assign htask hvalue) fun later _ hle _ => ?_
    exact keeps_pure (value_mono hle hvalue)
  · exact keeps_ofOperator _ fun _ => Kind.isPlain_binary
  · rw [List.forall_mem_cons] at hvalues
    exact keeps_call hexec _ hvalues.1 hvalues.2
  · split
    · exact keeps_get _ (hfirst hvalues)
    · exact keeps_fail _
  · exact keeps_pure (hfirst hvalues)
  · exact keeps_pure (hfirst hvalues)
  · exact keeps_pure (hvalues _ (by simp))
  · exact keeps_pure (value_of_isPlain (Value.isPlain_ofLiteral _))
  · have hvalue := hvalues _ (List.mem_cons_of_mem _ List.mem_cons_self)
    refine keeps_bind (keeps_set _ hvalue) fun later _ hle _ => ?_
    exact keeps_pure (value_mono hle hvalue)
  · exact keeps_fail _
  · exact keeps_lookup _
  · exact keeps_ofOperator _ fun _ => Kind.isPlain_unary
  · exact keeps_lookup _
  · exact keeps_exhausted

theorem keeps_evalWith : d.KeepsValue (Expr.evalWith eval exec) := by
  intro world environment expression htask
  rw [Expr.evalWith_eq]
  refine keeps_bind (keeps_operands heval ?_ fun _ h => nomatch h) fun later values hle hvalues => ?_
  · exact fun operand hmem => d.part htask (List.mem_map_of_mem hmem)
  · exact keeps_finish hexec (d.task_mono hle htask) hvalues

theorem keeps_repeatWhile {condition : Expr} {body : Stmt}
    (htask : d.task world environment (.exec (.loop condition body))) (turns : Nat) :
    d.Keeps world environment (Eval.repeatWhile (eval condition) (exec body) turns) d.flow := by
  induction turns generalizing world with
  | zero => exact keeps_exhausted
  | succ turns ih =>
      have hcondition : d.task world environment (.eval condition) :=
        d.part htask (by simp [Task.parts, Stmt.parts])
      have hbody : d.task world environment (.exec body) := d.part htask (by simp [Task.parts, Stmt.parts])
      refine keeps_bind (heval _ _ _ hcondition) fun later value hle _ => ?_
      split
      · refine keeps_bind (hexec _ _ _ (d.task_mono hle hbody)) fun last flow hle' hflow => ?_
        cases flow with
        | next => exact ih (d.task_mono (le_trans hle hle') htask)
        | returned value => exact keeps_pure hflow
      · exact keeps_next

theorem keeps_execWith (turns : Nat) : d.KeepsFlow (Stmt.execWith eval exec turns) := by
  intro world environment statement htask
  have hpart {later : W} {part : Task} (hle : world ≤ later) (hmem : part ∈ statement.parts) :
      d.task later environment part :=
    d.task_mono hle (d.part htask hmem)
  cases statement with
  | block statements => exact keeps_block hexec htask
  | classDecl name methods =>
      refine keeps_bind keeps_environment fun later found hle hfound => ?_
      subst hfound
      refine keeps_bind (keeps_addClass (d.task_mono hle htask)) fun last c hle' hcls => ?_
      have htask := d.task_mono (le_trans hle hle') htask
      exact keeps_bind (keeps_define htask rfl hcls) fun _ _ _ _ => keeps_next
  | expression e =>
      exact keeps_bind (heval _ _ _ (hpart (le_refl world) List.mem_cons_self)) fun _ _ _ _ => keeps_next
  | function declaration =>
      refine keeps_bind keeps_environment fun later found hle hfound => ?_
      subst hfound
      refine keeps_bind (keeps_addFunction (d.task_mono hle htask)) fun last f hle' hf => ?_
      have htask := d.task_mono (le_trans hle hle') htask
      have hname : (Stmt.function declaration).defines = some f.name := by
        rw [Function.name, hf.1]
        rfl
      exact keeps_bind (keeps_define htask hname hf.2) fun _ _ _ _ => keeps_next
  | conditional condition whenTrue whenFalse =>
      refine keeps_bind (heval _ _ _ (hpart (le_refl world) List.mem_cons_self)) ?_
      intro later value hle _
      split
      · exact hexec _ _ _ (hpart hle (by simp [Stmt.parts]))
      · cases whenFalse with
        | some statement => exact hexec _ _ _ (hpart hle (by simp [Stmt.parts]))
        | none => exact keeps_next
  | print e =>
      refine keeps_bind (heval _ _ _ (hpart (le_refl world) List.mem_cons_self)) ?_
      intro later value _ _
      exact keeps_bind (keeps_print value) fun _ _ _ _ => keeps_next
  | «return» keyword value =>
      cases value with
      | some e =>
          refine keeps_bind (heval _ _ _ (hpart (le_refl world) List.mem_cons_self)) ?_
          exact fun later value _ hvalue => keeps_pure hvalue
      | none => exact keeps_pure trivial
  | var name initializer =>
      have hdefine {later : W} (value : Value) (hle : world ≤ later) (hvalue : d.value later value) :
          d.Keeps later environment (Eval.define name.lexeme value >>= fun _ => pure Flow.next) d.flow :=
        keeps_bind (keeps_define (d.task_mono hle htask) rfl hvalue) fun _ _ _ _ => keeps_next
      cases initializer with
      | some e =>
          refine keeps_bind (heval _ _ _ (hpart (le_refl world) List.mem_cons_self)) ?_
          exact fun later value hle hvalue => hdefine value hle hvalue
      | none => exact hdefine .nil (le_refl world) trivial
  | loop condition body => exact keeps_repeatWhile heval hexec htask turns

end Step

variable (d) in
theorem keeps_eval_exec (level : Nat) : d.KeepsValue (eval level) ∧ d.KeepsFlow (exec level) := by
  induction level with
  | zero => exact ⟨fun _ _ _ _ => keeps_exhausted, fun _ _ _ _ => keeps_exhausted⟩
  | succ level ih =>
      obtain ⟨heval, hexec⟩ := ih
      exact ⟨keeps_evalWith heval hexec, keeps_execWith heval hexec level⟩

variable (d) in
theorem keeps_eval (level : Nat) : d.KeepsValue (eval level) :=
  (d.keeps_eval_exec level).1

variable (d) in
theorem keeps_exec (level : Nat) : d.KeepsFlow (exec level) :=
  (d.keeps_eval_exec level).2

end Discipline

end Script
