import Script.Proofs.Alike.Operations
import Script.Run

/-!
# Evaluation in states of which one is seen in the other

Trees that are alike do alike in states of which one is seen in the other, whatever the tokens, as long as these
read the same, and whatever the scopes that are not seen.
-/

namespace Script

open Eval

/-- Expressions are evaluated alike. -/
def EvaluatesAlike (view : View) (eval : Expr → Eval Value) : Prop :=
  ∀ environment environment' expression expression', environment.Seen view environment' →
    Expr.Like view.tokens expression expression' →
      Alike view environment environment' (Value.Seen view) (eval expression) (eval expression')

variable {view : View} {environment environment' : Environment}

theorem Stmt.Ready.imp {statement part : Stmt} (h : statement.Ready view environment environment')
    (hpart : statement.definesNothing = true → part.definesNothing = true) :
    part.Ready view environment environment' :=
  h.imp_left hpart

section Step

variable {eval : Expr → Eval Value} {exec : Stmt → Eval Flow} (hfaithful : view.Faithful)
  (heval : EvaluatesAlike view eval) (hexec : ExecutesAlike view exec)
  (henvironment : environment.Seen view environment')

theorem Eval.alike_ofOperator {use : Use} {operator operator' : Token}
    (hoperator : view.tokens use operator operator') {result : Except OperandFault Value}
    (hresult : ∀ value, result = .ok value → value.isPlain = true) :
    Alike view environment environment' (Value.Seen view) (ofOperator operator result)
      (ofOperator operator' result) := by
  cases result with
  | error fault => exact alike_fail (.operand hoperator fault)
  | ok value => exact alike_pure (Value.seen_of_isPlain (hresult value rfl))

include heval henvironment

theorem Eval.alike_values {arguments arguments' : List Expr}
    (harguments : List.Forall₂ (Expr.Like view.tokens) arguments arguments') :
    Alike view environment environment' (List.Forall₂ (Value.Seen view)) (values eval arguments)
      (values eval arguments') := by
  induction harguments with
  | nil => exact alike_pure .nil
  | cons hargument _ ih =>
      refine alike_bind (heval _ _ _ _ henvironment hargument) fun first first' hfirst => ?_
      exact alike_bind ih fun others others' hothers => alike_pure (.cons hfirst hothers)

include hfaithful hexec

omit henvironment in
theorem Expr.alike_evalWith : EvaluatesAlike view (Expr.evalWith eval exec) := by
  intro environment environment' expression expression' henvironment h
  have heval {expression expression' : Expr} (h : Expr.Like view.tokens expression expression') :=
    heval environment environment' expression expression' henvironment h
  cases h with
  | assign hname hvalue =>
      refine alike_bind (heval hvalue) fun value value' hvalue => ?_
      exact alike_bind (alike_assign hfaithful henvironment hname hvalue) fun _ _ _ => alike_pure hvalue
  | binary hleft hoperator hright =>
      refine alike_bind (heval hleft) fun left left' hleft => ?_
      refine alike_bind (heval hright) fun right right' hright => ?_
      rw [hfaithful.tokens.kind hoperator, Kind.binary_eq _ hleft hright]
      exact alike_ofOperator hoperator fun _ => Kind.isPlain_binary
  | call hcallee hparen harguments =>
      refine alike_bind (heval hcallee) fun callee callee' hcallee => ?_
      refine alike_bind (alike_values ‹_› henvironment harguments) fun arguments arguments' harguments => ?_
      exact Value.alike_call hexec hfaithful hcallee hparen harguments
  | get hobject hname =>
      refine alike_bind (heval hobject) fun object object' hobject => ?_
      cases hobject with
      | «instance» id hcls => exact Instance.alike_get hfaithful hcls id hname
      | _ => exact alike_fail (.notAnInstance hname .read)
  | grouping hinner => exact heval hinner
  | literal value => exact alike_pure (Value.seen_of_isPlain (Value.isPlain_ofLiteral value))
  | logical hleft hoperator hright =>
      refine alike_bind (heval hleft) fun left left' hleft => ?_
      rw [hfaithful.tokens.kind hoperator, Kind.settledBy_eq _ hleft]
      split
      · exact alike_pure hleft
      · exact heval hright
  | set hobject hname hvalue =>
      refine alike_bind (heval hobject) fun object object' hobject => ?_
      cases hobject with
      | «instance» id hcls =>
          refine alike_bind (heval hvalue) fun value value' hvalue => ?_
          exact alike_bind (Instance.alike_set hfaithful _ _ id hname hvalue) fun _ _ _ => alike_pure hvalue
      | _ => exact alike_fail (.notAnInstance hname .write)
  | this hkeyword => exact alike_lookup hfaithful henvironment hkeyword
  | unary hoperator hright =>
      refine alike_bind (heval hright) fun right right' hright => ?_
      rw [hfaithful.tokens.kind hoperator, Kind.unary_eq _ hright]
      exact alike_ofOperator hoperator fun _ => Kind.isPlain_unary
  | «variable» hname => exact alike_lookup hfaithful henvironment hname

omit hfaithful in
theorem Eval.alike_repeatWhile {condition condition' : Expr} (hcondition : Expr.Like view.tokens condition condition')
    {body body' : Stmt} (hbody : Stmt.Like view.tokens body body') (hready : body.Ready view environment environment')
    (turns : Nat) :
    Alike view environment environment' (Flow.Seen view) (repeatWhile (eval condition) (exec body) turns)
      (repeatWhile (eval condition') (exec body') turns) := by
  induction turns with
  | zero => exact alike_exhausted
  | succ turns ih =>
      refine alike_bind (heval _ _ _ _ henvironment hcondition) fun value value' hvalue => ?_
      rw [hvalue.truthy_eq]
      split
      · refine alike_bind (hexec _ _ _ _ henvironment hready hbody) fun flow flow' hflow => ?_
        cases hflow with
        | next => exact ih
        | returned hvalue => exact alike_pure (.returned hvalue)
      · exact alike_pure .next

omit henvironment in
theorem Stmt.alike_execWith (turns : Nat) : ExecutesAlike view (Stmt.execWith eval exec turns) := by
  intro environment environment' statement statement' henvironment hready h
  have heval' {expression expression' : Expr} (h : Expr.Like view.tokens expression expression') :=
    heval environment environment' expression expression' henvironment h
  have hdefine {name name' : Token} (hname : view.tokens .name name name') {value value' : Value}
      (hvalue : value.Seen view value')
      (hinnermost : view.scopes environment.innermost = some environment'.innermost) :
      Alike view environment environment' (Flow.Seen view)
        (Eval.define name.lexeme value >>= fun _ => pure Flow.next)
        (Eval.define name'.lexeme value' >>= fun _ => pure Flow.next) := by
    rw [hfaithful.tokens.lexeme hname]
    exact alike_bind (alike_define hfaithful hinnermost name.lexeme hvalue) fun _ _ _ => alike_pure .next
  cases h with
  | block hstatements => exact alike_block hexec hfaithful henvironment hstatements
  | classDecl hname hmethods =>
      have hinnermost := hready.resolve_left Bool.false_ne_true
      refine alike_bind alike_environment ?_
      rintro _ _ ⟨rfl, rfl⟩
      rw [hfaithful.tokens.lexeme hname]
      refine alike_bind (alike_change fun _ _ hstore =>
        hstore.addClass hfaithful.tokens _ hmethods henvironment) fun c c' hcls => ?_
      exact alike_bind (alike_define hfaithful hinnermost _ (.callable (.class hcls))) fun _ _ _ => alike_pure .next
  | expression h => exact alike_bind (heval' h) fun _ _ _ => alike_pure .next
  | function hdeclaration =>
      have hinnermost := hready.resolve_left Bool.false_ne_true
      refine alike_bind alike_environment ?_
      rintro _ _ ⟨rfl, rfl⟩
      refine alike_bind (alike_change fun _ _ hstore => hstore.addFunction hdeclaration henvironment) ?_
      intro f f' hf
      rw [hf.name_eq hfaithful.tokens]
      exact alike_bind (alike_define hfaithful hinnermost f.name (.callable (.function hf))) fun _ _ _ =>
        alike_pure .next
  | conditional hcondition hwhenTrue hwhenFalse =>
      refine alike_bind (heval' hcondition) fun value value' hvalue => ?_
      rw [hvalue.truthy_eq]
      cases hwhenFalse with
      | none =>
          split
          · exact hexec _ _ _ _ henvironment hready hwhenTrue
          · exact alike_pure .next
      | some hwhenFalse =>
          split
          · exact hexec _ _ _ _ henvironment (hready.imp fun h => (Bool.and_eq_true_iff.mp h).1) hwhenTrue
          · exact hexec _ _ _ _ henvironment (hready.imp fun h => (Bool.and_eq_true_iff.mp h).2) hwhenFalse
  | print h =>
      refine alike_bind (heval' h) fun value value' hvalue => ?_
      exact alike_bind (alike_print hfaithful hvalue) fun _ _ _ => alike_pure .next
  | «return» _ hvalue =>
      cases hvalue with
      | none => exact alike_pure (.returned .nil)
      | some h => exact alike_bind (heval' h) fun _ _ hvalue => alike_pure (.returned hvalue)
  | var hname hinitializer =>
      have hinnermost := hready.resolve_left Bool.false_ne_true
      cases hinitializer with
      | none => exact hdefine hname .nil hinnermost
      | some h => exact alike_bind (heval' h) fun _ _ hvalue => hdefine hname hvalue hinnermost
  | loop hcondition hbody => exact alike_repeatWhile heval hexec henvironment hcondition hbody hready turns

end Step

theorem alike_eval_exec (hfaithful : view.Faithful) (level : Nat) :
    EvaluatesAlike view (eval level) ∧ ExecutesAlike view (exec level) := by
  induction level with
  | zero => exact ⟨fun _ _ _ _ _ _ => alike_exhausted, fun _ _ _ _ _ _ _ => alike_exhausted⟩
  | succ level ih =>
      obtain ⟨heval, hexec⟩ := ih
      exact ⟨Expr.alike_evalWith hfaithful heval hexec, Stmt.alike_execWith hfaithful heval hexec level⟩

theorem alike_program (hfaithful : view.Faithful) (level : Nat) (hopened : environment.Opened view environment')
    {program program' : List Stmt} (hprogram : List.Forall₂ (Stmt.Like view.tokens) program program') :
    Alike view environment environment' (Flow.Seen view) (Eval.sequence (exec level) program)
      (Eval.sequence (exec level) program') :=
  alike_sequence (alike_eval_exec hfaithful level).2 hopened hprogram

theorem alike_interpret (hfaithful : view.Faithful) (level : Nat) (hopened : environment.Opened view environment')
    {program program' : List Stmt} (hprogram : List.Forall₂ (Stmt.Like view.tokens) program program') :
    Alike view environment environment' Eq (interpret level program) (interpret level program') :=
  alike_bind (alike_program hfaithful level hopened hprogram) fun _ _ _ => alike_flush

end Script
