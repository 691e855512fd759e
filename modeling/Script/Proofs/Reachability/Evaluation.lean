import Script.Proofs.Operators
import Script.Proofs.Reachability.Operations
import Script.Run

/-!
# Evaluation is confined

One case for each kind of expression and statement, then the levels of nesting by induction. Whatever
the cells, an expression or a statement has none in hand at the start but those of the environment.
-/

namespace Script

open Eval

variable {cells : Set Cell} {pre : Prop}

/-- Confined however it is used, with a value that leads only to the cells. -/
def Eval.ConfinesValue (cells : Set Cell) (body : Eval Value) : Prop :=
  ∀ pre, Confined cells pre body fun value => value.cells ⊆ cells

/-- As `ConfinesValue`, for statements. -/
def Eval.ConfinesFlow (cells : Set Cell) (body : Eval Flow) : Prop :=
  ∀ pre, Confined cells pre body fun flow => flow.cells ⊆ cells

/-! ### Operators -/

theorem Value.cells_of_isPlain {value : Value} (h : value.isPlain = true) : value.cells = ∅ := by
  cases value with
  | callable | «instance» => cases h
  | _ => rfl

theorem Eval.confined_ofOperator (operator : Token) {result : Except OperandFault Value}
    (hresult : ∀ value, result = .ok value → value.isPlain = true) :
    Confined cells pre (ofOperator operator result) fun value => value.cells ⊆ cells := by
  cases result with
  | error fault => exact confined_fail _
  | ok value =>
      refine confined_pure fun _ => ?_
      rw [Value.cells_of_isPlain (hresult value rfl)]
      exact Set.empty_subset _

/-! ### Expressions -/

section Step

variable {eval : Expr → Eval Value} (heval : ∀ expression, ConfinesValue cells (eval expression))

include heval

theorem Eval.confined_values (arguments : List Expr) :
    Confined cells pre (values eval arguments)
      fun values => ∀ value ∈ values, value.cells ⊆ cells := by
  induction arguments generalizing pre with
  | nil => exact confined_pure fun _ _ h => nomatch h
  | cons argument rest ih =>
      refine confined_bind (heval argument pre) fun first => ?_
      refine confined_bind ih fun others => confined_pure fun h => ?_
      exact List.forall_mem_cons.mpr ⟨h.1.2, h.2⟩

variable {exec : Stmt → Eval Flow} (hexec : ∀ statement, ConfinesFlow cells (exec statement))

include hexec

theorem Expr.confined_evalWith (expression : Expr) :
    ConfinesValue cells (expression.evalWith eval exec) := by
  intro pre
  cases expression with
  | assign name value =>
      refine confined_bind (heval value pre) fun value => ?_
      refine confined_bind (confined_assign name And.right) fun _ => ?_
      exact confined_pure fun h => h.1.2
  | binary left operator right =>
      refine confined_bind (heval left pre) fun left => ?_
      refine confined_bind (heval right _) fun right => ?_
      exact confined_ofOperator operator fun _ => Kind.isPlain_binary
  | call callee paren arguments =>
      refine confined_bind (heval callee pre) fun callee => ?_
      refine confined_bind (confined_values heval arguments) fun arguments => ?_
      exact Value.confined_call (fun pre statement => hexec statement pre) paren
        fun h => ⟨h.1.2, h.2⟩
  | get object name =>
      refine confined_bind (heval object pre) fun object => ?_
      cases object with
      | «instance» object => exact Instance.confined_get name And.right
      | _ => exact confined_fail _
  | grouping inner => exact heval inner pre
  | literal value =>
      refine confined_pure fun _ => ?_
      rw [Value.cells_of_isPlain (Value.isPlain_ofLiteral value)]
      exact Set.empty_subset _
  | logical left operator right =>
      refine confined_bind (heval left pre) fun left => ?_
      split
      · exact confined_pure And.right
      · exact heval right _
  | set object name value =>
      refine confined_bind (heval object pre) fun object => ?_
      cases object with
      | «instance» object =>
          refine confined_bind (heval value _) fun value => ?_
          refine confined_bind (Instance.confined_set name fun h => ⟨h.1.2, h.2⟩) fun _ => ?_
          exact confined_pure fun h => h.1.2
      | _ => exact confined_fail _
  | this keyword => exact confined_lookup keyword
  | unary operator right =>
      refine confined_bind (heval right pre) fun right => ?_
      exact confined_ofOperator operator fun _ => Kind.isPlain_unary
  | «variable» name => exact confined_lookup name

/-! ### Statements -/

omit heval hexec in
theorem Eval.confined_repeatWhile {condition : Eval Value} {body : Eval Flow}
    (hcondition : ConfinesValue cells condition) (hbody : ConfinesFlow cells body) (turns : Nat) :
    ConfinesFlow cells (repeatWhile condition body turns) := by
  induction turns with
  | zero => exact fun pre => confined_exhausted
  | succ turns ih =>
      intro pre
      refine confined_bind (hcondition pre) fun value => ?_
      split
      · refine confined_bind (hbody _) fun flow => ?_
        cases flow with
        | next => exact ih _
        | returned value => exact confined_pure And.right
      · exact confined_pure fun _ => Set.empty_subset _

theorem Stmt.confined_execWith (turns : Nat) (statement : Stmt) :
    ConfinesFlow cells (statement.execWith eval exec turns) := by
  intro pre
  have hnext {pre : Prop} : Confined cells pre (pure Flow.next) fun flow => flow.cells ⊆ cells :=
    confined_pure fun _ => Set.empty_subset _
  cases statement with
  | block statements =>
      refine confined_bind (confined_addScope fun _ _ _ h => nomatch h) fun scope => ?_
      refine confined_bind confined_environment fun environment => ?_
      refine confined_within (fun h => ?_) (confined_sequence (fun statement => hexec statement _) _)
      exact Environment.cells_push_subset_iff.mpr ⟨h.1.2, h.2⟩
  | classDecl name methods =>
      refine confined_bind confined_environment fun environment => ?_
      refine confined_bind (confined_addClass _ _ And.right) fun cls => ?_
      exact confined_bind (confined_define _ And.right) fun _ => hnext
  | expression e => exact confined_bind (heval e pre) fun _ => hnext
  | function declaration =>
      refine confined_bind confined_environment fun environment => ?_
      refine confined_bind (confined_addFunction _ And.right) fun function => ?_
      exact confined_bind (confined_define _ And.right) fun _ => hnext
  | conditional condition whenTrue whenFalse =>
      refine confined_bind (heval condition pre) fun value => ?_
      split
      · exact hexec whenTrue _
      · cases whenFalse with
        | some statement => exact hexec statement _
        | none => exact hnext
  | print e =>
      refine confined_bind (heval e pre) fun value => ?_
      exact confined_bind (confined_print value) fun _ => hnext
  | «return» keyword value =>
      cases value with
      | some e => exact confined_bind (heval e pre) fun value => confined_pure And.right
      | none => exact confined_pure fun _ => Set.empty_subset _
  | var name initializer =>
      have hdefine {pre : Prop} (value : Value) (hvalue : pre → value.cells ⊆ cells) :
          Confined cells pre (define name.lexeme value >>= fun _ => pure Flow.next)
            fun flow => flow.cells ⊆ cells :=
        confined_bind (confined_define _ hvalue) fun _ => hnext
      cases initializer with
      | some e => exact confined_bind (heval e pre) fun value => hdefine value And.right
      | none => exact hdefine .nil fun _ => Set.empty_subset _
  | loop condition body => exact confined_repeatWhile (heval condition) (hexec body) turns pre

end Step

theorem confined_eval_exec (cells : Set Cell) (level : Nat) :
    (∀ expression, ConfinesValue cells (eval level expression)) ∧
      ∀ statement, ConfinesFlow cells (exec level statement) := by
  induction level with
  | zero => exact ⟨fun _ _ => confined_exhausted, fun _ _ => confined_exhausted⟩
  | succ level ih =>
      obtain ⟨heval, hexec⟩ := ih
      exact ⟨fun expression => expression.confined_evalWith heval hexec,
        fun statement => statement.confined_execWith heval hexec level⟩

theorem confined_eval (cells : Set Cell) (level : Nat) (expression : Expr) :
    ConfinesValue cells (eval level expression) :=
  (confined_eval_exec cells level).1 expression

theorem confined_exec (cells : Set Cell) (level : Nat) (statement : Stmt) :
    ConfinesFlow cells (exec level statement) :=
  (confined_eval_exec cells level).2 statement

end Script
