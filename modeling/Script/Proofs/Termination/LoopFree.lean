import Script.Proofs.Discipline.Moments
import Script.Proofs.Joining.Parser
import Script.Proofs.Tables

/-!
# Programs without loops

A source in which neither `while` nor `for` stands has no loop in its tree, nor in the bodies of functions and methods
that it declares. So there is none in all the code that a session without these words ever comes to.
-/

namespace Script

open Grammar

/-- There is no loop in the statement, nor in the body of a function or a method in it. -/
inductive Stmt.LoopFree : Stmt → Prop where
  | block {statements : List Stmt} (h : ∀ statement ∈ statements, LoopFree statement) :
      LoopFree (.block statements)
  | classDecl (name : Token) {methods : List Declaration}
      (h : ∀ method ∈ methods, ∀ statement ∈ method.body, LoopFree statement) :
      LoopFree (.classDecl name methods)
  | expression (e : Expr) : LoopFree (.expression e)
  | function {declaration : Declaration} (h : ∀ statement ∈ declaration.body, LoopFree statement) :
      LoopFree (.function declaration)
  | conditional (condition : Expr) {whenTrue : Stmt} {whenFalse : Option Stmt} (htrue : LoopFree whenTrue)
      (hfalse : ∀ statement ∈ whenFalse, LoopFree statement) :
      LoopFree (.conditional condition whenTrue whenFalse)
  | print (e : Expr) : LoopFree (.print e)
  | return (keyword : Token) (value : Option Expr) : LoopFree (.return keyword value)
  | var (name : Token) (initializer : Option Expr) : LoopFree (.var name initializer)

/-- Expressions declare nothing, so there is no loop in them. -/
def Task.LoopFree : Task → Prop
  | .eval _ => True
  | .exec statement => statement.LoopFree

/-! ### Sources -/

/-- Neither `while` nor `for`. -/
def Loopless (tokens : List Token) : Prop :=
  ∀ token ∈ tokens, token.kind ≠ .whileWord ∧ token.kind ≠ .forWord

section Loopless

variable {token : Token} {tokens others : List Token}

theorem loopless_cons :
    Loopless (token :: tokens) ↔ (token.kind ≠ .whileWord ∧ token.kind ≠ .forWord) ∧ Loopless tokens :=
  List.forall_mem_cons

theorem loopless_append : Loopless (tokens ++ others) ↔ Loopless tokens ∧ Loopless others :=
  List.forall_mem_append

theorem Loopless.item {α : Type} {items : List (List Token × α)} (h : Loopless (items.flatMap Prod.fst))
    {item : List Token × α} (hitem : item ∈ items) : Loopless item.1 :=
  fun token hmem => h token (List.mem_flatMap.mpr ⟨item, hitem, hmem⟩)

theorem not_loopless_while (keyword : Word .whileWord) : ¬ Loopless (keyword.1 :: tokens) :=
  fun h => (loopless_cons.mp h).1.1 keyword.2

theorem not_loopless_for (keyword : Word .forWord) : ¬ Loopless (keyword.1 :: tokens) :=
  fun h => (loopless_cons.mp h).1.2 keyword.2

end Loopless

theorem Grammar.VarDeclaration.loopFree {read : List Token} {tree : Stmt} (h : VarDeclaration read tree) :
    tree.LoopFree := by
  cases h with
  | plain => exact .var _ _
  | initialized => exact .var _ _

/-- All loops are read at a `while` or a `for`. What stands behind the initializer of a `for` is a loop. -/
theorem Grammar.Statement.loopFree {rule : ElseRule} {symbol : StmtSymbol} {read : List Token} {tree : Stmt}
    (h : Statement rule symbol read tree) (hread : Loopless read)
    (hsymbol : ∀ mayDangle, symbol ≠ .forTail mayDangle) : tree.LoopFree := by
  induction h with
  | classDecl keyword name opening methods _ closing ih =>
      obtain ⟨-, -, -, hmethods⟩ := by simpa only [loopless_cons, loopless_append] using hread
      refine .classDecl _ fun method hmem => ?_
      obtain ⟨item, hitem, rfl⟩ := List.mem_map.mp hmem
      cases ih item hitem (hmethods.1.item hitem) nofun with
      | function h => exact h
  | functionDecl keyword _ ih => exact ih (loopless_cons.mp hread).2 nofun
  | varDecl hvar => exact hvar.loopFree
  | statement _ ih | nested _ ih => exact ih hread nofun
  | function name opening params _ hparams closing _ ih =>
      obtain ⟨-, -, -, -, hblock⟩ := by simpa only [loopless_cons, loopless_append] using hread
      cases ih hblock nofun with
      | block h => exact .function h
  | block opening items _ closing ih =>
      obtain ⟨-, hitems, -⟩ := by simpa only [loopless_cons, loopless_append] using hread
      refine .block fun statement hmem => ?_
      obtain ⟨item, hitem, rfl⟩ := List.mem_map.mp hmem
      exact ih item hitem (hitems.item hitem) nofun
  | ifOnly keyword opening hcondition closing _ ih =>
      obtain ⟨-, -, -, -, htrue⟩ := by simpa only [loopless_cons, loopless_append] using hread
      exact .conditional _ (ih htrue nofun) fun _ h => nomatch h
  | ifElse keyword opening hcondition closing _ otherwise _ ihtrue ihfalse =>
      obtain ⟨-, -, -, -, htrue, -, hfalse⟩ := by simpa only [loopless_cons, loopless_append] using hread
      refine .conditional _ (ihtrue htrue nofun) ?_
      rintro _ ⟨⟩
      exact ihfalse hfalse nofun
  | whileLoop keyword => exact absurd hread (not_loopless_while keyword)
  | forOnly keyword => exact absurd hread (not_loopless_for keyword)
  | forFrom keyword => exact absurd hread (not_loopless_for keyword)
  | forTail | forTailStep => exact absurd rfl (hsymbol _)
  | print => exact .print _
  | «return» => exact .return _ _
  | expression htree =>
      cases htree with
      | mk => exact .expression _

theorem Parser.loopFree_parseProgram {tokens : List Token} (h : Loopless tokens)
    (hnone : (parseProgram tokens).diagnostics = []) :
    ∀ statement ∈ (parseProgram tokens).tree, statement.LoopFree := by
  obtain ⟨items, hitems, hread, htree⟩ := program_upToEnd hnone
  have hloopless : Loopless (items.flatMap Prod.fst) :=
    fun token hmem => h token (List.takeWhile_subset _ (hread ▸ hmem))
  intro statement hmem
  rw [htree] at hmem
  obtain ⟨item, hitem, rfl⟩ := List.mem_map.mp hmem
  exact (hitems item hitem).loopFree (hloopless.item hitem) nofun

/-- Without these words in its source, a request asks for nothing that has a loop in it. -/
theorem Request.loopFree (request : Request) (h : Loopless (scan request.source).tokens) :
    ∀ task ∈ request.tasks, task.LoopFree := by
  cases request with
  | evaluate source =>
      intro task hmem
      simp only [tasks] at hmem
      split at hmem
      · cases hmem
      · obtain ⟨expression, -, rfl⟩ := List.mem_map.mp hmem
        trivial
  | run source =>
      intro task hmem
      simp only [tasks] at hmem
      split at hmem
      · cases hmem
      · next hread =>
          rw [Diagnostics.hadError, Bool.not_eq_true', Bool.not_eq_false, List.isEmpty_iff] at hread
          obtain ⟨statement, hstatement, rfl⟩ := List.mem_map.mp hmem
          exact Parser.loopFree_parseProgram h (List.append_eq_nil_iff.mp hread).2 statement hstatement

end Script
