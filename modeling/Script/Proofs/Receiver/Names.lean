import Script.Proofs.Alike.Statement
import Script.Proofs.Moments.Moment
import Script.Proofs.Scanning.Cut

/-!
# Names and receivers

No name of a program is `this`, and all that a program calls `this` is: the first is a word that is not a
keyword, the second that keyword. So it is for the tokens of a source, and the parser uses only them.
-/

namespace Script

/-- Names are not `this`, receivers are. -/
def Matching.named : Matching
  | .name, token, _ => token.lexeme ≠ "this"
  | .receiver, token, _ => token.lexeme = "this"
  | _, _, _ => True

/-! ### Tokens -/

theorem Lexeme.ofWord_of_identifier {text : List Char} (h : Lexeme .identifier text) :
    Kind.ofWord (String.ofList text) = .identifier := by
  have hmarks : ∀ mark ∈ Piece.marks, mark.2 ≠ .identifier := by decide
  have hkeywords : ∀ entry ∈ Kind.keywords, entry.2 ≠ .identifier := by decide
  cases h with
  | mark hmark => exact absurd rfl (hmarks _ hmark)
  | keyword hword => exact absurd rfl (hkeywords _ hword)
  | identifier _ _ hfree => exact ofWord_of_free hfree

theorem Lexeme.eq_of_thisWord {text : List Char} (h : Lexeme .thisWord text) :
    String.ofList text = "this" := by
  have hmarks : ∀ mark ∈ Piece.marks, mark.2 ≠ .thisWord := by decide
  have hkeywords : ∀ entry ∈ Kind.keywords, entry.2 = .thisWord → entry.1 = "this" := by decide
  cases h with
  | mark hmark => exact absurd rfl (hmarks _ hmark)
  | keyword hword => exact hkeywords _ hword rfl

theorem twin_named_of_mem_scan {source : String} {token : Token} (h : token ∈ (scan source).tokens) :
    token.Twin .named token := by
  refine ⟨rfl, fun _ => rfl, ?_⟩
  rcases List.mem_append.mp h with hpiece | hclosing
  · obtain ⟨text, hlexeme, hword⟩ := exists_lexeme_of_mem hpiece
    intro use hkind
    cases use with
    | name =>
        obtain hkind : token.kind = .identifier := hkind
        rw [hkind] at hlexeme hword
        intro hthis
        have hidentifier := hlexeme.ofWord_of_identifier
        rw [show String.ofList text = token.lexeme from hword.symm, hthis] at hidentifier
        exact absurd hidentifier (by decide)
    | receiver =>
        obtain hkind : token.kind = .thisWord := hkind
        rw [hkind] at hlexeme hword
        exact hword.trans hlexeme.eq_of_thisWord
    | operator | sign | paren | mark => trivial
  · rw [List.mem_singleton.mp hclosing]
    intro use hkind
    cases use with
    | name | receiver => cases hkind
    | operator | sign | paren | mark => trivial

/-! ### Trees -/

/-- The same list, of which all tokens match themselves. -/
def Parser.Itself (T : Matching) (near far : List Token) : Prop :=
  near = far ∧ ∀ token ∈ near, token.Twin T token

section Itself

variable {T : Matching}

theorem Parser.tracks_itself : Tracks T (Itself T) := by
  refine tracks_of_cons ?_
  rintro near _ ⟨rfl, htwins⟩
  cases near with
  | nil => exact .inl ⟨rfl, rfl⟩
  | cons token rest =>
      rw [List.forall_mem_cons] at htwins
      exact .inr ⟨token, token, rest, rest, rfl, rfl, htwins.1, fun _ => ⟨rfl, htwins.2⟩⟩

theorem Parser.through_itself : Through (Itself T) := by
  rintro near far ⟨stop, stop', -, heq, htwins⟩
  exact ⟨(List.cons.inj heq).2, fun token hmem => htwins token (List.mem_cons_of_mem _ hmem)⟩

variable {tokens : List Token} (htwins : ∀ token ∈ tokens, token.Twin T token)

include htwins

theorem parseProgram_like_self : ∀ statement ∈ (parseProgram tokens).tree, Stmt.Like T statement statement := by
  have hread := Parser.simulates_program Parser.tracks_itself Parser.through_itself
    (Parser.levels tokens) (Parser.levels tokens) tokens tokens ⟨rfl, htwins⟩
  unfold parseProgram Parser.parse
  cases hparse : Parser.program (Parser.levels tokens) tokens with
  | done tree unread reports =>
      rw [hparse] at hread
      exact List.forall₂_same.mp hread.1
  | failed | exhausted => exact fun _ hmem => nomatch hmem

theorem parseExpression_like_self :
    ∀ expression ∈ (parseExpression tokens).tree, Expr.Like T expression expression := by
  have hread := Parser.simulates_expression Parser.tracks_itself
    (Parser.levels tokens) (Parser.levels tokens) tokens tokens ⟨rfl, htwins⟩
  unfold parseExpression Parser.parse
  cases hparse : Parser.expression (Parser.levels tokens) tokens with
  | done tree unread reports =>
      rw [hparse] at hread
      rintro _ ⟨⟩
      exact hread.1
  | failed | exhausted => exact fun _ hmem => nomatch hmem

end Itself

/-! ### Tasks -/

/-- Tasks of the same form. -/
inductive Task.Like (T : Matching) : Task → Task → Prop where
  | eval {expression expression' : Expr} (h : Expr.Like T expression expression') :
      Like T (.eval expression) (.eval expression')
  | exec {statement statement' : Stmt} (h : Stmt.Like T statement statement') :
      Like T (.exec statement) (.exec statement')

section Parts

variable {T : Matching}

theorem Expr.Like.parts {expression expression' : Expr} (h : Expr.Like T expression expression') :
    List.Forall₂ (Expr.Like T) expression.parts expression'.parts := by
  cases h with
  | assign _ h | get h _ | grouping h | unary _ h => exact .cons h .nil
  | binary hleft _ hright | logical hleft _ hright => exact .cons hleft (.cons hright .nil)
  | call hcallee _ harguments => exact .cons hcallee harguments
  | set hobject _ hvalue => exact .cons hobject (.cons hvalue .nil)
  | literal | this | «variable» => exact .nil

theorem Stmt.Like.parts {statement statement' : Stmt} (h : Stmt.Like T statement statement') :
    List.Forall₂ (Task.Like T) statement.parts statement'.parts := by
  have hoption {e? e?' : Option Expr} (h : Option.Rel (Expr.Like T) e? e?') :
      List.Forall₂ (Task.Like T) (e?.toList.map .eval) (e?'.toList.map .eval) := by
    cases h with
    | none => exact .nil
    | some h => exact .cons (.eval h) .nil
  cases h with
  | expression h | print h => exact .cons (.eval h) .nil
  | conditional hcondition hwhenTrue hwhenFalse =>
      refine .cons (.eval hcondition) (.cons (.exec hwhenTrue) ?_)
      cases hwhenFalse with
      | none => exact .nil
      | some h => exact .cons (.exec h) .nil
  | «return» _ hvalue => exact hoption hvalue
  | var _ hinitializer => exact hoption hinitializer
  | loop hcondition hbody => exact .cons (.eval hcondition) (.cons (.exec hbody) .nil)
  | block | classDecl | function => exact .nil

theorem Task.Like.parts {task task' : Task} (h : Task.Like T task task') :
    List.Forall₂ (Task.Like T) task.parts task'.parts := by
  cases h with
  | eval h => exact List.rel_map (fun _ _ => .eval) h.parts
  | exec h => exact h.parts

end Parts

/-- All tokens in the tasks of a request are from its source. -/
theorem Request.tasks_like {T : Matching} (request : Request)
    (htwins : ∀ token ∈ (scan request.source).tokens, token.Twin T token) :
    ∀ task ∈ request.tasks, Task.Like T task task := by
  cases request with
  | run source =>
      intro task hmem
      simp only [tasks] at hmem
      split at hmem
      · cases hmem
      · obtain ⟨statement, hstatement, rfl⟩ := List.mem_map.mp hmem
        exact .exec (parseProgram_like_self htwins statement hstatement)
  | evaluate source =>
      intro task hmem
      simp only [tasks] at hmem
      split at hmem
      · cases hmem
      · obtain ⟨expression, hexpression, rfl⟩ := List.mem_map.mp hmem
        exact .eval (parseExpression_like_self htwins expression (Option.mem_toList.mp hexpression))

/-- No task of a request uses `this` as a name, or another token as the receiver. -/
theorem Request.tasks_named (request : Request) : ∀ task ∈ request.tasks, Task.Like .named task task :=
  request.tasks_like fun _ => twin_named_of_mem_scan

end Script
