import Script.Proofs.Alike.Parser
import Script.Proofs.Parser.Loops

/-!
# Statements from lists that a parser cannot tell apart

Statements that end with a semicolon need no more than the lists up to it. All others, and recovery after
an error, need lists that correspond up to their ends.
-/

namespace Script

variable {T : Matching}

theorem Stmt.like_withIncrement {body body' : Stmt} {increment increment' : Option Expr}
    (hbody : Stmt.Like T body body') (hincrement : Option.Rel (Expr.Like T) increment increment') :
    Stmt.Like T (body.withIncrement increment) (body'.withIncrement increment') := by
  cases hincrement with
  | none => exact hbody
  | some hincrement => exact .block (.cons hbody (.cons (.expression hincrement) .nil))

theorem Stmt.like_forLoop {initializer initializer' : Option Stmt}
    {condition condition' increment increment' : Option Expr} {body body' : Stmt}
    (hinitializer : Option.Rel (Stmt.Like T) initializer initializer')
    (hcondition : Option.Rel (Expr.Like T) condition condition')
    (hincrement : Option.Rel (Expr.Like T) increment increment') (hbody : Stmt.Like T body body') :
    Stmt.Like T (.forLoop initializer condition increment body)
      (.forLoop initializer' condition' increment' body') := by
  have hloop : Stmt.Like T (.loop (condition.getD (.literal (.bool true))) (body.withIncrement increment))
      (.loop (condition'.getD (.literal (.bool true))) (body'.withIncrement increment')) := by
    refine .loop ?_ (like_withIncrement hbody hincrement)
    cases hcondition with
    | none => exact .literal _
    | some hcondition => exact hcondition
  cases hinitializer with
  | none => exact hloop
  | some hinitializer => exact .block (.cons hinitializer (.cons hloop .nil))

namespace Parser

variable {α : Type} {along : List Token → List Token → Prop}

section UpToSemicolon

variable (htracks : Tracks T along)

include htracks

theorem simulates_closing {V : α → α → Prop} (expected : Expected) {value value' : α}
    (hvalue : V value value') :
    Simulates along (past along) V
      (do
        let _ ← expect .semicolon expected
        return value)
      (do
        let _ ← expect .semicolon expected
        return value') := by
  intro near far halong
  rw [bind_apply, bind_apply, expect, expect]
  rcases htracks near far halong with ⟨hnear, hfar⟩ | ⟨token, token', near', far', rfl, rfl, hend, htwin, -⟩
  · rw [hnear, hfar]
    exact ⟨rfl, halong, .nil⟩
  · rw [next?_cons hend, next?_cons (htwin.kind ▸ hend)]
    simp only
    rw [htwin.kind]
    by_cases hstop : token.kind = .semicolon
    · rw [if_pos hstop, if_pos hstop]
      exact ⟨hvalue, ⟨token, token', hstop, halong⟩, .nil⟩
    · rw [if_neg hstop, if_neg hstop]
      exact ⟨rfl, halong, .nil⟩

variable {expression expression' : Parser Expr}
  (hexpression : Simulates along along (Expr.Like T) expression expression')

include hexpression

theorem simulates_expressionStatement : Simulates along (past along) (Stmt.Like T)
    (expressionStatement expression) (expressionStatement expression') :=
  simulates_bind hexpression fun _ _ htree => simulates_closing htracks _ (.expression htree)

theorem simulates_varDeclaration : Simulates along (past along) (Stmt.Like T)
    (varDeclaration expression) (varDeclaration expression') := by
  unfold varDeclaration
  refine simulates_bind (simulates_expect htracks (.inl (by decide)) _) fun name name' hname => ?_
  have hname := hname.2.matching .name hname.1
  refine simulates_bind (simulates_accept htracks (.inl rfl)) fun mark mark' hmark => ?_
  cases hmark with
  | none => exact simulates_closing htracks _ (.var hname .none)
  | some =>
      exact simulates_bind hexpression fun _ _ htree =>
        simulates_closing htracks _ (.var hname (.some htree))

theorem simulates_print : Simulates along (past along) (Stmt.Like T) (print expression)
    (print expression') :=
  simulates_bind hexpression fun _ _ htree => simulates_closing htracks _ (.print htree)

theorem simulates_returned {keyword keyword' : Token} (hkeyword : T .mark keyword keyword') :
    Simulates along (past along) (Stmt.Like T) (returned expression keyword)
      (returned expression' keyword') :=
  simulates_bind (simulates_unlessSees htracks hexpression _) fun _ _ hvalue =>
    simulates_closing htracks _ (.return hkeyword hvalue)

end UpToSemicolon

/-! ### Lists that correspond up to their ends -/

section Throughout

variable (htracks : Tracks T along) (hthrough : Through along)

include htracks hthrough

theorem along_tail {token token' : Token} {near far : List Token}
    (halong : along (token :: near) (token' :: far)) (hend : token.kind ≠ .endMark) : along near far := by
  rcases htracks _ _ halong with ⟨hnear, -⟩ | ⟨_, _, _, _, hnear, hfar, -, -, hbehind⟩
  · rw [next?_cons hend] at hnear
    cases hnear
  · obtain ⟨rfl, rfl⟩ := List.cons.inj hnear
    obtain ⟨rfl, rfl⟩ := List.cons.inj hfar
    exact along_behind hbehind (.inr hthrough) halong

omit htracks hthrough in
theorem next?_eq_none_iff {tokens : List Token} :
    next? tokens = none ↔ ∀ token ∈ tokens.head?, token.kind = .endMark := by
  cases tokens with
  | nil => simp [next?]
  | cons token rest => simp [next?]

theorem along_skip {near far : List Token} (halong : along near far) (previous : Kind) :
    along (skip previous near) (skip previous far) := by
  induction near generalizing far previous with
  | nil =>
      rcases htracks _ _ halong with ⟨-, hfar⟩ | ⟨_, _, _, _, hnear, -⟩
      · cases far with
        | nil => exact halong
        | cons token' far =>
            have hend := next?_eq_none_iff.mp hfar token' rfl
            rwa [skip, skip, if_pos (Or.inl hend)]
      · cases hnear
  | cons token near ih =>
      rcases htracks _ _ halong with ⟨hnear, hfar⟩ | ⟨token, token', near', far', hnear, rfl, hend, htwin, -⟩
      · have hend := next?_eq_none_iff.mp hnear token rfl
        rw [skip, if_pos (Or.inl hend)]
        cases far with
        | nil => exact halong
        | cons token' far =>
            have hend' := next?_eq_none_iff.mp hfar token' rfl
            rwa [skip, if_pos (Or.inl hend')]
      · obtain ⟨rfl, rfl⟩ := List.cons.inj hnear
        rw [skip, skip, htwin.kind]
        split
        · exact halong
        · exact ih (along_tail htracks hthrough halong hend) _

theorem along_recover {near far : List Token} (halong : along near far) :
    along (recover near) (recover far) := by
  rcases htracks _ _ halong with ⟨hnear, hfar⟩ | ⟨token, token', near', far', rfl, rfl, hend, htwin, -⟩
  · have hstays {tokens : List Token} (h : next? tokens = none) : recover tokens = tokens := by
      cases tokens with
      | nil => rfl
      | cons token rest => rw [recover, if_pos (next?_eq_none_iff.mp h token rfl)]
    rwa [hstays hnear, hstays hfar]
  · rw [recover, recover, htwin.kind, if_neg hend, if_neg hend]
    exact along_skip htracks hthrough (along_tail htracks hthrough halong hend) _

theorem simulates_recovering {V : α → α → Prop} {parser parser' : Parser α}
    (hparser : Simulates along along V parser parser') :
    Simulates along along (Option.Rel V) (recovering parser) (recovering parser') := by
  intro near far halong
  have hread := hparser near far halong
  unfold recovering
  cases hnear : parser near with
  | exhausted => trivial
  | done value unread reports =>
      cases hfar : parser' far with
      | exhausted => trivial
      | done value' unread' reports' =>
          rw [hnear, hfar] at hread
          exact ⟨.some hread.1, hread.2⟩
      | failed =>
          rw [hnear, hfar] at hread
          exact hread.elim
  | failed unread reports cause =>
      cases hfar : parser' far with
      | exhausted => trivial
      | done =>
          rw [hnear, hfar] at hread
          exact hread.elim
      | failed unread' reports' cause' =>
          rw [hnear, hfar] at hread
          obtain ⟨rfl, hplace, hreports⟩ := hread
          refine ⟨.none, along_recover htracks hthrough hplace, ?_⟩
          exact List.rel_append hreports (.cons ⟨rfl, hplace⟩ .nil)

section Parts

variable {expression expression' : Parser Expr} {statement statement' : Parser Stmt}
  {declaration declaration' : Parser (Option Stmt)}
  (hexpression : Simulates along along (Expr.Like T) expression expression')
  (hstatement : Simulates along along (Stmt.Like T) statement statement')
  (hdeclaration : Simulates along along (Option.Rel (Stmt.Like T)) declaration declaration')

omit hthrough in
include hexpression in
theorem simulates_condition (opening closing : Expected) :
    Simulates along along (Expr.Like T) (condition expression opening closing)
      (condition expression' opening closing) := by
  unfold condition
  refine simulates_bind (simulates_expect htracks (.inl (by decide)) _) fun _ _ _ => ?_
  refine simulates_bind hexpression fun tree tree' htree => ?_
  exact simulates_bind (simulates_expect htracks (.inl (by decide)) _) fun _ _ _ => simulates_pure htree

omit hthrough in
include hexpression hstatement in
theorem simulates_conditional : Simulates along along (Stmt.Like T)
    (conditional expression statement) (conditional expression' statement') := by
  unfold conditional
  refine simulates_bind (simulates_condition htracks hexpression _ _) fun _ _ hcondition => ?_
  refine simulates_bind hstatement fun _ _ hwhenTrue => ?_
  refine simulates_bind (simulates_accept htracks (.inl rfl)) fun mark mark' hmark => ?_
  cases hmark with
  | none => exact simulates_pure (.conditional hcondition hwhenTrue .none)
  | some =>
      exact simulates_bind hstatement fun _ _ hwhenFalse =>
        simulates_pure (.conditional hcondition hwhenTrue (.some hwhenFalse))

omit hthrough in
include hexpression hstatement in
theorem simulates_loop : Simulates along along (Stmt.Like T) (loop expression statement)
    (loop expression' statement') := by
  unfold loop
  refine simulates_bind (simulates_condition htracks hexpression _ _) fun _ _ hcondition => ?_
  exact simulates_bind hstatement fun _ _ hbody => simulates_pure (.loop hcondition hbody)

include hexpression in
theorem simulates_initializer : Simulates along along (Option.Rel (Stmt.Like T))
    (initializer expression) (initializer expression') := by
  have hstays {parser parser' : Parser Stmt}
      (h : Simulates along (past along) (Stmt.Like T) parser parser') :
      Simulates along along (Stmt.Like T) parser parser' :=
    h.mono hthrough fun _ _ => id
  unfold initializer
  refine simulates_bind (simulates_accept htracks (.inr hthrough)) fun mark mark' hmark => ?_
  cases hmark with
  | none =>
      exact simulates_bind (hstays (simulates_expressionStatement htracks hexpression)) fun _ _ htree =>
        simulates_pure (.some htree)
  | @some mark mark' hmark =>
      simp only [hmark.2.kind]
      by_cases hstop : mark.kind = .semicolon
      · rw [if_pos hstop, if_pos hstop]
        exact simulates_pure .none
      · rw [if_neg hstop, if_neg hstop]
        exact simulates_bind (hstays (simulates_varDeclaration htracks hexpression)) fun _ _ htree =>
          simulates_pure (.some htree)

include hexpression hstatement in
theorem simulates_forLoop : Simulates along along (Stmt.Like T) (forLoop expression statement)
    (forLoop expression' statement') := by
  unfold forLoop
  refine simulates_bind (simulates_expect htracks (.inl (by decide)) _) fun _ _ _ => ?_
  refine simulates_bind (simulates_initializer htracks hthrough hexpression) fun _ _ hinitializer => ?_
  refine simulates_bind (simulates_unlessSees htracks hexpression _) fun _ _ hcondition => ?_
  refine simulates_bind (simulates_expect htracks (.inr hthrough) _) fun _ _ _ => ?_
  refine simulates_bind (simulates_unlessSees htracks hexpression _) fun _ _ hincrement => ?_
  refine simulates_bind (simulates_expect htracks (.inl (by decide)) _) fun _ _ _ => ?_
  exact simulates_bind hstatement fun _ _ hbody =>
    simulates_pure (Stmt.like_forLoop hinitializer hcondition hincrement hbody)

omit hthrough in
theorem closes_eq_of_along {near far : List Token} (halong : along near far) :
    closes near = closes far := by
  rw [closes, closes, sees_eq_heads, sees_eq_heads, heads_eq_of_along htracks halong,
    atEnd_eq_of_along htracks halong]

omit htracks hthrough in
theorem simulates_collecting {β γ : Type} {U : β → β → Prop} {V : γ → γ → Prop}
    {S : Array γ → Array γ → Prop} {stop : List Token → Bool}
    (hstop : ∀ near far, along near far → stop near = stop far) (collect : β → Option γ)
    (hcollect : ∀ value value', U value value' → Option.Rel V (collect value) (collect value'))
    (hpush : ∀ read read' value value', S read read' → V value value' →
      S (read.push value) (read'.push value'))
    {parser parser' : Parser β} (hparser : Simulates along along U parser parser')
    {read read' : Array γ} (hread : S read read') :
    Simulates along along (Turn.Alike S) (collecting stop collect parser read)
      (collecting stop collect parser' read') := by
  intro near far halong
  unfold collecting
  rw [hstop near far halong]
  by_cases hlast : stop far = true
  · rw [if_pos hlast, if_pos hlast]
    exact ⟨.last hread, halong, .nil⟩
  · rw [if_neg hlast, if_neg hlast]
    refine simulates_map hparser (fun value value' hvalue => .again ?_) near far halong
    have hvalue := hcollect value value' hvalue
    generalize collect value = entry?, collect value' = entry?' at hvalue ⊢
    cases hvalue with
    | none => exact hread
    | some hvalue => exact hpush _ _ _ _ hread hvalue

omit hthrough in
include hdeclaration in
theorem simulates_block (turns turns' : Nat) :
    Simulates along along (List.Forall₂ (Stmt.Like T)) (block declaration turns)
      (block declaration' turns') := by
  unfold block
  rw [member_eq_collecting, member_eq_collecting]
  have hturn (read read' : Array Stmt) (hread : Entrywise (Stmt.Like T) read read') :=
    simulates_collecting (fun near far halong => closes_eq_of_along htracks halong) id (fun _ _ htree => htree)
      (fun _ _ _ _ hread htree => hread.push htree) hdeclaration hread
  have hempty : Entrywise (Stmt.Like T) #[] #[] := .nil
  refine simulates_bind (simulates_iterate hturn turns turns' hempty) fun read read' hread => ?_
  exact simulates_bind (simulates_expect htracks (.inl (by decide)) _) fun _ _ _ => simulates_pure hread

section Declarations

variable {block block' : Parser (List Stmt)}
  (hblock : Simulates along along (List.Forall₂ (Stmt.Like T)) block block')

include hblock

omit hthrough in
theorem simulates_function (role : Role) (turns turns' : Nat) :
    Simulates along along (Declaration.Like T) (function role block turns)
      (function role block' turns') := by
  unfold function
  have hparam : Simulates along along (T .name) (expect .identifier .parameterName)
      (expect .identifier .parameterName) :=
    (simulates_expect htracks (.inl (by decide)) _).mono (fun _ _ => id)
      fun _ _ hparam => hparam.2.matching .name hparam.1
  refine simulates_bind (simulates_expect htracks (.inl (by decide)) _) fun name name' hname => ?_
  refine simulates_bind (simulates_expect htracks (.inl (by decide)) _) fun _ _ _ => ?_
  refine simulates_bind (simulates_entries htracks hparam _ turns turns') fun _ _ hparams => ?_
  refine simulates_bind (simulates_expect htracks (.inl (by decide)) _) fun _ _ _ => ?_
  refine simulates_bind (simulates_expect htracks (.inl (by decide)) _) fun _ _ _ => ?_
  exact simulates_bind hblock fun _ _ hbody =>
    simulates_pure (.mk (hname.2.matching .name hname.1) hparams hbody)

omit hthrough in
theorem simulates_classDeclaration (turns turns' : Nat) :
    Simulates along along (Stmt.Like T) (classDeclaration block turns)
      (classDeclaration block' turns') := by
  unfold classDeclaration
  rw [method_eq_collecting, method_eq_collecting]
  have hmethod (read read' : Array Declaration) (hread : Entrywise (Declaration.Like T) read read') :=
    simulates_collecting (fun near far halong => closes_eq_of_along htracks halong) some
      (fun _ _ hmethod => .some hmethod) (fun _ _ _ _ hread hmethod => hread.push hmethod)
      (simulates_function htracks hblock .method turns turns') hread
  refine simulates_bind (simulates_expect htracks (.inl (by decide)) _) fun name name' hname => ?_
  refine simulates_bind (simulates_expect htracks (.inl (by decide)) _) fun _ _ _ => ?_
  have hempty : Entrywise (Declaration.Like T) #[] #[] := .nil
  refine simulates_bind (simulates_iterate hmethod turns turns' hempty) fun _ _ hmethods => ?_
  refine simulates_bind (simulates_expect htracks (.inl (by decide)) _) fun _ _ _ => ?_
  exact simulates_pure (.classDecl (hname.2.matching .name hname.1) hmethods)

include hexpression in
theorem simulates_declarationOf (turns turns' : Nat)
    (hstatement : Simulates along along (Stmt.Like T) statement statement') :
    Simulates along along (Stmt.Like T) (declarationOf expression statement block turns)
      (declarationOf expression' statement' block' turns') := by
  intro near far halong
  unfold declarationOf
  rcases htracks near far halong with ⟨hnear, hfar⟩ |
    ⟨token, token', near', far', rfl, rfl, hend, htwin, -⟩
  · rw [hnear, hfar]
    exact hstatement near far halong
  have hrest := along_tail htracks hthrough halong hend
  rw [next?_cons hend, next?_cons (htwin.kind ▸ hend)]
  simp only
  rw [htwin.kind]
  split
  · exact simulates_classDeclaration htracks hblock turns turns' _ _ hrest
  · exact simulates_map (simulates_function htracks hblock .function turns turns')
      (fun _ _ => .function) _ _ hrest
  · exact (simulates_varDeclaration htracks hexpression).mono hthrough (fun _ _ => id) _ _ hrest
  · exact hstatement _ _ halong

include hexpression hstatement in
theorem simulates_statementOf :
    Simulates along along (Stmt.Like T) (statementOf expression statement block)
      (statementOf expression' statement' block') := by
  have hsimple := (simulates_expressionStatement htracks hexpression).mono hthrough fun _ _ => id
  intro near far halong
  unfold statementOf
  rcases htracks near far halong with ⟨hnear, hfar⟩ |
    ⟨token, token', near', far', rfl, rfl, hend, htwin, -⟩
  · rw [hnear, hfar]
    exact hsimple near far halong
  have hrest := along_tail htracks hthrough halong hend
  rw [next?_cons hend, next?_cons (htwin.kind ▸ hend)]
  simp only
  rw [htwin.kind]
  split
  · exact simulates_conditional htracks hexpression hstatement _ _ hrest
  · exact simulates_loop htracks hexpression hstatement _ _ hrest
  · exact simulates_forLoop htracks hthrough hexpression hstatement _ _ hrest
  · exact (simulates_print htracks hexpression).mono hthrough (fun _ _ => id) _ _ hrest
  · exact (simulates_returned htracks hexpression (htwin.matching .mark trivial)).mono hthrough
      (fun _ _ => id) _ _ hrest
  · exact simulates_map hblock (fun _ _ => .block) _ _ hrest
  · exact hsimple _ _ halong

end Declarations

end Parts

theorem simulates_statement_declaration (level level' : Nat) :
    Simulates along along (Stmt.Like T) (statement level) (statement level') ∧
      Simulates along along (Option.Rel (Stmt.Like T)) (declaration level) (declaration level') := by
  induction level generalizing level' with
  | zero => exact ⟨simulates_exhausted_left _, simulates_exhausted_left _⟩
  | succ level ih =>
      cases level' with
      | zero => exact ⟨simulates_exhausted_right _, simulates_exhausted_right _⟩
      | succ level' =>
          obtain ⟨hstatement, hdeclaration⟩ := ih level'
          have hexpression := simulates_expression htracks level level'
          have hblock := simulates_block htracks hdeclaration level level'
          refine ⟨simulates_statementOf htracks hthrough hexpression hstatement hblock, ?_⟩
          exact simulates_recovering htracks hthrough
            (simulates_declarationOf htracks hthrough hexpression hblock level level' hstatement)

/-- The loop over the declarations of a program, in states that stay related as it adds to them. -/
theorem simulates_topLevel {S : Array Stmt → Array Stmt → Prop}
    (hpush : ∀ read read' tree tree', S read read' → Stmt.Like T tree tree' →
      S (read.push tree) (read'.push tree'))
    (level level' turns turns' : Nat) {read read' : Array Stmt} (hread : S read read') :
    Simulates along along S (iterate (topLevel (declaration level)) turns read)
      (iterate (topLevel (declaration level')) turns' read') := by
  rw [topLevel_eq_collecting, topLevel_eq_collecting]
  refine simulates_iterate (fun read read' hread => ?_) turns turns' hread
  exact simulates_collecting (fun near far halong => atEnd_eq_of_along htracks halong) id
    (fun _ _ htree => htree) hpush
    (simulates_statement_declaration htracks hthrough level level').2 hread

theorem simulates_program (level level' : Nat) :
    Simulates along along (List.Forall₂ (Stmt.Like T)) (program level) (program level') := by
  have hempty : Entrywise (Stmt.Like T) #[] #[] := .nil
  have hloop := simulates_topLevel htracks hthrough (fun _ _ _ _ hread htree => hread.push htree) level level'
    level level' hempty
  exact simulates_bind hloop fun _ _ hread => simulates_pure hread

end Throughout

end Parser

end Script
