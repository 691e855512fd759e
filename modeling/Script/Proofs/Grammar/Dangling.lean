import Script.Proofs.Grammar

/-!
# The dangling `else`

Whatever can be derived when an `else` may belong to any `if` can also be derived when it belongs to
the nearest: the rule picks a tree and rejects nothing. An `else` after a phrase is either the business
of what stands around it, because the phrase is closed, or can be taken by some `if` within.
-/

namespace Script.Grammar

namespace StmtSymbol

/-- The same symbol, for phrases that need not be closed. -/
def opened : StmtSymbol → StmtSymbol
  | .statement _ => .statement true
  | .forTail _ => .forTail true
  | symbol => symbol

/-- The same symbol, for phrases that are closed. -/
def closed : StmtSymbol → StmtSymbol
  | .statement _ => .statement false
  | .forTail _ => .forTail false
  | symbol => symbol

end StmtSymbol

theorem Statement.closed_or_takes_else {symbol : StmtSymbol} {read : List Token} {tree : Stmt}
    (h : Statement .nearest symbol read tree) (otherwise : Word .elseWord) {second : List Token}
    {whenFalse : Stmt} (hfalse : Statement .nearest (.statement true) second whenFalse) :
    Statement .nearest symbol.closed read tree ∨
      ∃ longer, Statement .nearest symbol (read ++ otherwise.1 :: second) longer := by
  induction h with
  | classDecl keyword name opening methods hmethods closing =>
      exact Or.inl (.classDecl keyword name opening methods hmethods closing)
  | functionDecl keyword hfunction => exact Or.inl (.functionDecl keyword hfunction)
  | varDecl hvar => exact Or.inl (.varDecl hvar)
  | statement hstatement => exact Or.inl (.statement hstatement)
  | function name opening params hmost hread closing hblock =>
      exact Or.inl (.function name opening params hmost hread closing hblock)
  | block opening items hitems closing => exact Or.inl (.block opening items hitems closing)
  | nested hblock => exact Or.inl (.nested hblock)
  | ifOnly keyword opening hcondition closing htrue ih =>
      apply Or.inr
      simp only [List.cons_append, List.append_assoc]
      rcases ih with hclosed | ⟨longer, hlonger⟩
      · exact ⟨_, .ifElse keyword opening hcondition closing hclosed otherwise hfalse⟩
      · exact ⟨_, .ifOnly keyword opening hcondition closing hlonger⟩
  | ifElse keyword opening hcondition closing htrue inner hinner _ ih =>
      rcases ih with hclosed | ⟨longer, hlonger⟩
      · exact Or.inl (.ifElse keyword opening hcondition closing htrue inner hclosed)
      · apply Or.inr
        simp only [List.cons_append, List.append_assoc]
        exact ⟨_, .ifElse keyword opening hcondition closing htrue inner hlonger⟩
  | whileLoop keyword opening hcondition closing _ ih =>
      rcases ih with hclosed | ⟨longer, hlonger⟩
      · exact Or.inl (.whileLoop keyword opening hcondition closing hclosed)
      · apply Or.inr
        simp only [List.cons_append, List.append_assoc]
        exact ⟨_, .whileLoop keyword opening hcondition closing hlonger⟩
  | forOnly keyword opening stop _ ih =>
      rcases ih with hclosed | ⟨longer, hlonger⟩
      · exact Or.inl (.forOnly keyword opening stop hclosed)
      · exact Or.inr ⟨_, .forOnly keyword opening stop hlonger⟩
  | forFrom keyword opening hfirst _ ih =>
      rcases ih with hclosed | ⟨longer, hlonger⟩
      · exact Or.inl (.forFrom keyword opening hfirst hclosed)
      · apply Or.inr
        simp only [List.cons_append, List.append_assoc]
        exact ⟨_, .forFrom keyword opening hfirst hlonger⟩
  | forTail hcondition stop closing _ ih =>
      rcases ih with hclosed | ⟨longer, hlonger⟩
      · exact Or.inl (.forTail hcondition stop closing hclosed)
      · apply Or.inr
        simp only [List.cons_append, List.append_assoc]
        exact ⟨_, .forTail hcondition stop closing hlonger⟩
  | forTailStep hcondition stop hincrement closing _ ih =>
      rcases ih with hclosed | ⟨longer, hlonger⟩
      · exact Or.inl (.forTailStep hcondition stop hincrement closing hclosed)
      · apply Or.inr
        simp only [List.cons_append, List.append_assoc]
        exact ⟨_, .forTailStep hcondition stop hincrement closing hlonger⟩
  | print keyword htree stop => exact Or.inl (.print keyword htree stop)
  | «return» keyword hvalue stop => exact Or.inl (.return keyword hvalue stop)
  | expression htree => exact Or.inl (.expression htree)

/-- Other trees for the phrases of a row leave its tokens as they are. -/
theorem exists_row {α β : Type} (phrase : List Token → β → Prop) {items : List (List Token × α)}
    (hitems : ∀ item ∈ items, ∃ tree, phrase item.1 tree) :
    ∃ row : List (List Token × β), (∀ item ∈ row, phrase item.1 item.2) ∧
      row.flatMap Prod.fst = items.flatMap Prod.fst := by
  induction items with
  | nil => exact ⟨[], by simp, rfl⟩
  | cons item items ih =>
      rw [List.forall_mem_cons] at hitems
      obtain ⟨⟨tree, htree⟩, hrest⟩ := hitems
      obtain ⟨row, hrow, htokens⟩ := ih hrest
      refine ⟨(item.1, tree) :: row, ?_, by rw [List.flatMap_cons, List.flatMap_cons, htokens]⟩
      rw [List.forall_mem_cons]
      exact ⟨htree, hrow⟩

theorem Statement.exists_function {rule : ElseRule} {read : List Token} {tree : Stmt}
    (h : Statement rule .function read tree) :
    ∃ declaration, Statement rule .function read (.function declaration) := by
  cases h with
  | function name opening params hmost hread closing hblock =>
      exact ⟨_, .function name opening params hmost hread closing hblock⟩

theorem Statement.exists_block {rule : ElseRule} {read : List Token} {tree : Stmt}
    (h : Statement rule .block read tree) : ∃ body, Statement rule .block read (.block body) := by
  cases h with
  | block opening items hitems closing => exact ⟨_, .block opening items hitems closing⟩

theorem Statement.exists_nearest {symbol : StmtSymbol} {read : List Token} {tree : Stmt}
    (h : Statement .any symbol read tree) : ∃ tree, Statement .nearest symbol.opened read tree := by
  induction h with
  | classDecl keyword name opening methods _ closing ih =>
      obtain ⟨row, hrow, htokens⟩ := exists_row
        (fun read declaration => Statement .nearest .function read (.function declaration))
        fun method hmethod => (ih method hmethod).elim fun _ htree => htree.exists_function
      rw [← htokens]
      exact ⟨_, .classDecl keyword name opening row hrow closing⟩
  | functionDecl keyword _ ih =>
      obtain ⟨function, hfunction⟩ := ih
      exact ⟨_, .functionDecl keyword hfunction⟩
  | varDecl hvar => exact ⟨_, .varDecl hvar⟩
  | statement _ ih =>
      obtain ⟨tree, htree⟩ := ih
      exact ⟨tree, .statement htree⟩
  | function name opening params hmost hread closing _ ih =>
      obtain ⟨tree, htree⟩ := ih
      obtain ⟨body, hbody⟩ := htree.exists_block
      exact ⟨_, .function name opening params hmost hread closing hbody⟩
  | block opening items _ closing ih =>
      obtain ⟨row, hrow, htokens⟩ := exists_row (Statement .nearest .declaration) ih
      rw [← htokens]
      exact ⟨_, .block opening row hrow closing⟩
  | nested _ ih =>
      obtain ⟨tree, htree⟩ := ih
      exact ⟨tree, .nested htree⟩
  | ifOnly keyword opening hcondition closing _ ih =>
      obtain ⟨tree, htree⟩ := ih
      exact ⟨_, .ifOnly keyword opening hcondition closing htree⟩
  | ifElse keyword opening hcondition closing _ otherwise _ ihtrue ihfalse =>
      obtain ⟨whenTrue, htrue⟩ := ihtrue
      obtain ⟨whenFalse, hfalse⟩ := ihfalse
      -- The `else` stays with this `if` only if nothing before it can take it.
      rcases htrue.closed_or_takes_else otherwise hfalse with hclosed | ⟨longer, hlonger⟩
      · exact ⟨_, .ifElse keyword opening hcondition closing hclosed otherwise hfalse⟩
      · exact ⟨_, .ifOnly keyword opening hcondition closing hlonger⟩
  | whileLoop keyword opening hcondition closing _ ih =>
      obtain ⟨body, hbody⟩ := ih
      exact ⟨_, .whileLoop keyword opening hcondition closing hbody⟩
  | forOnly keyword opening stop _ ih =>
      obtain ⟨loop, hloop⟩ := ih
      exact ⟨_, .forOnly keyword opening stop hloop⟩
  | forFrom keyword opening hfirst _ ih =>
      obtain ⟨loop, hloop⟩ := ih
      exact ⟨_, .forFrom keyword opening hfirst hloop⟩
  | forTail hcondition stop closing _ ih =>
      obtain ⟨body, hbody⟩ := ih
      exact ⟨_, .forTail hcondition stop closing hbody⟩
  | forTailStep hcondition stop hincrement closing _ ih =>
      obtain ⟨body, hbody⟩ := ih
      exact ⟨_, .forTailStep hcondition stop hincrement closing hbody⟩
  | print keyword htree stop => exact ⟨_, .print keyword htree stop⟩
  | «return» keyword hvalue stop => exact ⟨_, .return keyword hvalue stop⟩
  | expression htree => exact ⟨_, .expression htree⟩

theorem Program.exists_nearest {read : List Token} {tree : List Stmt}
    (h : Program .any read tree) : ∃ tree, Program .nearest read tree := by
  obtain ⟨items, hitems, rfl, -⟩ := h
  obtain ⟨row, hrow, htokens⟩ := exists_row (Statement .nearest .declaration)
    fun item hitem => (hitems item hitem).exists_nearest
  exact ⟨_, row, hrow, htokens.symm, rfl⟩

end Script.Grammar
