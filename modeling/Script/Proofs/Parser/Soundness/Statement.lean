import Script.Proofs.Parser.Soundness.Expression

/-!
# Readings of statements

As for expressions. That an `else` goes to the nearest `if` shows in what a statement leaves unread:
one that could still take an `else` never leaves one behind.
-/

namespace Script.Parser

open Grammar

variable {α β : Type} {rule : ElseRule}

theorem readsOnly_collecting {stop : List Token → Bool} {collect : α → Option β} {parser : Parser α}
    {phrase : List Token → β → Prop}
    (hparser : ReadsOnly parser fun read value => ∃ item, collect value = some item ∧ phrase read item)
    {turns : Nat} {before final : Array β} {tokens unread : List Token}
    (h : iterate (collecting stop collect parser) turns before tokens = .done final unread []) :
    ∃ items : List (List Token × β), tokens = items.flatMap Prod.fst ++ unread ∧
      (∀ item ∈ items, phrase item.1 item.2) ∧
        final.toList = before.toList ++ items.map Prod.snd ∧ stop unread = true := by
  induction turns generalizing before tokens with
  | zero => exact absurd h not_reading_iterate_zero
  | succ turns ih =>
      rcases reading_iterate_succ_iff.mp h with hlast | ⟨next, rest, hturn, hnext⟩
      · obtain ⟨hstop, rfl, rfl⟩ := reading_collecting_last_iff.mp hlast
        exact ⟨[], rfl, by simp, by simp, hstop⟩
      · obtain ⟨-, value, hvalue, hread⟩ := reading_collecting_again_iff.mp hturn
        obtain ⟨read, rfl, item, hitem, hphrase⟩ := hparser _ _ _ hvalue
        obtain ⟨items, rfl, hitems, hfinal, hstop⟩ := ih hnext
        refine ⟨(read, item) :: items, by simp, ?_, ?_, hstop⟩
        · rw [List.forall_mem_cons]
          exact ⟨hphrase, hitems⟩
        · rw [hfinal, ← hread, hitem]
          simp

theorem reading_recovering_iff {parser : Parser α} {value : Option α} {tokens unread : List Token} :
    recovering parser tokens = .done value unread [] ↔
      ∃ tree, value = some tree ∧ parser tokens = .done tree unread [] := by
  unfold recovering
  cases parser tokens with
  | done | exhausted => grind
  | failed unread reports cause => simp

/-! ### Parts of statements -/

/-- A condition in parentheses. -/
def Condition (read : List Token) (tree : Expr) : Prop :=
  ∃ (opening : Word .leftParen) (test : List Token) (closing : Word .rightParen),
    read = opening.1 :: (test ++ [closing.1]) ∧ Expression .expression test tree

/-- A block from its opening brace on. -/
def BlockTail (rule : ElseRule) (read : List Token) (statements : List Stmt) : Prop :=
  ∃ (items : List (List Token × Stmt)) (closing : Word .rightBrace),
    (∀ item ∈ items, Statement rule .declaration item.1 item.2) ∧
      read = items.flatMap Prod.fst ++ [closing.1] ∧ statements = items.map Prod.snd

theorem BlockTail.block {read : List Token} {statements : List Stmt}
    (h : BlockTail rule read statements) (opening : Word .leftBrace) :
    Statement rule .block (opening.1 :: read) (.block statements) := by
  obtain ⟨items, closing, hitems, rfl, rfl⟩ := h
  exact .block opening items hitems closing

section Expression

variable {expression : Parser Expr} (hexpression : ReadsOnly expression (Expression .expression))

include hexpression

theorem readsOnly_condition (opening closing : Expected) :
    ReadsOnly (condition expression opening closing) Condition := by
  intro tokens tree unread h
  unfold condition at h
  simp only [reading_bind_iff, reading_pure_iff, reading_expect_iff] at h
  obtain ⟨first, rest, ⟨rfl, hfirst, -⟩, test, rest₁, htest, last, rest₂, ⟨rfl, hlast, -⟩, rfl, rfl⟩ := h
  obtain ⟨read, rfl, hphrase⟩ := hexpression _ _ _ htest
  exact ⟨first :: (read ++ [last]), by simp, ⟨first, hfirst⟩, read, ⟨last, hlast⟩, rfl, hphrase⟩

theorem readsOnly_expressionStatement :
    ReadsOnly (expressionStatement expression) ExpressionStatement := by
  intro tokens tree unread h
  unfold expressionStatement at h
  simp only [reading_bind_iff, reading_pure_iff, reading_expect_iff] at h
  obtain ⟨value, rest, hvalue, stop, rest₁, ⟨rfl, hstop, -⟩, rfl, rfl⟩ := h
  obtain ⟨read, rfl, hphrase⟩ := hexpression _ _ _ hvalue
  exact ⟨read ++ [stop], by simp, .mk hphrase ⟨stop, hstop⟩⟩

theorem readsOnly_varDeclaration :
    ReadsOnly (varDeclaration expression) fun read tree =>
      ∀ keyword : Word .varWord, VarDeclaration (keyword.1 :: read) tree := by
  intro tokens tree unread h
  unfold varDeclaration at h
  simp only [reading_bind_iff, reading_expect_iff] at h
  obtain ⟨name, rest, ⟨rfl, hname, -⟩, mark, rest₁, hmark, h⟩ := h
  cases mark with
  | some equals =>
      obtain ⟨rfl, hequals, -⟩ := reading_accept_some_iff.mp hmark
      simp only [reading_bind_iff, reading_pure_iff, reading_expect_iff] at h
      obtain ⟨value, rest₂, hvalue, stop, rest₃, ⟨rfl, hstop, -⟩, rfl, rfl⟩ := h
      obtain ⟨read, rfl, hphrase⟩ := hexpression _ _ _ hvalue
      have hequal : equals.kind = .equal := by simpa using hequals
      refine ⟨name :: equals :: (read ++ [stop]), by simp, fun keyword => ?_⟩
      exact .initialized keyword ⟨name, hname⟩ ⟨equals, hequal⟩ hphrase ⟨stop, hstop⟩
  | none =>
      obtain ⟨rfl, -⟩ := reading_accept_none_iff.mp hmark
      simp only [reading_bind_iff, reading_pure_iff, reading_expect_iff] at h
      obtain ⟨stop, rest₂, ⟨rfl, hstop, -⟩, rfl, rfl⟩ := h
      exact ⟨[name, stop], rfl, fun keyword => .plain keyword ⟨name, hname⟩ ⟨stop, hstop⟩⟩

theorem readsOnly_unlessSees (kind : Kind) : ReadsOnly (unlessSees kind expression) Optional := by
  intro tokens value unread h
  rcases reading_unlessSees_iff.mp h with ⟨rfl, rfl, -⟩ | ⟨tree, rfl, -, htree⟩
  · exact ⟨[], rfl, .none⟩
  · obtain ⟨read, rfl, hphrase⟩ := hexpression _ _ _ htree
    exact ⟨read, rfl, .some hphrase⟩

theorem readsOnly_initializer :
    ReadsOnly (initializer expression) fun read value =>
      (value = none ∧ ∃ stop : Word .semicolon, read = [stop.1]) ∨
        ∃ tree, value = some tree ∧ (VarDeclaration read tree ∨ ExpressionStatement read tree) := by
  intro tokens value unread h
  unfold initializer at h
  rw [reading_bind_iff] at h
  obtain ⟨mark, rest, hmark, h⟩ := h
  cases mark with
  | none =>
      obtain ⟨rfl, -⟩ := reading_accept_none_iff.mp hmark
      simp only [reading_bind_iff, reading_pure_iff] at h
      obtain ⟨tree, rest₁, htree, rfl, rfl⟩ := h
      obtain ⟨read, rfl, hphrase⟩ := readsOnly_expressionStatement hexpression _ _ _ htree
      exact ⟨read, rfl, Or.inr ⟨tree, rfl, Or.inr hphrase⟩⟩
  | some mark =>
      obtain ⟨rfl, hkind, -⟩ := reading_accept_some_iff.mp hmark
      simp only at h
      split at h
      · next hstop =>
          obtain ⟨rfl, rfl⟩ := reading_pure_iff.mp h
          exact ⟨[mark], rfl, Or.inl ⟨rfl, ⟨mark, hstop⟩, rfl⟩⟩
      · next hstop =>
          simp only [reading_bind_iff, reading_pure_iff] at h
          obtain ⟨tree, rest₁, htree, rfl, rfl⟩ := h
          obtain ⟨read, rfl, hphrase⟩ := readsOnly_varDeclaration hexpression _ _ _ htree
          have hvar : mark.kind = .varWord := by simpa [hstop] using hkind
          exact ⟨mark :: read, rfl, Or.inr ⟨tree, rfl, Or.inl (hphrase ⟨mark, hvar⟩)⟩⟩

end Expression

/-! ### Statements -/

/-- What the parser reads is, after the tokens `before`, a statement. It may lack an `else` unless an
`else` is left unread. -/
def ReadsStatement (rule : ElseRule) (before : List Token) (parser : Parser Stmt) : Prop :=
  ∀ tokens tree unread, parser tokens = .done tree unread [] →
    ∃ read, tokens = read ++ unread ∧
      ∀ mayDangle, mayDangle = true ∨ sees .elseWord unread = true →
        Statement rule (.statement mayDangle) (before ++ read) tree

section Parts

variable {expression : Parser Expr} (hexpression : ReadsOnly expression (Expression .expression))
  {statement : Parser Stmt} (hstatement : ReadsStatement rule [] statement)

include hexpression hstatement

theorem readsStatement_conditional (keyword : Word .ifWord) :
    ReadsStatement rule [keyword.1] (conditional expression statement) := by
  intro tokens tree unread h
  unfold conditional at h
  simp only [reading_bind_iff] at h
  obtain ⟨test, rest, htest, whenTrue, rest₁, htrue, mark, rest₂, hmark, h⟩ := h
  obtain ⟨read, rfl, opening, condition, closing, rfl, hcondition⟩ :=
    readsOnly_condition hexpression _ _ _ _ _ htest
  obtain ⟨first, rfl, hfirst⟩ := hstatement _ _ _ htrue
  cases mark with
  | none =>
      obtain ⟨rfl, helse⟩ := reading_accept_none_iff.mp hmark
      obtain ⟨rfl, rfl⟩ := reading_pure_iff.mp h
      refine ⟨opening.1 :: (condition ++ closing.1 :: first), by simp, fun mayDangle hdangle => ?_⟩
      rcases hdangle with rfl | hsees
      · exact .ifOnly keyword opening hcondition closing (hfirst true (Or.inl rfl))
      · rw [sees_eq_heads, helse] at hsees
        cases hsees
  | some otherwise =>
      obtain ⟨rfl, hkind, -⟩ := reading_accept_some_iff.mp hmark
      simp only [reading_bind_iff, reading_pure_iff] at h
      obtain ⟨whenFalse, rest₃, hfalse, rfl, rfl⟩ := h
      obtain ⟨second, rfl, hsecond⟩ := hstatement _ _ _ hfalse
      have helse : otherwise.kind = .elseWord := by simpa using hkind
      refine ⟨opening.1 :: (condition ++ closing.1 :: (first ++ otherwise :: second)), by simp,
        fun mayDangle hdangle => ?_⟩
      have hbefore := hfirst rule.mayDangle (Or.inr (sees_of_kind helse (by decide) _))
      exact .ifElse keyword opening hcondition closing hbefore ⟨otherwise, helse⟩
        (hsecond mayDangle hdangle)

theorem readsStatement_loop (keyword : Word .whileWord) :
    ReadsStatement rule [keyword.1] (loop expression statement) := by
  intro tokens tree unread h
  unfold loop at h
  simp only [reading_bind_iff, reading_pure_iff] at h
  obtain ⟨test, rest, htest, body, rest₁, hbody, rfl, rfl⟩ := h
  obtain ⟨read, rfl, opening, condition, closing, rfl, hcondition⟩ :=
    readsOnly_condition hexpression _ _ _ _ _ htest
  obtain ⟨first, rfl, hfirst⟩ := hstatement _ _ _ hbody
  exact ⟨opening.1 :: (condition ++ closing.1 :: first), by simp, fun mayDangle hdangle =>
    .whileLoop keyword opening hcondition closing (hfirst mayDangle hdangle)⟩

theorem readsStatement_forLoop (keyword : Word .forWord) :
    ReadsStatement rule [keyword.1] (forLoop expression statement) := by
  intro tokens tree unread h
  unfold forLoop at h
  simp only [reading_bind_iff, reading_pure_iff, reading_expect_iff] at h
  obtain ⟨opening, rest, ⟨rfl, hopening, -⟩, initializer, rest₁, hinitializer, test, rest₂, htest,
    stop, rest₃, ⟨rfl, hstop, -⟩, step, rest₄, hstep, closing, rest₅, ⟨rfl, hclosing, -⟩, body, rest₆,
    hbody, rfl, rfl⟩ := h
  obtain ⟨first, rfl, hfirst⟩ := readsOnly_initializer hexpression _ _ _ hinitializer
  obtain ⟨second, rfl, hcondition⟩ := readsOnly_unlessSees hexpression _ _ _ _ htest
  obtain ⟨third, rfl, hincrement⟩ := readsOnly_unlessSees hexpression _ _ _ _ hstep
  obtain ⟨last, rfl, hlast⟩ := hstatement _ _ _ hbody
  refine ⟨opening :: (first ++ (second ++ stop :: (third ++ closing :: last))), by simp,
    fun mayDangle hdangle => ?_⟩
  have htail : Statement rule (.forTail mayDangle) (second ++ stop :: (third ++ closing :: last))
      (.loop (test.getD (.literal (.bool true))) (body.withIncrement step)) := by
    cases hincrement with
    | none => exact .forTail hcondition ⟨stop, hstop⟩ ⟨closing, hclosing⟩ (hlast mayDangle hdangle)
    | some hphrase =>
        exact .forTailStep hcondition ⟨stop, hstop⟩ hphrase ⟨closing, hclosing⟩
          (hlast mayDangle hdangle)
  rcases hfirst with ⟨rfl, stop, rfl⟩ | ⟨tree, rfl, htree⟩
  · exact .forOnly keyword ⟨opening, hopening⟩ stop htail
  · exact .forFrom keyword ⟨opening, hopening⟩ htree htail

omit hstatement in
theorem readsStatement_print (keyword : Word .printWord) :
    ReadsStatement rule [keyword.1] (print expression) := by
  intro tokens tree unread h
  unfold print at h
  simp only [reading_bind_iff, reading_pure_iff, reading_expect_iff] at h
  obtain ⟨value, rest, hvalue, stop, rest₁, ⟨rfl, hstop, -⟩, rfl, rfl⟩ := h
  obtain ⟨read, rfl, hphrase⟩ := hexpression _ _ _ hvalue
  exact ⟨read ++ [stop], by simp, fun _ _ => .print keyword hphrase ⟨stop, hstop⟩⟩

omit hstatement in
theorem readsStatement_returned (keyword : Word .returnWord) :
    ReadsStatement rule [keyword.1] (returned expression keyword) := by
  intro tokens tree unread h
  unfold returned at h
  simp only [reading_bind_iff, reading_pure_iff, reading_expect_iff] at h
  obtain ⟨value, rest, hvalue, stop, rest₁, ⟨rfl, hstop, -⟩, rfl, rfl⟩ := h
  obtain ⟨read, rfl, hphrase⟩ := readsOnly_unlessSees hexpression _ _ _ _ hvalue
  exact ⟨read ++ [stop], by simp, fun _ _ => .return keyword hphrase ⟨stop, hstop⟩⟩

omit hstatement in
theorem readsStatement_expressionStatement :
    ReadsStatement rule [] (expressionStatement expression) := by
  intro tokens tree unread h
  obtain ⟨read, rfl, hphrase⟩ := readsOnly_expressionStatement hexpression _ _ _ h
  exact ⟨read, rfl, fun _ _ => .expression hphrase⟩

theorem readsStatement_statementOf {block : Parser (List Stmt)}
    (hblock : ReadsOnly block (BlockTail rule)) :
    ReadsStatement rule [] (statementOf expression statement block) := by
  intro tokens tree unread h
  unfold statementOf at h
  split at h
  · exact readsStatement_expressionStatement hexpression _ _ _ h
  · next token rest hnext =>
      obtain ⟨rfl, -⟩ := next?_eq_some_iff.mp hnext
      split at h
      case h_1 hkind =>
        obtain ⟨read, rfl, hread⟩ :=
          readsStatement_conditional hexpression hstatement ⟨token, hkind⟩ _ _ _ h
        exact ⟨token :: read, rfl, hread⟩
      case h_2 hkind =>
        obtain ⟨read, rfl, hread⟩ := readsStatement_loop hexpression hstatement ⟨token, hkind⟩ _ _ _ h
        exact ⟨token :: read, rfl, hread⟩
      case h_3 hkind =>
        obtain ⟨read, rfl, hread⟩ :=
          readsStatement_forLoop hexpression hstatement ⟨token, hkind⟩ _ _ _ h
        exact ⟨token :: read, rfl, hread⟩
      case h_4 hkind =>
        obtain ⟨read, rfl, hread⟩ := readsStatement_print hexpression ⟨token, hkind⟩ _ _ _ h
        exact ⟨token :: read, rfl, hread⟩
      case h_5 hkind =>
        obtain ⟨read, rfl, hread⟩ := readsStatement_returned hexpression ⟨token, hkind⟩ _ _ _ h
        exact ⟨token :: read, rfl, hread⟩
      case h_6 hkind =>
        obtain ⟨statements, hstatements, rfl⟩ := reading_map_iff.mp h
        obtain ⟨read, rfl, hread⟩ := hblock _ _ _ hstatements
        exact ⟨token :: read, rfl, fun _ _ => .nested (hread.block ⟨token, hkind⟩)⟩
      case h_7 => exact readsStatement_expressionStatement hexpression _ _ _ h

end Parts

/-! ### Declarations -/

/-- Either nothing at all, or a declaration. -/
def ReadsDeclaration (rule : ElseRule) (parser : Parser (Option Stmt)) : Prop :=
  ReadsOnly parser fun read value =>
    ∃ tree, value = some tree ∧ Statement rule .declaration read tree

theorem readsOnly_block {declaration : Parser (Option Stmt)}
    (hdeclaration : ReadsDeclaration rule declaration) (turns : Nat) :
    ReadsOnly (block declaration turns) (BlockTail rule) := by
  intro tokens statements unread h
  unfold block at h
  simp only [member_eq_collecting, reading_bind_iff, reading_pure_iff, reading_expect_iff] at h
  obtain ⟨final, rest, hfinal, closing, rest₁, ⟨rfl, hclosing, -⟩, rfl, rfl⟩ := h
  obtain ⟨items, rfl, hitems, hvalues, -⟩ := readsOnly_collecting hdeclaration hfinal
  refine ⟨items.flatMap Prod.fst ++ [closing], by simp, items, ⟨closing, hclosing⟩, hitems, rfl, ?_⟩
  simpa using hvalues

theorem Listed.exists_words {kind : Kind} {read values : List Token}
    (h : Listed (fun read token => ∃ word : Word kind, read = [word.1] ∧ token = word.1) read values) :
    ∃ words : List (Word kind), values = words.map Subtype.val ∧ words.length ≤ Entries.most ∧
      Separated (words.map fun word => [word.1]) read := by
  obtain ⟨items, rfl, hitems, hmost, hread⟩ := h
  have hwords : ∃ words : List (Word kind), items = words.map fun word => ([word.1], word.1) := by
    clear hmost hread
    induction items with
    | nil => exact ⟨[], rfl⟩
    | cons item items ih =>
        rw [List.forall_mem_cons] at hitems
        obtain ⟨⟨word, hfirst, hsecond⟩, hrest⟩ := hitems
        obtain ⟨words, rfl⟩ := ih hrest
        exact ⟨word :: words, by rw [List.map_cons, ← hfirst, ← hsecond]⟩
  obtain ⟨words, rfl⟩ := hwords
  rw [List.map_map] at hread ⊢
  exact ⟨words, rfl, by simpa using hmost, hread⟩

theorem readsOnly_function {block : Parser (List Stmt)} (hblock : ReadsOnly block (BlockTail rule))
    (role : Role) (turns : Nat) :
    ReadsOnly (function role block turns) fun read declaration =>
      Statement rule .function read (.function declaration) := by
  intro tokens declaration unread h
  unfold function at h
  simp only [reading_bind_iff, reading_pure_iff, reading_expect_iff] at h
  obtain ⟨name, rest, ⟨rfl, hname, -⟩, opening, rest₁, ⟨rfl, hopening, -⟩, values, rest₂, hvalues,
    closing, rest₃, ⟨rfl, hclosing, -⟩, brace, rest₄, ⟨rfl, hbrace, -⟩, body, rest₅, hbody, rfl, rfl⟩ := h
  obtain ⟨list, rfl, hlist⟩ := readsOnly_entries (readsOnly_expect _ _) _ _ _ _ hvalues
  obtain ⟨params, rfl, hmost, hread⟩ := hlist.exists_words
  obtain ⟨read, rfl, hblock⟩ := hblock _ _ _ hbody
  exact ⟨name :: opening :: (list ++ closing :: brace :: read), by simp,
    .function ⟨name, hname⟩ ⟨opening, hopening⟩ params hmost hread ⟨closing, hclosing⟩
      (hblock.block ⟨brace, hbrace⟩)⟩

theorem readsOnly_classDeclaration {block : Parser (List Stmt)}
    (hblock : ReadsOnly block (BlockTail rule)) (turns : Nat) :
    ReadsOnly (classDeclaration block turns) fun read tree =>
      ∀ keyword : Word .classWord, Statement rule .declaration (keyword.1 :: read) tree := by
  intro tokens tree unread h
  unfold classDeclaration at h
  simp only [method_eq_collecting, reading_bind_iff, reading_pure_iff, reading_expect_iff] at h
  obtain ⟨name, rest, ⟨rfl, hname, -⟩, opening, rest₁, ⟨rfl, hopening, -⟩, final, rest₂, hfinal,
    closing, rest₃, ⟨rfl, hclosing, -⟩, rfl, rfl⟩ := h
  have hmethod : ReadsOnly (function .method block turns) fun read value =>
      ∃ item, some value = some item ∧ Statement rule .function read (.function item) := by
    intro tokens value unread hvalue
    obtain ⟨read, rfl, hread⟩ := readsOnly_function hblock .method turns _ _ _ hvalue
    exact ⟨read, rfl, value, rfl, hread⟩
  obtain ⟨methods, rfl, hmethods, hvalues, -⟩ := readsOnly_collecting hmethod hfinal
  refine ⟨name :: opening :: (methods.flatMap Prod.fst ++ [closing]), by simp, fun keyword => ?_⟩
  rw [hvalues]
  exact .classDecl keyword ⟨name, hname⟩ ⟨opening, hopening⟩ methods hmethods ⟨closing, hclosing⟩

theorem readsOnly_declarationOf {expression : Parser Expr}
    (hexpression : ReadsOnly expression (Expression .expression)) {statement : Parser Stmt}
    (hstatement : ReadsStatement rule [] statement) {block : Parser (List Stmt)}
    (hblock : ReadsOnly block (BlockTail rule)) (turns : Nat) :
    ReadsOnly (declarationOf expression statement block turns) (Statement rule .declaration) := by
  have hstatement' : ReadsOnly statement (Statement rule .declaration) := by
    intro tokens tree unread h
    obtain ⟨read, rfl, hread⟩ := hstatement _ _ _ h
    exact ⟨read, rfl, .statement (hread true (Or.inl rfl))⟩
  intro tokens tree unread h
  unfold declarationOf at h
  split at h
  · exact hstatement' _ _ _ h
  · next token rest hnext =>
      obtain ⟨rfl, -⟩ := next?_eq_some_iff.mp hnext
      split at h
      case h_1 hkind =>
        obtain ⟨read, rfl, hread⟩ := readsOnly_classDeclaration hblock turns _ _ _ h
        exact ⟨token :: read, rfl, hread ⟨token, hkind⟩⟩
      case h_2 hkind =>
        obtain ⟨function, hfunction, rfl⟩ := reading_map_iff.mp h
        obtain ⟨read, rfl, hread⟩ := readsOnly_function hblock _ turns _ _ _ hfunction
        exact ⟨token :: read, rfl, .functionDecl ⟨token, hkind⟩ hread⟩
      case h_3 hkind =>
        obtain ⟨read, rfl, hread⟩ := readsOnly_varDeclaration hexpression _ _ _ h
        exact ⟨token :: read, rfl, .varDecl (hread ⟨token, hkind⟩)⟩
      case h_4 => exact hstatement' _ _ _ h

theorem readsDeclaration_recovering {parser : Parser Stmt}
    (hparser : ReadsOnly parser (Statement rule .declaration)) :
    ReadsDeclaration rule (recovering parser) := by
  intro tokens value unread h
  obtain ⟨tree, rfl, htree⟩ := reading_recovering_iff.mp h
  obtain ⟨read, rfl, hread⟩ := hparser _ _ _ htree
  exact ⟨read, rfl, tree, rfl, hread⟩

theorem reads_statement_declaration (rule : ElseRule) (level : Nat) :
    ReadsStatement rule [] (statement level) ∧ ReadsDeclaration rule (declaration level) := by
  induction level with
  | zero =>
      constructor
      · intro tokens tree unread h
        cases h
      · exact readsOnly_exhausted _
  | succ level ih =>
      obtain ⟨hstatement, hdeclaration⟩ := ih
      have hexpression := readsOnly_expression level
      have hblock := readsOnly_block hdeclaration level
      constructor
      · exact readsStatement_statementOf hexpression hstatement hblock
      · exact readsDeclaration_recovering
          (readsOnly_declarationOf hexpression hstatement hblock level)

/-- A program that is read without reports is one by the grammar, whichever rule for `else`, and is
read to its end. -/
theorem program_of_reading (rule : ElseRule) {level : Nat} {tokens unread : List Token}
    {tree : List Stmt} (h : program level tokens = .done tree unread []) :
    atEnd unread = true ∧ ∃ read, tokens = read ++ unread ∧ Program rule read tree := by
  unfold program at h
  simp only [topLevel_eq_collecting, reading_bind_iff, reading_pure_iff] at h
  obtain ⟨final, rest, hfinal, rfl, rfl⟩ := h
  obtain ⟨items, rfl, hitems, hvalues, hend⟩ :=
    readsOnly_collecting (reads_statement_declaration rule level).2 hfinal
  exact ⟨hend, _, rfl, items, hitems, rfl, by simpa using hvalues⟩

end Script.Parser
