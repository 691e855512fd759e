import Script.Proofs.Grammar.Tolerant

/-!
# Tokens of a phrase

What a phrase can begin with, which is what a parser with one token of lookahead has to go by, and
that no phrase runs past the end of the list.
-/

namespace Script.Grammar

/-! ### First tokens -/

def beginsPrimary : Kind → Bool
  | .falseWord | .trueWord | .nilWord | .number | .string | .identifier | .thisWord
  | .leftParen => true
  | _ => false

def isSign (kind : Kind) : Bool :=
  kind == .bang || kind == .minus

/-- What is one token begins a primary. -/
theorem Expression.beginsPrimary_of_single {token : Token} {tree : Expr} (h : Expression .primary [token] tree) :
    beginsPrimary token.kind = true := by
  generalize hread : [token] = read at h
  cases h with
  | operand hchain | operation hchain => cases hchain
  | falseLiteral word | trueLiteral word | nilLiteral word | number word | string word | name word | this word =>
      cases hread
      rw [word.2]
      rfl
  | grouping => simp at hread

theorem Tolerant.Expression.begins {symbol : ExprSymbol} {read : List Token} {tree : Expr} {slips : List Slip}
    (h : Tolerant.Expression symbol read tree slips) :
    ∃ first rest, read = first :: rest ∧ (beginsPrimary first.kind = true ∨
      (isSign first.kind = true ∧ symbol ≠ .call ∧ symbol ≠ .primary)) := by
  induction h with
  | assign name => exact ⟨name.1, _, rfl, Or.inl (by rw [name.2]; rfl)⟩
  | set _ dot name equals _ ih =>
      obtain ⟨first, rest, rfl, hfirst | ⟨-, hcall, -⟩⟩ := ih
      · exact ⟨first, _, rfl, Or.inl hfirst⟩
      · exact absurd rfl hcall
  | misplaced _ _ _ _ ih | value _ ih =>
      obtain ⟨first, rest, rfl, hfirst | ⟨hsign, -, -⟩⟩ := ih
      · exact ⟨first, _, rfl, Or.inl hfirst⟩
      · exact ⟨first, _, rfl, Or.inr ⟨hsign, by decide, by decide⟩⟩
  | operand hchain _ ih =>
      obtain ⟨first, rest, rfl, hfirst | ⟨hsign, -, -⟩⟩ := ih
      · exact ⟨first, rest, rfl, Or.inl hfirst⟩
      · refine ⟨first, rest, rfl, Or.inr ⟨hsign, ?_, ?_⟩⟩
        · rintro rfl
          cases hchain
        · rintro rfl
          cases hchain
  | operation _ _ operator _ _ _ ih =>
      obtain ⟨first, rest, rfl, hfirst⟩ := ih
      exact ⟨first, _, rfl, hfirst⟩
  | sign operator hoperator =>
      exact ⟨operator, _, rfl, Or.inr ⟨by simpa [isSign] using hoperator, by decide, by decide⟩⟩
  | unsigned _ ih =>
      obtain ⟨first, rest, rfl, hfirst | ⟨-, hcall, -⟩⟩ := ih
      · exact ⟨first, rest, rfl, Or.inl hfirst⟩
      · exact absurd rfl hcall
  | bare _ ih =>
      obtain ⟨first, rest, rfl, hfirst | ⟨-, -, hprimary⟩⟩ := ih
      · exact ⟨first, rest, rfl, Or.inl hfirst⟩
      · exact absurd rfl hprimary
  | call _ opening _ _ _ _ ih =>
      obtain ⟨first, rest, rfl, hfirst⟩ := ih
      exact ⟨first, _, rfl, hfirst⟩
  | get _ dot name ih =>
      obtain ⟨first, rest, rfl, hfirst⟩ := ih
      exact ⟨first, _, rfl, hfirst⟩
  | grouping opening => exact ⟨opening.1, _, rfl, Or.inl (by rw [opening.2]; rfl)⟩
  | atom hatom => exact ⟨_, [], rfl, Or.inl hatom.beginsPrimary_of_single⟩

def opensExpression (kind : Kind) : Bool :=
  beginsPrimary kind || isSign kind

theorem Tolerant.Expression.opens {symbol : ExprSymbol} {read : List Token} {tree : Expr} {slips : List Slip}
    (h : Tolerant.Expression symbol read tree slips) :
    ∃ first rest, read = first :: rest ∧ opensExpression first.kind = true := by
  obtain ⟨first, rest, rfl, hfirst | ⟨hsign, -⟩⟩ := h.begins
  · exact ⟨first, rest, rfl, Bool.or_eq_true_iff.mpr (Or.inl hfirst)⟩
  · exact ⟨first, rest, rfl, Bool.or_eq_true_iff.mpr (Or.inr hsign)⟩

def opensStatement : Kind → Bool
  | .ifWord | .whileWord | .forWord | .printWord | .returnWord | .leftBrace => true
  | kind => opensExpression kind

def opensDeclaration : Kind → Bool
  | .classWord | .funcWord | .varWord => true
  | kind => opensStatement kind

theorem Tolerant.Statement.opens {mayDangle : Bool} {read : List Token} {tree : Stmt} {slips : List Slip}
    (h : Tolerant.Statement (.statement mayDangle) read tree slips) :
    ∃ first rest, read = first :: rest ∧ opensStatement first.kind = true := by
  cases h with
  | nested hblock =>
      cases hblock with
      | block opening => exact ⟨opening.1, _, rfl, by rw [opening.2]; rfl⟩
  | ifOnly keyword | ifElse keyword | whileLoop keyword | forOnly keyword | forFrom keyword
  | print keyword | «return» keyword => exact ⟨keyword.1, _, rfl, by rw [keyword.2]; rfl⟩
  | expression htree =>
      cases htree with
      | mk hphrase stop =>
          obtain ⟨first, rest, rfl, hfirst⟩ := hphrase.opens
          refine ⟨first, rest ++ [stop.1], rfl, ?_⟩
          revert hfirst
          generalize first.kind = kind
          cases kind <;> decide

theorem Tolerant.Statement.opens_declaration {read : List Token} {tree : Stmt} {slips : List Slip}
    (h : Tolerant.Statement .declaration read tree slips) :
    ∃ first rest, read = first :: rest ∧ opensDeclaration first.kind = true := by
  cases h with
  | classDecl keyword | functionDecl keyword =>
      exact ⟨keyword.1, _, rfl, by rw [keyword.2]; rfl⟩
  | varDecl hvar =>
      cases hvar with
      | plain keyword | initialized keyword => exact ⟨keyword.1, _, rfl, by rw [keyword.2]; rfl⟩
  | statement hstatement =>
      obtain ⟨first, rest, rfl, hfirst⟩ := hstatement.opens
      refine ⟨first, rest, rfl, ?_⟩
      revert hfirst
      generalize first.kind = kind
      cases kind <;> decide

/-! ### The end of the list -/

/-- No token of the list is an end mark. -/
def Unmarked (read : List Token) : Prop :=
  ∀ token ∈ read, token.kind ≠ .endMark

@[simp]
theorem unmarked_nil : Unmarked [] := by
  simp [Unmarked]

@[simp]
theorem unmarked_cons {token : Token} {read : List Token} :
    Unmarked (token :: read) ↔ token.kind ≠ .endMark ∧ Unmarked read :=
  List.forall_mem_cons

@[simp]
theorem unmarked_append {first second : List Token} :
    Unmarked (first ++ second) ↔ Unmarked first ∧ Unmarked second :=
  List.forall_mem_append

theorem unmarked_flatMap {α : Type} {items : List (List Token × α)}
    (hitems : ∀ item ∈ items, Unmarked item.1) : Unmarked (items.flatMap Prod.fst) := by
  intro token htoken
  obtain ⟨item, hitem, hmem⟩ := List.mem_flatMap.mp htoken
  exact hitems item hitem token hmem

theorem Word.kind_ne {kind : Kind} (word : Word kind) (hkind : kind ≠ .endMark) :
    word.1.kind ≠ .endMark := by
  rw [word.2]
  exact hkind

theorem Separated.unmarked {phrases : List (List Token)} {read : List Token}
    (h : Separated phrases read) (hphrases : ∀ phrase ∈ phrases, Unmarked phrase) :
    Unmarked read := by
  induction h with
  | nil => exact unmarked_nil
  | single phrase => exact hphrases phrase (List.mem_singleton_self phrase)
  | cons phrase comma _ ih =>
      rw [List.forall_mem_cons] at hphrases
      rw [unmarked_append, unmarked_cons]
      exact ⟨hphrases.1, comma.kind_ne (by decide), ih hphrases.2⟩

/-! ### Commas -/

theorem Separated.length_le {phrases : List (List Token)} {read : List Token}
    (h : Separated phrases read) : phrases.length ≤ read.length + 1 := by
  induction h with
  | nil => exact Nat.zero_le _
  | single phrase => exact Nat.le_add_left 1 _
  | cons phrase comma _ ih =>
      simp only [List.length_cons, List.length_append] at ih ⊢
      omega

theorem Separated.exists_append {phrase read : List Token} {phrases : List (List Token)}
    (h : Separated (phrase :: phrases) read) : ∃ others, read = phrase ++ others := by
  cases h with
  | single => exact ⟨[], by simp⟩
  | cons _ comma _ => exact ⟨_, rfl⟩

/-! ### Phrases -/

theorem Expression.unmarked {symbol : ExprSymbol} {read : List Token} {tree : Expr}
    (h : Expression symbol read tree) : Unmarked read := by
  induction h with
  | assign name equals _ ih => simp [name.2, equals.2, ih]
  | set _ dot name equals _ ihobject ihvalue =>
      simp [dot.2, name.2, equals.2, ihobject, ihvalue]
  | value _ ih | operand _ _ ih | unsigned _ ih | bare _ ih => exact ih
  | operation hchain _ operator hoperator _ _ ihleft ihright =>
      have hkind : operator.kind ≠ .endMark := by
        intro hend
        unfold ExprSymbol.chain? at hchain
        split at hchain <;> cases hchain <;> simp [hend] at hoperator
      simp [hkind, ihleft, ihright]
  | sign operator hoperator _ ih =>
      have hkind : operator.kind ≠ .endMark := by
        rcases hoperator with hoperator | hoperator <;> simp [hoperator]
      simp [hkind, ih]
  | call _ opening arguments _ _ hread closing ihcallee iharguments =>
      have hinner : Unmarked _ := hread.unmarked (by simpa using fun _ _ => iharguments _)
      simp [opening.2, closing.2, ihcallee, hinner]
  | get _ dot name ih => simp [dot.2, name.2, ih]
  | falseLiteral word | trueLiteral word | nilLiteral word | number word | string word | name word
  | this word => simp [word.2]
  | grouping opening _ closing ih => simp [opening.2, closing.2, ih]

theorem Optional.unmarked {read : List Token} {tree : Option Expr} (h : Optional read tree) :
    Unmarked read := by
  cases h with
  | none => exact unmarked_nil
  | some htree => exact htree.unmarked

theorem ExpressionStatement.unmarked {read : List Token} {tree : Stmt}
    (h : ExpressionStatement read tree) : Unmarked read := by
  cases h with
  | mk htree stop => simp [htree.unmarked, stop.2]

theorem VarDeclaration.unmarked {read : List Token} {tree : Stmt} (h : VarDeclaration read tree) :
    Unmarked read := by
  cases h with
  | plain keyword name stop => simp [keyword.2, name.2, stop.2]
  | initialized keyword name equals hvalue stop =>
      simp [keyword.2, name.2, equals.2, hvalue.unmarked, stop.2]

theorem Statement.unmarked {rule : ElseRule} {symbol : StmtSymbol} {read : List Token} {tree : Stmt}
    (h : Statement rule symbol read tree) : Unmarked read := by
  induction h with
  | classDecl keyword name opening methods _ closing ih =>
      simp [keyword.2, name.2, opening.2, unmarked_flatMap ih, closing.2]
  | functionDecl keyword _ ih => simp [keyword.2, ih]
  | varDecl hvar => exact hvar.unmarked
  | statement _ ih | nested _ ih => exact ih
  | function name opening params _ hread closing _ ih =>
      have hparams : Unmarked _ := hread.unmarked (by
        intro phrase hphrase
        obtain ⟨param, -, rfl⟩ := List.mem_map.mp hphrase
        simp [param.2])
      simp [name.2, opening.2, hparams, closing.2, ih]
  | block opening items _ closing ih => simp [opening.2, unmarked_flatMap ih, closing.2]
  | ifOnly keyword opening hcondition closing _ ih =>
      simp [keyword.2, opening.2, hcondition.unmarked, closing.2, ih]
  | ifElse keyword opening hcondition closing _ otherwise _ ihtrue ihfalse =>
      simp [keyword.2, opening.2, hcondition.unmarked, closing.2, otherwise.2, ihtrue, ihfalse]
  | whileLoop keyword opening hcondition closing _ ih =>
      simp [keyword.2, opening.2, hcondition.unmarked, closing.2, ih]
  | forOnly keyword opening stop _ ih => simp [keyword.2, opening.2, stop.2, ih]
  | forFrom keyword opening hfirst _ ih =>
      have hunmarked : Unmarked _ := hfirst.elim VarDeclaration.unmarked ExpressionStatement.unmarked
      simp [keyword.2, opening.2, hunmarked, ih]
  | forTail hcondition stop closing _ ih => simp [hcondition.unmarked, stop.2, closing.2, ih]
  | forTailStep hcondition stop hincrement closing _ ih =>
      simp [hcondition.unmarked, stop.2, hincrement.unmarked, closing.2, ih]
  | print keyword htree stop => simp [keyword.2, htree.unmarked, stop.2]
  | «return» keyword hvalue stop => simp [keyword.2, hvalue.unmarked, stop.2]
  | expression htree => exact htree.unmarked

theorem Program.unmarked {rule : ElseRule} {read : List Token} {tree : List Stmt}
    (h : Program rule read tree) : Unmarked read := by
  obtain ⟨items, hitems, rfl, -⟩ := h
  exact unmarked_flatMap fun item hitem => (hitems item hitem).unmarked

end Script.Grammar
