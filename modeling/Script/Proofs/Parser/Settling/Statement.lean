import Script.Parser.Statement
import Script.Proofs.Parser.Settling.Expression

/-!
# Statements come to an end

A declaration that fails goes on past the token at fault, so it reads something even then, unless the
list is at its end.
-/

namespace Script.Parser

variable {α : Type} {quiet : SyntaxError → Prop} {size turns : Nat}

/-! ### Recovery -/

theorem skip_suffix (previous : Kind) (tokens : List Token) : skip previous tokens <:+ tokens := by
  induction tokens generalizing previous with
  | nil => exact List.suffix_rfl
  | cons token rest ih =>
      unfold skip
      split
      · exact List.suffix_rfl
      · exact (ih token.kind).trans (List.suffix_cons token rest)

theorem recover_suffix (tokens : List Token) : recover tokens <:+ tokens := by
  cases tokens with
  | nil => exact List.suffix_rfl
  | cons token rest =>
      rw [recover]
      split
      · exact List.suffix_rfl
      · exact (skip_suffix token.kind rest).trans (List.suffix_cons token rest)

theorem length_recover_lt {tokens : List Token} (hend : atEnd tokens = false) :
    (recover tokens).length < tokens.length := by
  obtain ⟨⟨token, rest⟩, hnext⟩ : ∃ next, next? tokens = some next := by
    rw [← Option.isSome_iff_exists, ← Option.isNone_eq_false_iff]
    exact hend
  obtain ⟨rfl, hkind⟩ := next?_eq_some_iff.mp hnext
  rw [recover, if_neg hkind, List.length_cons]
  have := (skip_suffix token.kind rest).length_le
  omega

theorem settles_recovering {parser : Parser α} (hquiet : ∀ error, quiet error)
    (hparser : Settles quiet size (fun _ => 1) parser) : Advances quiet size (recovering parser) := by
  intro tokens htokens hend
  have hsettled := hparser tokens htokens
  unfold recovering
  cases hparse : parser tokens with
  | done value unread reports =>
      rw [hparse] at hsettled
      exact hsettled
  | failed unread reports cause =>
      rw [hparse] at hsettled
      obtain ⟨hsuffix, -⟩ := hsettled
      refine ⟨(recover_suffix unread).trans hsuffix, ?_, fun report _ => hquiet report.error⟩
      change (recover unread).length + 1 ≤ tokens.length
      have hle := hsuffix.length_le
      by_cases hunread : atEnd unread = true
      · have hne : unread.length ≠ tokens.length := by
          intro hlength
          rw [hsuffix.eq_of_length hlength, hend] at hunread
          cases hunread
        have := (recover_suffix unread).length_le
        omega
      · have := length_recover_lt (Bool.eq_false_iff.mpr hunread)
        omega
  | exhausted =>
      rw [hparse] at hsettled
      exact hsettled

/-! ### Statements -/

section Parts

variable {expression : Parser Expr} (hexpression : Settles quiet size (fun _ => 1) expression)

include hexpression

theorem settles_condition (opening closing : Expected) :
    Settles quiet size (fun _ => 0) (condition expression opening closing) := by
  unfold condition
  refine settles_bind (settles_expect _ _) fun _ _ => ?_
  refine settles_bind (hexpression.weaken (by omega)) fun _ _ => ?_
  exact settles_bind (settles_expect _ _) fun _ _ => settles_pure rfl

theorem settles_expressionStatement :
    Settles quiet size (fun _ => 1) (expressionStatement expression) := by
  unfold expressionStatement
  refine settles_bind hexpression fun _ _ => ?_
  exact settles_bind (settles_expect _ _) fun _ _ => settles_pure rfl

theorem settles_varDeclaration : Settles quiet size (fun _ => 0) (varDeclaration expression) := by
  unfold varDeclaration
  refine settles_bind (settles_expect _ _) fun name _ => ?_
  refine settles_bind (settles_accept _) fun mark _ => ?_
  cases mark with
  | some equals =>
      refine settles_bind (hexpression.weaken (by omega)) fun _ _ => ?_
      exact settles_bind (settles_expect _ _) fun _ _ => settles_pure rfl
  | none => exact settles_bind (settles_expect _ _) fun _ _ => settles_pure rfl

theorem settles_initializer : Settles quiet size (fun _ => 0) (initializer expression) := by
  unfold initializer
  refine settles_bind (settles_accept _) fun mark _ => ?_
  cases mark with
  | none =>
      refine settles_bind ((settles_expressionStatement hexpression).weaken (by omega)) fun _ _ => ?_
      exact settles_pure rfl
  | some mark =>
      simp only
      split
      · exact settles_pure rfl
      · refine settles_bind ((settles_varDeclaration hexpression).weaken (by omega)) fun _ _ => ?_
        exact settles_pure rfl

theorem settles_print : Settles quiet size (fun _ => 0) (print expression) := by
  unfold print
  refine settles_bind hexpression fun _ _ => ?_
  exact settles_bind (settles_expect _ _) fun _ _ => settles_pure rfl

theorem settles_returned (keyword : Token) :
    Settles quiet size (fun _ => 0) (returned expression keyword) := by
  unfold returned
  refine settles_bind (settles_unlessSees hexpression _) fun _ _ => ?_
  exact settles_bind (settles_expect _ _) fun _ _ => settles_pure rfl

section Substatement

variable {statement : Parser Stmt} (hstatement : Settles quiet size (fun _ => 1) statement)

include hstatement

theorem settles_conditional : Settles quiet size (fun _ => 0) (conditional expression statement) := by
  unfold conditional
  refine settles_bind (settles_condition hexpression _ _) fun _ _ => ?_
  refine settles_bind (hstatement.weaken (by omega)) fun _ _ => ?_
  refine settles_bind (settles_accept _) fun mark _ => ?_
  cases mark with
  | some _ => exact settles_bind (hstatement.weaken (by omega)) fun _ _ => settles_pure rfl
  | none => exact settles_pure rfl

theorem settles_loop : Settles quiet size (fun _ => 0) (loop expression statement) := by
  unfold loop
  refine settles_bind (settles_condition hexpression _ _) fun _ _ => ?_
  exact settles_bind (hstatement.weaken (by omega)) fun _ _ => settles_pure rfl

theorem settles_forLoop : Settles quiet size (fun _ => 0) (forLoop expression statement) := by
  unfold forLoop
  refine settles_bind (settles_expect _ _) fun _ _ => ?_
  refine settles_bind ((settles_initializer hexpression).weaken (by omega)) fun _ _ => ?_
  refine settles_bind ((settles_unlessSees hexpression _).weaken (by omega)) fun _ _ => ?_
  refine settles_bind (settles_expect _ _) fun _ _ => ?_
  refine settles_bind ((settles_unlessSees hexpression _).weaken (by omega)) fun _ _ => ?_
  refine settles_bind (settles_expect _ _) fun _ _ => ?_
  exact settles_bind (hstatement.weaken (by omega)) fun _ _ => settles_pure rfl

end Substatement

end Parts

/-! ### Blocks, functions and classes -/

theorem settles_block {declaration : Parser (Option Stmt)}
    (hdeclaration : Advances quiet size declaration) (hturns : size < turns) :
    Settles quiet size (fun _ => 0) (block declaration turns) := by
  have hmember : ∀ read, Settles quiet size Turn.least (member declaration read) := by
    rw [member_eq_collecting]
    exact settles_collecting (fun tokens hend => by simp [closes, hend]) hdeclaration
  unfold block
  refine settles_bind (settles_iterate hmember hturns _) fun _ _ => ?_
  exact settles_bind (settles_expect _ _) fun _ _ => settles_pure rfl

section Block

variable {block : Parser (List Stmt)} (hblock : Settles quiet size (fun _ => 0) block)
  (htoo : quiet (.tooMany .parameters)) (hturns : size < turns)

include hblock htoo hturns

theorem settles_function (role : Role) :
    Settles quiet size (fun _ => 1) (function role block turns) := by
  unfold function
  refine settles_bind (settles_expect _ _) fun _ _ => ?_
  refine settles_bind (settles_expect _ _) fun _ _ => ?_
  refine settles_bind (settles_entries htoo (settles_expect _ _) (by omega)) fun _ _ => ?_
  refine settles_bind (settles_expect _ _) fun _ _ => ?_
  refine settles_bind (settles_expect _ _) fun _ _ => ?_
  exact settles_bind (hblock.weaken (by omega)) fun _ _ => settles_pure rfl

theorem settles_classDeclaration :
    Settles quiet size (fun _ => 0) (classDeclaration block turns) := by
  have hmethod : ∀ read, Settles quiet size Turn.least (method block turns read) := by
    rw [method_eq_collecting]
    exact settles_collecting (fun tokens hend => by simp [closes, hend])
      (settles_function hblock htoo hturns .method).advances
  unfold classDeclaration
  refine settles_bind (settles_expect _ _) fun _ _ => ?_
  refine settles_bind (settles_expect _ _) fun _ _ => ?_
  refine settles_bind ((settles_iterate hmethod hturns _).weaken (by omega)) fun _ _ => ?_
  exact settles_bind (settles_expect _ _) fun _ _ => settles_pure rfl

end Block

/-! ### Both kinds of statement -/

section Dispatch

variable {expression : Parser Expr} (hexpression : Settles quiet size (fun _ => 1) expression)
  {block : Parser (List Stmt)}
  (hblock : ∀ smaller < size, Settles quiet smaller (fun _ => 0) block)
  {statement : Parser Stmt}

include hexpression hblock

theorem settles_statementOf
    (hstatement : ∀ smaller < size, Settles quiet smaller (fun _ => 1) statement) :
    Settles quiet size (fun _ => 1) (statementOf expression statement block) := by
  intro tokens htokens
  unfold statementOf
  split
  · exact settles_expressionStatement hexpression tokens htokens
  · next token rest hnext =>
      obtain ⟨rfl, -⟩ := next?_eq_some_iff.mp hnext
      rw [List.length_cons] at htokens
      have hinner : Settles quiet rest.length (fun _ => 1) expression :=
        hexpression.mono (by omega) fun _ => Nat.le_refl 1
      have hsub : Settles quiet rest.length (fun _ => 1) statement := hstatement _ htokens
      have htail {parser : Parser Stmt} (hparser : Settles quiet rest.length (fun _ => 0) parser) :
          (parser rest).Settled quiet (fun _ => 1) (token :: rest) :=
        settled_cons (hparser rest (Nat.le_refl _)) token fun _ => Nat.le_refl 1
      split
      · exact htail (settles_conditional hinner hsub)
      · exact htail (settles_loop hinner hsub)
      · exact htail (settles_forLoop hinner hsub)
      · exact htail (settles_print hinner)
      · exact htail (settles_returned hinner token)
      · exact htail (settles_map (hblock _ htokens) fun _ => Nat.le_refl 0)
      · exact settles_expressionStatement hexpression (token :: rest) htokens

theorem settles_declarationOf (hstatement : Settles quiet size (fun _ => 1) statement)
    (htoo : quiet (.tooMany .parameters)) (hturns : size ≤ turns) :
    Settles quiet size (fun _ => 1) (declarationOf expression statement block turns) := by
  intro tokens htokens
  unfold declarationOf
  split
  · exact hstatement tokens htokens
  · next token rest hnext =>
      obtain ⟨rfl, -⟩ := next?_eq_some_iff.mp hnext
      rw [List.length_cons] at htokens
      have hinner : Settles quiet rest.length (fun _ => 1) expression :=
        hexpression.mono (by omega) fun _ => Nat.le_refl 1
      have htail {parser : Parser Stmt} (hparser : Settles quiet rest.length (fun _ => 0) parser) :
          (parser rest).Settled quiet (fun _ => 1) (token :: rest) :=
        settled_cons (hparser rest (Nat.le_refl _)) token fun _ => Nat.le_refl 1
      have hturns' : rest.length < turns := by omega
      split
      · exact htail (settles_classDeclaration (hblock _ htokens) htoo hturns')
      · exact htail (settles_map (settles_function (hblock _ htokens) htoo hturns' .function)
          fun _ => Nat.zero_le 1)
      · exact htail (settles_varDeclaration hinner)
      · exact hstatement (token :: rest) htokens

end Dispatch

section Levels

variable (hquiet : ∀ error, quiet error)

include hquiet

theorem settles_statement_declaration (level : Nat) :
    (∀ size, 2 * size + 3 ≤ level → Settles quiet size (fun _ => 1) (statement level)) ∧
      ∀ size, 2 * size + 4 ≤ level → Advances quiet size (declaration level) := by
  induction level with
  | zero => exact ⟨fun size h => by omega, fun size h => by omega⟩
  | succ level ih =>
      obtain ⟨hstatement, hdeclaration⟩ := ih
      have hexpression {size : Nat} (hlevel : 2 * size + 2 ≤ level) :
          Settles quiet size (fun _ => 1) (expression level) :=
        settles_expression (fun error _ => hquiet error) hlevel
      have hblock {size : Nat} (hlevel : 2 * size + 2 ≤ level) :
          ∀ smaller < size, Settles quiet smaller (fun _ => 0) (block (declaration level) level) :=
        fun smaller hsmaller => settles_block (hdeclaration smaller (by omega)) (by omega)
      constructor
      · intro size hlevel
        exact settles_statementOf (hexpression (by omega)) (hblock (by omega))
          fun smaller hsmaller => hstatement smaller (by omega)
      · intro size hlevel
        exact settles_recovering hquiet (settles_declarationOf (hexpression (by omega))
          (hblock (by omega)) (hstatement size (by omega)) (hquiet _) (by omega))

theorem settles_program {level size : Nat} (hlevel : 2 * size + 4 ≤ level) :
    Settles quiet size (fun _ => 0) (program level) := by
  have hturn : ∀ read, Settles quiet size Turn.least (topLevel (declaration level) read) := by
    rw [topLevel_eq_collecting]
    exact settles_collecting (fun _ hend => hend)
      ((settles_statement_declaration hquiet level).2 size hlevel)
  unfold program
  exact settles_bind (settles_iterate hturn (by omega) _) fun _ _ => settles_pure rfl

end Levels

end Script.Parser
