import Script.Proofs.Joining.Run
import Script.Proofs.Parser.Settling.Expression

/-!
# The layout of a source

Blanks, comments and line breaks between tokens say nothing but on which line a token stands. Sources with the
same tokens, line by line or not, have the same errors or do the same, and what differs in the states they leave
is the lines of the tokens that functions keep.
-/

namespace Script

open Script.Parser

/-- Tokens that are the same but for their lines. -/
def Matching.lines : Matching :=
  fun _ token token' => ∃ line, token' = { token with line }

theorem Matching.faithful_lines : Matching.lines.Faithful where
  refl _ token := ⟨token.line, rfl⟩
  kind := by
    rintro _ _ _ ⟨_, rfl⟩
    rfl
  lexeme := by
    rintro _ _ _ ⟨_, rfl⟩
    rfl

/-- Errors that read the same but for their lines, in the same order. -/
def Diagnostics.Like : Diagnostics → Diagnostics → Prop :=
  List.Forall₂ fun diagnostic diagnostic' => ∃ line, diagnostic' = { diagnostic with line }

/-- A source fails for the same reason: the same syntax errors, or the same runtime error with the same message,
but for lines. -/
inductive RunError.SameButLines : RunError → RunError → Prop where
  | unreadable {diagnostics diagnostics' : Diagnostics} (h : diagnostics.Like diagnostics') :
      SameButLines (.unreadable diagnostics) (.unreadable diagnostics')
  | runtime {error error' : RuntimeError} (h : RuntimeError.Like .lines error error')
      (hmessage : error'.message = error.message) : SameButLines (.runtime error) (.runtime error')

theorem RuntimeError.Like.message_eq {T : Matching} (hfaithful : T.Faithful) {error error' : RuntimeError}
    (h : RuntimeError.Like T error error') : error'.message = error.message := by
  cases h with
  | undefinedProperty hname =>
      dsimp only [RuntimeError.message]
      rw [hfaithful.lexeme hname]
  | undefinedVariable hname =>
      dsimp only [RuntimeError.message]
      rw [hfaithful.lexeme hname]
  | operand | notCallable | arity | stackOverflow | notAnInstance => dsimp only [RuntimeError.message]
  | output => rfl

/-! ### Tokens -/

/-- Tokens of the same kind with the same lexeme. -/
def Token.ReadsAs (token token' : Token) : Prop :=
  token'.kind = token.kind ∧ token'.lexeme = token.lexeme

instance : DecidableRel Token.ReadsAs :=
  fun _ _ => inferInstanceAs (Decidable (_ ∧ _))

/-- The constant that a token carries is read off its lexeme. -/
theorem literal_of_mem_scan {source : String} {token : Token} (h : token ∈ (scan source).tokens) :
    token.literal = Piece.literal token.kind token.lexeme := by
  rcases List.mem_append.mp h with hpiece | hclosing
  · obtain ⟨piece, -, htoken⟩ := List.mem_filterMap.mp hpiece
    unfold Piece.token? at htoken
    split at htoken
    · obtain rfl := Option.some.inj htoken
      rfl
    · cases htoken
  · rw [List.mem_singleton.mp hclosing]
    rfl

/-- Tokens whose constants are read off their lexemes are the same but for their lines if they read alike. -/
theorem Token.ReadsAs.exists_line {token token' : Token} (h : token.ReadsAs token')
    (hliteral : token.literal = Piece.literal token.kind token.lexeme)
    (hliteral' : token'.literal = Piece.literal token'.kind token'.lexeme) : ∃ line, token' = { token with line } := by
  have hsame : token'.literal = token.literal := by rw [hliteral, hliteral', h.1, h.2]
  obtain ⟨kind, lexeme, literal, line⟩ := token
  obtain ⟨kind', lexeme', literal', line'⟩ := token'
  obtain ⟨rfl, rfl⟩ := h
  obtain rfl : literal' = literal := hsame
  exact ⟨line', rfl⟩

theorem Token.ReadsAs.lines {source source' : String} {token token' : Token} (h : token.ReadsAs token')
    (hmem : token ∈ (scan source).tokens) (hmem' : token' ∈ (scan source').tokens) :
    ∃ line, token' = { token with line } :=
  h.exists_line (literal_of_mem_scan hmem) (literal_of_mem_scan hmem')

namespace Parser

/-- The same tokens on other lines. -/
def Relined : List Token → List Token → Prop :=
  List.Forall₂ fun token token' => ∃ line, token' = { token with line }

theorem tracks_relined : Tracks .lines Relined := by
  refine tracks_of_cons fun near far h => ?_
  cases h with
  | nil => exact .inl ⟨rfl, rfl⟩
  | @cons token _ near far htoken hrest =>
      obtain ⟨line, rfl⟩ := htoken
      exact .inr ⟨token, _, near, far, rfl, rfl, ⟨rfl, fun _ => rfl, fun _ _ => ⟨line, rfl⟩⟩, fun _ => hrest⟩

theorem through_relined : Through Relined := by
  rintro near far ⟨stop, stop', -, h⟩
  exact (List.forall₂_cons.mp h).2

/-- An error is shown at the same place, if not on the same line. -/
theorem relined_diagnostics {reports reports' : List Report}
    (h : List.Forall₂ (Report.Alike Relined) reports reports') (last last' : Nat) :
    Diagnostics.Like (reports.map (Report.diagnostic last)) (reports'.map (Report.diagnostic last')) := by
  induction h with
  | nil => exact .nil
  | @cons report report' _ _ hreport _ ih =>
      refine .cons ?_ ih
      obtain ⟨unread, error⟩ := report
      obtain ⟨unread', error'⟩ := report'
      obtain ⟨rfl, hunread⟩ := hreport
      cases hunread with
      | nil => exact ⟨last', rfl⟩
      | cons htoken _ =>
          obtain ⟨line, rfl⟩ := htoken
          exact ⟨line, rfl⟩

section Relined

variable {α : Type} {V : α → α → Prop} {parser : Nat → Parser α} {tokens tokens' : List Token}

/-- A parser that copes with its levels makes the same of a list on other lines, tree and errors. -/
theorem parse_relined (hparser : ∀ level level', Simulates Relined Relined V (parser level) (parser level'))
    (hends : ∀ tokens, parser (levels tokens) tokens ≠ .exhausted) (h : Relined tokens tokens') :
    Option.Rel V (parse parser tokens).tree (parse parser tokens').tree ∧
      (parse parser tokens).diagnostics.Like (parse parser tokens').diagnostics := by
  have halike := hparser (levels tokens) (levels tokens') tokens tokens' h
  have hnear := hends tokens
  have hfar := hends tokens'
  refine ⟨?_, relined_diagnostics (halike.reports hnear hfar) _ _⟩
  unfold parse
  generalize parser (levels tokens) tokens = outcome at halike hnear ⊢
  generalize parser (levels tokens') tokens' = outcome' at halike hfar ⊢
  cases outcome <;> cases outcome' <;> try contradiction
  · exact .some halike.1
  · exact .none

theorem expression_ne_exhausted (tokens : List Token) : expression (levels tokens) tokens ≠ .exhausted := by
  have hlevels : 2 * tokens.length + 2 ≤ levels tokens := Nat.add_le_add_left (by decide) _
  have hsettled := settles_expression (fun _ _ => trivial) hlevels tokens (Nat.le_refl _)
  intro hexhausted
  rw [hexhausted] at hsettled
  exact hsettled

theorem parseProgram_relined (h : Relined tokens tokens') :
    List.Forall₂ (Stmt.Like .lines) (parseProgram tokens).tree (parseProgram tokens').tree ∧
      (parseProgram tokens).diagnostics.Like (parseProgram tokens').diagnostics := by
  obtain ⟨htree, hdiagnostics⟩ :=
    parse_relined (simulates_program tracks_relined through_relined) program_ne_exhausted h
  refine ⟨?_, hdiagnostics⟩
  change List.Forall₂ _ ((parse program tokens).tree.getD []) ((parse program tokens').tree.getD [])
  generalize (parse program tokens).tree = tree? at htree
  generalize (parse program tokens').tree = tree'? at htree
  cases htree with
  | none => exact .nil
  | some htree => exact htree

theorem parseExpression_relined (h : Relined tokens tokens') :
    Option.Rel (Expr.Like .lines) (parseExpression tokens).tree (parseExpression tokens').tree ∧
      (parseExpression tokens).diagnostics.Like (parseExpression tokens').diagnostics :=
  parse_relined (simulates_expression tracks_relined) expression_ne_exhausted h

end Relined

end Parser

/-! ### Sources -/

/-- Two sources without stray characters or unclosed strings whose tokens are of the same kinds, with the same
lexemes. -/
structure SameTokens (source source' : String) : Prop where
  readable : (scan source).diagnostics = []
  readable' : (scan source').diagnostics = []
  tokens : List.Forall₂ Token.ReadsAs (scan source).tokens (scan source').tokens

section Sources

variable {source source' : String} (h : SameTokens source source') {machine machine' : Machine}
  (hmachine : Machine.Like .lines machine machine') (level : Nat)

include h

theorem SameTokens.relined : Relined (scan source).tokens (scan source').tokens := by
  have hall (token token' : Token) (hreads : token.ReadsAs token') (hmem : token ∈ (scan source).tokens)
      (hmem' : token' ∈ (scan source').tokens) : ∃ line, token' = { token with line } :=
    hreads.lines hmem hmem'
  refine List.forall₂_iff_get.mpr ⟨h.tokens.length_eq, fun i hi hi' => ?_⟩
  exact hall _ _ (h.tokens.get hi hi') (List.get_mem _ _) (List.get_mem _ _)

theorem SameTokens.program : List.Forall₂ (Stmt.Like .lines) (readProgram source).tree (readProgram source').tree ∧
    (readProgram source).diagnostics.Like (readProgram source').diagnostics := by
  simp only [readProgram, readWith, h.readable, h.readable', List.nil_append]
  exact parseProgram_relined h.relined

theorem SameTokens.expression :
    Option.Rel (Expr.Like .lines) (readExpression source).tree (readExpression source').tree ∧
      (readExpression source).diagnostics.Like (readExpression source').diagnostics := by
  simp only [readExpression, readWith, h.readable, h.readable', List.nil_append]
  exact parseExpression_relined h.relined

include hmachine

/-- Wherever the tokens of a source stand, running it does the same. -/
theorem SameTokens.like_run : Outcome.Like .lines RunError.SameButLines Eq (machine.run level source)
    (machine'.run level source') := by
  obtain ⟨htree, hdiagnostics⟩ := h.program
  unfold Machine.run Diagnostics.hadError
  generalize readProgram source = parsed at htree hdiagnostics ⊢
  generalize readProgram source' = parsed' at htree hdiagnostics ⊢
  obtain ⟨tree, diagnostics⟩ := parsed
  obtain ⟨tree', diagnostics'⟩ := parsed'
  cases hdiagnostics with
  | nil =>
      exact (like_interpret Matching.faithful_lines level htree hmachine).mapError fun _ _ herror =>
        .runtime herror (herror.message_eq Matching.faithful_lines)
  | cons hfirst hrest => exact .failed (.unreadable (.cons hfirst hrest)) hmachine

theorem SameTokens.like_evaluate : Outcome.Like .lines RunError.SameButLines (Value.Like .lines)
    (machine.evaluate level source) (machine'.evaluate level source') := by
  obtain ⟨htree, hdiagnostics⟩ := h.expression
  unfold Machine.evaluate Diagnostics.hadError
  generalize readExpression source = parsed at htree hdiagnostics ⊢
  generalize readExpression source' = parsed' at htree hdiagnostics ⊢
  obtain ⟨tree?, diagnostics⟩ := parsed
  obtain ⟨tree'?, diagnostics'⟩ := parsed'
  cases htree with
  | none => exact .failed (.unreadable hdiagnostics) hmachine
  | some htree =>
      cases hdiagnostics with
      | nil =>
          exact (like_eval Matching.faithful_lines level htree hmachine).mapError fun _ _ herror =>
            .runtime herror (herror.message_eq Matching.faithful_lines)
      | cons hfirst hrest => exact .failed (.unreadable (.cons hfirst hrest)) hmachine

end Sources

/-- Two sources with the same tokens have the same syntax errors, or do the same: the same output, the same value or
error, the same state. Only lines may differ, those of errors and those of the tokens that functions keep. -/
theorem layout_ignored {source source' : String} (h : SameTokens source source') (level : Nat) (machine : Machine) :
    Outcome.Like .lines RunError.SameButLines Eq (machine.run level source) (machine.run level source') ∧
      Outcome.Like .lines RunError.SameButLines (Value.Like .lines) (machine.evaluate level source)
        (machine.evaluate level source') :=
  ⟨h.like_run (machine.like_self Matching.faithful_lines) level,
    h.like_evaluate (machine.like_self Matching.faithful_lines) level⟩

theorem layout_ignored_with_fault :
    let flat := "func f(a) \x7b return a + b; \x7d print 1; f(1);"
    let lined := "func f(a) \x7b\n  // b is nowhere\n  return a\n    + b;\n\x7d\nprint 1;\nf(1);"
    let start := Machine.start {} 0
    SameTokens flat lined ∧ ∃ (name name' : Token) (after after' : Machine),
      start.run 20 flat = .failed (.runtime (.undefinedVariable name)) after ∧ name.line = 1 ∧
        start.run 20 lined = .failed (.runtime (.undefinedVariable name')) after' ∧ name'.line = 4 ∧
        Machine.Like .lines after after' := by
  intro flat lined start
  have hsame : SameTokens flat lined := ⟨by decide +kernel, by decide +kernel, by decide +kernel⟩
  have hflat : (start.run 20 flat).undefined?.any (·.line == 1) = true := by decide +kernel
  have hlined : (start.run 20 lined).undefined?.any (·.line == 4) = true := by decide +kernel
  obtain ⟨name, hname, hline⟩ := (Option.any_eq_true _ _).mp hflat
  obtain ⟨name', hname', hline'⟩ := (Option.any_eq_true _ _).mp hlined
  obtain ⟨after, hafter⟩ := Outcome.exists_of_undefined? hname
  obtain ⟨after', hafter'⟩ := Outcome.exists_of_undefined? hname'
  have hlike := (layout_ignored hsame 20 start).1
  rw [hafter, hafter'] at hlike
  cases hlike with
  | failed _ hmachine =>
      exact ⟨hsame, name, name', after, after', hafter, beq_iff_eq.mp hline, hafter', beq_iff_eq.mp hline', hmachine⟩

end Script
