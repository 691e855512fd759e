import Script.Proofs.Alike.Lines

/-!
# The end of a list of tokens

A list ends at its first end mark as it ends where it runs out of tokens: a parser looks no further than to see that
nothing more is to be read. What comes behind the mark has no part in what is parsed, and the mark itself none but
its line, on which errors at the end are shown. A list that has no mark lends them the line of its last token.
-/

namespace Script

open Grammar Script.Parser

namespace Parser

/-- Lists with the same tokens up to their ends. Where the one is left with `near`, the other is with `far`. -/
def UpTo (near far tokens tokens' : List Token) : Prop :=
  ∃ left, Unmarked left ∧ tokens = left ++ near ∧ tokens' = left ++ far

theorem next?_eq_none_of_atEnd {tokens : List Token} (h : atEnd tokens = true) : next? tokens = none :=
  Option.isNone_iff_eq_none.mp h

section UpTo

variable {near far : List Token} (hnear : atEnd near = true) (hfar : atEnd far = true)

include hnear

theorem through_upTo : Through (UpTo near far) := by
  rintro tokens tokens' ⟨stop, stop', hstop, left, hleft, hfirst, hsecond⟩
  have hmark : stop.kind ≠ .endMark := by
    rw [hstop]
    decide
  cases left with
  | nil =>
      rw [List.nil_append] at hfirst
      rw [← hfirst, atEnd, next?_cons hmark] at hnear
      cases hnear
  | cons token left =>
      rw [unmarked_cons] at hleft
      exact ⟨left, hleft.2, (List.cons.inj hfirst).2, (List.cons.inj hsecond).2⟩

include hfar

theorem tracks_upTo : Tracks .same (UpTo near far) := by
  rintro _ _ ⟨left, hleft, rfl, rfl⟩
  cases left with
  | nil => exact .inl ⟨next?_eq_none_of_atEnd hnear, next?_eq_none_of_atEnd hfar⟩
  | cons token left =>
      rw [unmarked_cons] at hleft
      have htwin : token.Twin .same token := ⟨rfl, fun _ => rfl, fun _ _ => rfl⟩
      exact .inr ⟨token, token, left ++ near, left ++ far, rfl, rfl, hleft.1, htwin,
        fun _ => ⟨left, hleft.2, rfl, rfl⟩⟩

omit hnear hfar

/-- The token that an error is shown at, where the tokens are still to come. -/
def shownAt (lastLine : Nat) (tokens : List Token) : Token :=
  tokens.head?.getD (.closing lastLine)

theorem UpTo.shownAt_eq {line line' : Nat} (hshown : shownAt line near = shownAt line' far)
    {tokens tokens' : List Token} (h : UpTo near far tokens tokens') :
    shownAt line tokens = shownAt line' tokens' := by
  obtain ⟨left, -, rfl, rfl⟩ := h
  cases left with
  | nil => exact hshown
  | cons token left => rfl

theorem UpTo.diagnostics_eq {line line' : Nat} (hshown : shownAt line near = shownAt line' far)
    {reports reports' : List Report} (h : List.Forall₂ (Report.Alike (UpTo near far)) reports reports') :
    reports.map (Report.diagnostic line) = reports'.map (Report.diagnostic line') := by
  induction h with
  | nil => rfl
  | @cons report report' _ _ hreport _ ih =>
      have hplace : shownAt line report.unread = shownAt line' report'.unread := hreport.2.shownAt_eq hshown
      have hfirst : report.diagnostic line = report'.diagnostic line' := by
        change Diagnostic.atToken (shownAt line report.unread) report.error.message = _
        rw [hplace, hreport.1]
        rfl
      rw [List.map_cons, List.map_cons, hfirst, ih]

/-- A parser that does alike on both lists gives the same of them, if errors at their ends are shown alike. -/
theorem parse_upTo {α : Type} {parser : Nat → Parser α} {tokens : List Token} (htokens : Unmarked tokens)
    (hparser : ∀ level level', Simulates (UpTo near far) (UpTo near far) Eq (parser level) (parser level'))
    (hends : ∀ tokens, parser (levels tokens) tokens ≠ .exhausted)
    (hshown : shownAt (lastLine (tokens ++ near)) near = shownAt (lastLine (tokens ++ far)) far) :
    parse parser (tokens ++ near) = parse parser (tokens ++ far) := by
  have halike := hparser (levels (tokens ++ near)) (levels (tokens ++ far)) _ _ ⟨tokens, htokens, rfl, rfl⟩
  have hfirst := hends (tokens ++ near)
  have hsecond := hends (tokens ++ far)
  have hdiagnostics := UpTo.diagnostics_eq hshown (halike.reports hfirst hsecond)
  unfold parse
  simp only [hdiagnostics, Parsed.mk.injEq, and_true]
  generalize parser (levels (tokens ++ near)) (tokens ++ near) = outcome at halike hfirst ⊢
  generalize parser (levels (tokens ++ far)) (tokens ++ far) = outcome' at halike hsecond ⊢
  cases outcome <;> cases outcome' <;> try contradiction
  · exact congrArg some halike.1
  · rfl

include hnear hfar

theorem parseProgram_upTo {tokens : List Token} (htokens : Unmarked tokens)
    (hshown : shownAt (lastLine (tokens ++ near)) near = shownAt (lastLine (tokens ++ far)) far) :
    parseProgram (tokens ++ near) = parseProgram (tokens ++ far) := by
  have hparse : parse program (tokens ++ near) = parse program (tokens ++ far) := by
    refine parse_upTo htokens (fun level level' => ?_) program_ne_exhausted hshown
    exact (simulates_program (tracks_upTo hnear hfar) (through_upTo hnear) level level').mono
      (fun _ _ => id) fun tree _ => Stmt.eq_of_listLike tree
  rw [parseProgram, parseProgram, hparse]

theorem parseExpression_upTo {tokens : List Token} (htokens : Unmarked tokens)
    (hshown : shownAt (lastLine (tokens ++ near)) near = shownAt (lastLine (tokens ++ far)) far) :
    parseExpression (tokens ++ near) = parseExpression (tokens ++ far) := by
  refine parse_upTo htokens (fun level level' => ?_) expression_ne_exhausted hshown
  exact (simulates_expression (tracks_upTo hnear hfar) level level').mono (fun _ _ => id)
    fun _ _ => Expr.eq_of_like

end UpTo

end Parser

/-- A list without end marks is parsed the same, tree and errors, whatever follows a mark that is put behind it, and
the same without a mark as with one on the line of its last token. So it is with programs and with expressions. -/
theorem parse_endsAtMark {tokens : List Token} (h : Unmarked tokens) :
    (∀ (mark : Word .endMark) (behind : List Token),
      parseProgram (tokens ++ [mark.1] ++ behind) = parseProgram (tokens ++ [mark.1]) ∧
        parseExpression (tokens ++ [mark.1] ++ behind) = parseExpression (tokens ++ [mark.1])) ∧
    parseProgram tokens = parseProgram (tokens ++ [.closing (lastLine tokens)]) ∧
      parseExpression tokens = parseExpression (tokens ++ [.closing (lastLine tokens)]) := by
  have hclosing : atEnd [.closing (lastLine tokens)] = true := rfl
  have hrunsOut : shownAt (lastLine (tokens ++ [])) [] =
      shownAt (lastLine (tokens ++ [.closing (lastLine tokens)])) [.closing (lastLine tokens)] := by
    rw [List.append_nil]
    rfl
  refine ⟨fun mark behind => ?_, ?_, ?_⟩
  · have hmark (rest : List Token) : atEnd (mark.1 :: rest) = true := by simp [atEnd, next?, mark.2]
    rw [List.append_assoc, List.singleton_append]
    exact ⟨parseProgram_upTo (hmark behind) (hmark []) h rfl, parseExpression_upTo (hmark behind) (hmark []) h rfl⟩
  · have hparse := parseProgram_upTo (show atEnd [] = true from rfl) hclosing h hrunsOut
    rwa [List.append_nil] at hparse
  · have hparse := parseExpression_upTo (show atEnd [] = true from rfl) hclosing h hrunsOut
    rwa [List.append_nil] at hparse

/-- A block that lacks its end, with an error in it. -/
def openBlock : List Token :=
  [{ kind := .leftBrace, lexeme := "\x7b", literal := .none, line := 1 },
    { kind := .semicolon, lexeme := ";", literal := .none, line := 2 }]

/-- Recovery from the error comes to the end, where the second error is. A mark in a list may be on any line. -/
theorem parse_endsAtMark_inBlock :
    let mark : Word .endMark := ⟨{ kind := .endMark, lexeme := "?", literal := .bool true, line := 7 }, rfl⟩
    let behind := openBlock
    Unmarked openBlock ∧ lastLine openBlock = 2 ∧
      parseProgram openBlock = parseProgram (openBlock ++ [.closing 2]) ∧
      (parseProgram openBlock).diagnostics =
        [⟨2, .lexeme ";", "Expect expression."⟩, ⟨2, .closing, "Expect '\x7d' after block."⟩] ∧
      parseProgram (openBlock ++ [mark.1] ++ behind) = parseProgram (openBlock ++ [mark.1]) ∧
      (parseProgram (openBlock ++ [mark.1] ++ behind)).diagnostics =
        [⟨2, .lexeme ";", "Expect expression."⟩, ⟨7, .closing, "Expect '\x7d' after block."⟩] := by
  intro mark behind
  have hopen : Unmarked openBlock := by
    unfold Unmarked
    decide
  exact ⟨hopen, rfl, (parse_endsAtMark hopen).2.1, by decide +kernel, ((parse_endsAtMark hopen).1 mark behind).1,
    by decide +kernel⟩

end Script
