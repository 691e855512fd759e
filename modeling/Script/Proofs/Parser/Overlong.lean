import Script.Parser.Program
import Script.Proofs.Parser.Completeness.Statement
import Script.Proofs.Parser.Progress
import Script.Proofs.Parser.Soundness.Expression

/-!
# Lists of any length

A list of parameters or arguments is read to its end however long it is. Each entry beyond the greatest length is
reported at its first token, and nothing is lost by it: the call or the function has all of its entries, and the
declaration around it is given. A declaration that gives nothing ends with an error of another kind.

How many levels of nesting there are has no part in this. With too few of them a parser may be exhausted, but what it
reads is what it reads with more.
-/

namespace Script

open Grammar Script.Parser

variable {α : Type}

/-! ### Slips as they are shown -/

def Grammar.Slip.diagnostic (slip : Slip) : Diagnostic :=
  .atToken slip.token slip.error.message

/-- A slip is at a token, so that no line has to be lent to it. -/
theorem Report.diagnostics_of_slips {reports : List Report} {slips : List Slip}
    (h : reports.map Report.slip? = slips.map some) (lastLine : Nat) :
    reports.map (Report.diagnostic lastLine) = slips.map Slip.diagnostic := by
  induction reports generalizing slips with
  | nil =>
      cases slips with
      | nil => rfl
      | cons => cases h
  | cons report reports ih =>
      cases slips with
      | nil => cases h
      | cons slip slips =>
          rw [List.map_cons, List.map_cons, List.cons.injEq] at h
          obtain ⟨token, htoken, rfl⟩ := Option.map_eq_some_iff.mp h.1
          rw [List.map_cons, List.map_cons, ih h.2, Report.diagnostic, htoken]
          rfl

namespace Parser

section Yields

variable {tokens unread : List Token} {value : α} {slips : List Slip}

theorem Yields.exists_diagnostics {parser : Parser α} (h : Yields parser tokens value unread slips) :
    ∃ reports, parser tokens = .done value unread reports ∧
      ∀ lastLine, reports.map (Report.diagnostic lastLine) = slips.map Slip.diagnostic := by
  obtain ⟨reports, hread, hslips⟩ := h
  exact ⟨reports, hread, Report.diagnostics_of_slips hslips⟩

theorem Yields.parse {parser : Nat → Parser α} (h : Yields (parser (levels tokens)) tokens value unread slips) :
    parse parser tokens = { tree := some value, diagnostics := slips.map Slip.diagnostic } := by
  obtain ⟨reports, hread, hdiagnostics⟩ := h.exists_diagnostics
  rw [Parser.parse, hread]
  simp only [Parse.reports, Parse.value?, hdiagnostics]

/-- A parser that is not exhausted yields what it yields with levels enough. -/
theorem yields_of_enough_or_ends {parser : Nat → Parser α}
    (hsame : ∀ tokens level level', Simulates (RestOf tokens) (RestOf tokens) Eq (parser level) (parser level'))
    {enough : Nat} (henough : ∀ level, enough ≤ level → Yields (parser level) tokens value unread slips)
    {level : Nat} (hlevel : enough ≤ level ∨ parser level tokens ≠ .exhausted) :
    Yields (parser level) tokens value unread slips := by
  rcases hlevel with hlevel | hends
  · exact henough level hlevel
  · obtain ⟨reports, hread, hslips⟩ := henough enough (Nat.le_refl _)
    have halike := hsame tokens level enough tokens tokens ⟨rfl, passes_self tokens⟩
    have hends' : parser enough tokens ≠ .exhausted := by
      rw [hread]
      exact fun h => nomatch h
    exact ⟨reports, (eq_of_alike_restOf halike hends hends').trans hread, hslips⟩

end Yields

/-! ### Arguments -/

/-- Tokens that are read whole as an expression, without a report. -/
structure Argument where
  first : Token
  others : List Token
  tree : Expr
  reading : expression (levels (first :: others)) (first :: others) = .done tree [] []

namespace Argument

def tokens (argument : Argument) : List Token :=
  argument.first :: argument.others

def entry (argument : Argument) : Entry Expr :=
  .plain (argument.tokens, argument.tree)

theorem phrase (argument : Argument) : Expression .expression argument.tokens argument.tree := by
  obtain ⟨read, hread, hphrase⟩ := readsOnly_expression _ _ _ _ argument.reading
  rw [List.append_nil] at hread
  rwa [tokens, hread]

theorem map_read_entry (arguments : List Argument) :
    (arguments.map entry).map Entry.read = arguments.map tokens :=
  List.map_map

theorem map_value_entry (arguments : List Argument) : (arguments.map entry).map Entry.value = arguments.map tree :=
  List.map_map

theorem tolerant_entry (arguments : List Argument) : ∀ entry ∈ arguments.map Argument.entry,
    Tolerant.Expression .expression entry.read entry.value entry.slips :=
  List.forall_mem_map.mpr fun argument _ => argument.phrase.tolerant

theorem slipsFrom_entry (arguments : List Argument) : slipsFrom .arguments 0 (arguments.map entry) =
    (arguments.drop Entries.most).map fun argument => ⟨argument.first, .tooMany .arguments⟩ :=
  slipsFrom_map (fun _ => rfl) (fun _ => rfl) arguments

end Argument

section Call

variable (opening : Word .leftParen) {arguments : List Argument} {read : List Token}
  (hread : Separated (arguments.map Argument.tokens) read) (closing : Word .rightParen)

include hread

/-- A call has the arguments that stand in it, and the slips of those that are too many. -/
theorem tolerant_call {before : List Token} {callee : Expr} {slips : List Slip}
    (hcallee : Tolerant.Expression .call before callee slips) :
    Tolerant.Expression .call (before ++ opening.1 :: (read ++ [closing.1]))
      (.call callee closing (arguments.map Argument.tree))
      (slips ++ (arguments.drop Entries.most).map fun argument => ⟨argument.first, .tooMany .arguments⟩) := by
  rw [← Argument.map_read_entry] at hread
  rw [← Argument.map_value_entry, ← Argument.slipsFrom_entry]
  exact .call hcallee opening _ (Argument.tolerant_entry arguments) hread closing

/-- Whatever is called, and whatever stands around the call. -/
theorem yields_suffix_arguments (callee : Expr) (rest : List Token) {level : Nat}
    (hlevel : 2 * read.length + 2 ≤ level ∨
      suffix (expression level) level callee (opening.1 :: (read ++ closing.1 :: rest)) ≠ .exhausted) :
    Yields (suffix (expression level) level callee) (opening.1 :: (read ++ closing.1 :: rest))
      (.again (.call callee closing (arguments.map Argument.tree))) rest
      ((arguments.drop Entries.most).map fun argument => ⟨argument.first, .tooMany .arguments⟩) := by
  refine yields_of_enough_or_ends (fun _ => same_suffix callee) (fun level hlevel => ?_) hlevel
  rw [← Argument.map_read_entry] at hread
  rw [← Argument.map_value_entry, ← Argument.slipsFrom_entry]
  have hexpression (smaller : Nat) (hsmaller : smaller < read.length + 1) :
      YieldsAll smaller continuesExpression (expression level) (Tolerant.Expression .expression) :=
    yieldsAll_expression (by omega)
  exact yields_suffix_call hexpression callee opening (Argument.tolerant_entry arguments) hread closing
    (Nat.lt_succ_self _) (by omega) rest

end Call

/-! ### Parameters -/

theorem slipsFrom_word (params : List (Word .identifier)) : slipsFrom .parameters 0 (params.map Entry.word) =
    (params.drop Entries.most).map fun param => ⟨param.1, .tooMany .parameters⟩ :=
  slipsFrom_map (fun _ => rfl) (fun _ => rfl) params

theorem same_parameters (tokens : List Token) (turns turns' : Nat) : Simulates (RestOf tokens) (RestOf tokens) Eq
    (entries .parameters (expect .identifier .parameterName) turns)
    (entries .parameters (expect .identifier .parameterName) turns') := by
  have hparam : Simulates (RestOf tokens) (RestOf tokens) Eq (expect .identifier .parameterName)
      (expect .identifier .parameterName) := same_expect _ _
  refine (simulates_entries (tracks_restOf tokens) hparam .parameters turns turns').mono (fun _ _ => id) ?_
  intro params params' hparams
  rwa [List.forall₂_eq_eq_eq] at hparams

/-- Whatever becomes of the body. -/
theorem function_keepsParameters (role : Role) (block : Parser (List Stmt)) (name : Word .identifier)
    (opening : Word .leftParen) {params : List (Word .identifier)} {read : List Token}
    (hread : Separated (params.map fun param => [param.1]) read) (closing : Word .rightParen)
    (brace : Word .leftBrace) (rest : List Token) {turns : Nat}
    (hturns : read.length < turns ∨ function role block turns
      (name.1 :: opening.1 :: (read ++ closing.1 :: brace.1 :: rest)) ≠ .exhausted) :
    ∃ reports, function role block turns (name.1 :: opening.1 :: (read ++ closing.1 :: brace.1 :: rest)) =
        (((fun body => { name := name.1, params := params.map Subtype.val, body }) <$> block) rest).after reports ∧
      reports.map Report.slip? =
        ((params.drop Entries.most).map fun param => ⟨param.1, .tooMany .parameters⟩).map some := by
  have hentries : read.length < turns ∨ entries .parameters (expect .identifier .parameterName) turns
      (read ++ closing.1 :: brace.1 :: rest) ≠ .exhausted := by
    refine hturns.imp_right fun hends hexhausted => hends ?_
    rw [function, bind_of_reading (expect_cons name.2 (by decide) _ _),
      bind_of_reading (expect_cons opening.2 (by decide) _ _), bind_apply, hexhausted]
  obtain ⟨reports, hparams, hslips⟩ := yields_of_enough_or_ends same_parameters
    (fun turns hturns => yields_parameters hread closing hturns (brace.1 :: rest)) hentries
  rw [slipsFrom_word] at hslips
  exact ⟨reports, function_apply role block name opening closing brace hparams, hslips⟩

/-! ### Declarations and programs -/

theorem yields_declaration {level : Nat} {read rest : List Token} {tree : Stmt} {slips : List Slip}
    (h : Tolerant.Statement .declaration read tree slips) (hrest : heads (takesElse true) rest = false)
    (hlevel : 2 * read.length + 4 ≤ level ∨ declaration level (read ++ rest) ≠ .exhausted) :
    Yields (declaration level) (read ++ rest) (some tree) rest slips :=
  yields_of_enough_or_ends (fun _ => same_declaration) (fun level hlevel =>
    (yieldsAll_statement_declaration level).2 _ hlevel read tree slips rest h (Nat.le_refl _) hrest) hlevel

/-- Something missing is the last error of a declaration that gives nothing. -/
theorem reports_of_declaration_none {level : Nat} {tokens unread : List Token} {reports : List Report}
    (h : declaration level tokens = .done none unread reports) :
    ∃ earlier place expected, reports = earlier ++ [⟨place, .missing expected⟩] := by
  cases level with
  | zero => cases h
  | succ level =>
      rw [declaration, recovering] at h
      split at h
      · cases h
      · next place earlier expected _ =>
          cases h
          exact ⟨earlier, place, expected, rfl⟩
      · cases h

theorem parseProgram_of_tolerant {read rest : List Token} {tree : List Stmt} {slips : List Slip}
    (h : Tolerant.Program read tree slips) (hrest : atEnd rest = true) :
    parseProgram (read ++ rest) = { tree, diagnostics := slips.map Slip.diagnostic } := by
  rw [parseProgram, (yields_program h (le_levels_append read rest) hrest).parse]
  rfl

theorem parseExpression_of_tolerant {read rest : List Token} {tree : Expr} {slips : List Slip}
    (h : Tolerant.Expression .expression read tree slips) (hrest : heads continuesExpression rest = false) :
    parseExpression (read ++ rest) = { tree := some tree, diagnostics := slips.map Slip.diagnostic } := by
  have hlevel := le_levels_append read rest
  exact (yieldsAll_expression (by omega) read tree slips rest h (Nat.le_refl _) hrest).parse

/-- A call has all the arguments that are read in it, and a function all its parameters. For each beyond the
greatest length there is one diagnostic, at its first token, and no other. This holds of each call and function that
is read, whatever stands around it; a program, a declaration or an expression with such lists in it is read, with the
diagnostics of its lists in order. What a declaration does not survive is something missing, which ends it. -/
theorem overlong_listsAreKept :
    (∀ (level : Nat) (callee : Expr) (opening : Word .leftParen) (arguments : List Argument) (read : List Token)
      (closing : Word .rightParen) (rest : List Token), Separated (arguments.map Argument.tokens) read →
      (2 * read.length + 2 ≤ level ∨
        suffix (expression level) level callee (opening.1 :: (read ++ closing.1 :: rest)) ≠ .exhausted) →
      ∃ reports, suffix (expression level) level callee (opening.1 :: (read ++ closing.1 :: rest)) =
          .done (.again (.call callee closing (arguments.map Argument.tree))) rest reports ∧
        ∀ lastLine, reports.map (Report.diagnostic lastLine) =
          (arguments.drop 255).map fun argument => .atToken argument.first "Can't have more than 255 arguments.") ∧
    (∀ (role : Role) (block : Parser (List Stmt)) (turns : Nat) (name : Word .identifier) (opening : Word .leftParen)
      (params : List (Word .identifier)) (read : List Token) (closing : Word .rightParen) (brace : Word .leftBrace)
      (rest : List Token), Separated (params.map fun param => [param.1]) read →
      (read.length < turns ∨ function role block turns
        (name.1 :: opening.1 :: (read ++ closing.1 :: brace.1 :: rest)) ≠ .exhausted) →
      ∃ reports, function role block turns (name.1 :: opening.1 :: (read ++ closing.1 :: brace.1 :: rest)) =
          (((fun body => { name := name.1, params := params.map Subtype.val, body }) <$> block) rest).after reports ∧
        ∀ lastLine, reports.map (Report.diagnostic lastLine) =
          (params.drop 255).map fun param => .atToken param.1 "Can't have more than 255 parameters.") ∧
    (∀ (level : Nat) (read : List Token) (tree : Stmt) (slips : List Slip) (rest : List Token),
      Tolerant.Statement .declaration read tree slips → heads (takesElse true) rest = false →
      (2 * read.length + 4 ≤ level ∨ declaration level (read ++ rest) ≠ .exhausted) →
      ∃ reports, declaration level (read ++ rest) = .done (some tree) rest reports ∧
        ∀ lastLine, reports.map (Report.diagnostic lastLine) = slips.map Slip.diagnostic) ∧
    (∀ (level : Nat) (tokens unread : List Token) (reports : List Report),
      declaration level tokens = .done none unread reports →
      ∃ earlier place expected, reports = earlier ++ [⟨place, .missing expected⟩]) ∧
    (∀ (read : List Token) (tree : List Stmt) (slips : List Slip) (rest : List Token),
      Tolerant.Program read tree slips → atEnd rest = true →
      parseProgram (read ++ rest) = { tree, diagnostics := slips.map Slip.diagnostic }) ∧
    ∀ (read : List Token) (tree : Expr) (slips : List Slip) (rest : List Token),
      Tolerant.Expression .expression read tree slips → heads continuesExpression rest = false →
      parseExpression (read ++ rest) = { tree := some tree, diagnostics := slips.map Slip.diagnostic } := by
  refine ⟨fun level callee opening arguments read closing rest hread hlevel => ?_,
    fun role block turns name opening params read closing brace rest hread hturns => ?_,
    fun level read tree slips rest h hrest hlevel => (yields_declaration h hrest hlevel).exists_diagnostics,
    fun _ _ _ _ => reports_of_declaration_none, fun _ _ _ _ => parseProgram_of_tolerant,
    fun _ _ _ _ => parseExpression_of_tolerant⟩
  · obtain ⟨reports, hcall, hdiagnostics⟩ :=
      (yields_suffix_arguments opening hread closing callee rest hlevel).exists_diagnostics
    refine ⟨reports, hcall, fun lastLine => (hdiagnostics lastLine).trans ?_⟩
    rw [List.map_map]
    rfl
  · obtain ⟨reports, hfunction, hslips⟩ :=
      function_keepsParameters role block name opening hread closing brace rest hturns
    refine ⟨reports, hfunction, fun lastLine => (Report.diagnostics_of_slips hslips lastLine).trans ?_⟩
    rw [List.map_map]
    rfl

/-! ### Lists with an entry on each line -/

theorem separated_intersperse (comma : Word .comma) (tokens : List Token) :
    Separated (tokens.map fun token => [token]) (tokens.intersperse comma.1) := by
  match tokens with
  | [] => exact .nil
  | [token] => exact .single [token]
  | token :: next :: tokens => exact .cons [token] comma (separated_intersperse comma (next :: tokens))

def wordOn (kind : Kind) (lexeme : String) (line : Nat) : Word kind :=
  ⟨{ kind, lexeme, literal := .none, line }, rfl⟩

def nameOn (line : Nat) : Word .identifier :=
  wordOn .identifier "f" line

def nilOn (line : Nat) : Argument :=
  { first := wordOn .nilWord "nil" line, others := [], tree := .literal .none, reading := rfl }

section Lines

variable (lines : List Nat)

/-- The tokens on the lines, with commas between them. -/
def commaList (token : Nat → Token) : List Token :=
  (lines.map token).intersperse (wordOn .comma "," 0).1

theorem separated_commaList (token : Nat → Token) :
    Separated (lines.map fun line => [token line]) (commaList lines token) := by
  have hseparated := separated_intersperse (wordOn .comma "," 0) (lines.map token)
  rwa [List.map_map] at hseparated

/-- A call from the parenthesis on, with a `nil` on each line. -/
def nilsOn : List Token :=
  (wordOn .leftParen "(" 0).1 :: (commaList lines (fun line => (nilOn line).first) ++ [(wordOn .rightParen ")" 0).1])

def callOn : Expr :=
  .call (.variable (nameOn 0)) (wordOn .rightParen ")" 0) ((lines.map nilOn).map Argument.tree)

/-- A function from its name on, with a parameter on each line and no statement in it. -/
def namesOn : List Token :=
  (nameOn 0).1 :: (wordOn .leftParen "(" 0).1 :: (commaList lines (fun line => (nameOn line).1) ++
    [(wordOn .rightParen ")" 0).1, (wordOn .leftBrace "\x7b" 0).1, (wordOn .rightBrace "\x7d" 0).1])

theorem separated_nils :
    Separated ((lines.map nilOn).map Argument.tokens) (commaList lines fun line => (nilOn line).first) := by
  rw [List.map_map]
  exact separated_commaList lines _

theorem separated_names :
    Separated ((lines.map nameOn).map fun param => [param.1]) (commaList lines fun line => (nameOn line).1) := by
  rw [List.map_map]
  exact separated_commaList lines _

theorem tolerant_callOn : Tolerant.Program ((nameOn 0).1 :: (nilsOn lines ++ [(wordOn .semicolon ";" 0).1]))
    [.expression (callOn lines)]
    (((lines.map nilOn).drop Entries.most).map fun argument => ⟨argument.first, .tooMany .arguments⟩) := by
  have hcall := tolerant_call (wordOn .leftParen "(" 0) (separated_nils lines) (wordOn .rightParen ")" 0)
    (.bare (.atom (.name (nameOn 0))))
  have hstatement : Tolerant.Statement .declaration _ _ _ :=
    .statement (.expression (.mk (.value (logicOr_of_call hcall)) (wordOn .semicolon ";" 0)))
  refine ⟨[⟨_, _, _⟩], List.forall_mem_singleton.mpr hstatement, ?_, rfl, ?_⟩
  · rw [List.flatMap_singleton]
    rfl
  · rw [List.flatMap_singleton]
    rfl

end Lines

/-- Of 257 entries the last two are reported, on their lines. -/
theorem overlong_listsAreKept_lastTwo :
    (∃ reports, suffix (expression 1100) 1100 (.variable (nameOn 0)) (nilsOn (List.range' 1 257)) =
        .done (.again (callOn (List.range' 1 257))) [] reports ∧
      reports.map (Report.diagnostic 0) = [.atToken (nilOn 256).first "Can't have more than 255 arguments.",
        .atToken (nilOn 257).first "Can't have more than 255 arguments."]) ∧
    (∃ reports, function .function (block (declaration 4) 4) 600 (namesOn (List.range' 1 257)) =
        .done { name := nameOn 0, params := (List.range' 1 257).map fun line => nameOn line, body := [] } [] reports ∧
      reports.map (Report.diagnostic 0) = [.atToken (nameOn 256) "Can't have more than 255 parameters.",
        .atToken (nameOn 257) "Can't have more than 255 parameters."]) ∧
    parseProgram ((nameOn 0).1 :: (nilsOn (List.range' 1 257) ++ [(wordOn .semicolon ";" 0).1])) =
      { tree := [.expression (callOn (List.range' 1 257))]
        diagnostics := [.atToken (nilOn 256).first "Can't have more than 255 arguments.",
          .atToken (nilOn 257).first "Can't have more than 255 arguments."] } := by
  have hlength (token : Nat → Token) : (commaList (List.range' 1 257) token).length = 513 := by
    rw [commaList, List.length_intersperse, List.length_map, List.length_range']
  obtain ⟨harguments, hparameters, -, -, hprogram, -⟩ := overlong_listsAreKept
  refine ⟨?_, ?_, ?_⟩
  · obtain ⟨reports, hcall, hdiagnostics⟩ := harguments 1100 (.variable (nameOn 0)) (wordOn .leftParen "(" 0) _ _
      (wordOn .rightParen ")" 0) [] (separated_nils (List.range' 1 257)) (.inl (by rw [hlength]; decide))
    exact ⟨reports, hcall, (hdiagnostics 0).trans rfl⟩
  · obtain ⟨reports, hfunction, hdiagnostics⟩ := hparameters .function (block (declaration 4) 4) 600 (nameOn 0)
      (wordOn .leftParen "(" 0) _ _ (wordOn .rightParen ")" 0) (wordOn .leftBrace "\x7b" 0)
      [(wordOn .rightBrace "\x7d" 0).1] (separated_names (List.range' 1 257)) (.inl (by rw [hlength]; decide))
    refine ⟨reports ++ [], hfunction.trans ?_, ?_⟩
    · rw [List.map_map]
      rfl
    · rw [List.append_nil]
      exact (hdiagnostics 0).trans rfl
  · have hcall := hprogram _ _ _ [] (tolerant_callOn (List.range' 1 257)) rfl
    rw [List.append_nil] at hcall
    exact hcall.trans rfl

end Parser

end Script
