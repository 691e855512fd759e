import Script.Proofs.Parser.Acceptance

/-!
# The longest expression

An expression is read as far as it goes: no token behind it could go on with it. So of all expressions at the start
of a list at most one ends where it cannot go on, and that one is read. What keeps it from being read is one error,
the last that is reported.
-/

namespace Script

open Grammar Script.Parser

namespace Parser

variable {α β σ : Type}

/-! ### What is left unread -/

/-- From a list with the first property, what is left unread behind a value has the second. -/
def Leaves (before : List Token → Prop) (parser : Parser α) (after : α → List Token → Prop) : Prop :=
  ∀ tokens value unread reports, before tokens → parser tokens = .done value unread reports → after value unread

section Combinators

variable {before : List Token → Prop} {after : α → List Token → Prop}

theorem leaves_exhausted : Leaves before exhausted after :=
  fun _ _ _ _ _ h => nomatch h

theorem leaves_pure {value : α} (h : ∀ tokens, before tokens → after value tokens) :
    Leaves before (pure value) after := by
  intro tokens _ _ _ htokens hread
  cases hread
  exact h tokens htokens

theorem leaves_bind {first : Parser α} {next : α → Parser β} {last : β → List Token → Prop}
    (hfirst : Leaves before first after) (hnext : ∀ value, Leaves (after value) (next value) last) :
    Leaves before (first >>= next) last := by
  intro tokens final unread reports htokens hread
  rw [bind_apply] at hread
  cases hmiddle : first tokens with
  | failed | exhausted =>
      rw [hmiddle] at hread
      cases hread
  | done value middle earlier =>
      rw [hmiddle] at hread
      have hvalue := hfirst tokens value middle earlier htokens hmiddle
      cases hrest : next value middle with
      | failed | exhausted =>
          simp only [hrest] at hread
          cases hread
      | done =>
          simp only [hrest] at hread
          cases hread
          exact hnext value _ _ _ _ hvalue hrest

theorem leaves_unread : Leaves before unread fun _ => before := by
  intro tokens _ _ _ htokens hread
  cases hread
  exact htokens

theorem leaves_any {parser : Parser α} : Leaves before parser fun _ _ => True :=
  fun _ _ _ _ _ _ => trivial

theorem leaves_report (place : List Token) (error : SyntaxError) :
    Leaves before (report place error) fun _ => before := by
  intro tokens _ _ _ htokens hread
  cases hread
  exact htokens

/-- If no token is accepted, the next one is of no such kind. -/
theorem leaves_accept (kinds : Kind → Bool) :
    Leaves before (accept kinds) fun mark unread => mark = none → before unread ∧ heads kinds unread = false := by
  rintro tokens mark unread reports htokens hread rfl
  have hreports : reports = [] := by
    unfold accept at hread
    split at hread
    · split at hread <;> cases hread
      rfl
    · cases hread
      rfl
  subst hreports
  obtain ⟨rfl, hkinds⟩ := reading_accept_none_iff.mp hread
  exact ⟨htokens, hkinds⟩

/-- What is left behind a turn: enough for another one, or what is left behind the loop. -/
def Turn.Left (before after : List Token → Prop) : Turn σ → List Token → Prop
  | .again _ => before
  | .last _ => after

theorem leaves_iterate {turn : σ → Parser (Turn σ)} {after : List Token → Prop}
    (hturn : ∀ state, Leaves before (turn state) (Turn.Left before after)) (turns : Nat) (state : σ) :
    Leaves before (iterate turn turns state) fun _ => after := by
  induction turns generalizing state with
  | zero => exact leaves_exhausted
  | succ turns ih =>
      rw [iterate_succ]
      refine leaves_bind (hturn state) fun next => ?_
      cases next with
      | again state => exact ih state
      | last state => exact leaves_pure fun _ => id

end Combinators

/-! ### Expressions stop where they cannot go on -/

/-- Whatever the parser reads, no token of such a kind comes next. -/
def Stops (kinds : Kind → Bool) (parser : Parser α) : Prop :=
  Leaves (fun _ => True) parser fun _ unread => heads kinds unread = false

theorem Stops.from {kinds : Kind → Bool} {parser : Parser α} (h : Stops kinds parser)
    {before : List Token → Prop} : Leaves before parser fun _ unread => heads kinds unread = false :=
  fun tokens value unread reports _ => h tokens value unread reports trivial

theorem stops_chains {operand : Parser Expr} (hoperand : Stops (continues []) operand) (turns : Nat)
    (levels : List Level) : Stops (continues levels) (chains operand turns levels) := by
  induction levels with
  | nil => exact hoperand
  | cons level tighter ih =>
      refine leaves_bind ih fun left => leaves_iterate (fun left => ?_) turns left
      refine leaves_bind (leaves_accept level.has) fun mark => ?_
      cases mark with
      | some operator => exact leaves_bind ih.from fun right => leaves_pure fun _ => id
      | none =>
          refine leaves_pure fun tokens hrefused => ?_
          obtain ⟨htighter, hlevel⟩ := hrefused rfl
          exact (heads_or level.has (continues tighter) tokens).trans (Bool.or_eq_false_iff.mpr ⟨hlevel, htighter⟩)

theorem stops_call (expression : Parser Expr) (turns : Nat) : Stops (continues []) (call expression turns) := by
  have hsuffix (callee : Expr) : Leaves (fun _ => True) (suffix expression turns callee)
      (Turn.Left (fun _ => True) fun unread => heads (continues []) unread = false) := by
    refine leaves_bind (leaves_accept _) fun mark => ?_
    cases mark with
    | none => exact leaves_pure fun _ hrefused => (hrefused rfl).2
    | some mark =>
        simp only
        split
        · exact leaves_bind leaves_any fun _ => leaves_pure fun _ => id
        · refine leaves_bind leaves_any fun _ => ?_
          exact leaves_bind leaves_any fun _ => leaves_pure fun _ => id
  refine leaves_bind leaves_any fun callee => ?_
  exact leaves_iterate hsuffix turns callee

theorem stops_signed {operand call : Parser Expr} (hoperand : Stops (continues []) operand)
    (hcall : Stops (continues []) call) : Stops (continues []) (signed operand call) := by
  refine leaves_bind (leaves_accept _) fun mark => ?_
  cases mark with
  | some operator => exact leaves_bind hoperand.from fun right => leaves_pure fun _ => id
  | none => exact hcall.from

theorem stops_assignment {target value : Parser Expr} (htarget : Stops (continues Level.all) target)
    (hvalue : Stops continuesExpression value) : Stops continuesExpression (assignment target value) := by
  refine leaves_bind htarget fun left => leaves_bind leaves_unread fun place => ?_
  refine leaves_bind (leaves_accept _) fun mark => ?_
  cases mark with
  | none =>
      refine leaves_pure fun tokens hrefused => ?_
      obtain ⟨hall, hequal⟩ := hrefused rfl
      exact (heads_or _ _ tokens).trans (Bool.or_eq_false_iff.mpr ⟨hall, hequal⟩)
  | some equals =>
      refine leaves_bind hvalue.from fun right => ?_
      split
      · exact leaves_pure fun _ => id
      · exact leaves_pure fun _ => id
      · exact leaves_bind (leaves_report place _) fun _ => leaves_pure fun _ => id

theorem stops_expression_unary (level : Nat) :
    Stops continuesExpression (expression level) ∧ Stops (continues []) (unary level) := by
  induction level with
  | zero => exact ⟨leaves_exhausted, leaves_exhausted⟩
  | succ level ih =>
      obtain ⟨hexpression, hunary⟩ := ih
      exact ⟨stops_assignment (stops_chains hunary level Level.all) hexpression,
        stops_signed hunary (stops_call _ level)⟩

end Parser

/-! ### One expression of a list -/

/-- The kinds of token that an expression may go on with. -/
def Kind.continuations : List Kind :=
  [.equal, .orWord, .andWord, .equalEqual, .bangEqual, .less, .lessEqual, .greater, .greaterEqual, .plus, .minus,
    .star, .slash, .leftParen, .dot]

theorem Kind.mem_continuations_iff (kind : Kind) : kind ∈ continuations ↔ continuesExpression kind = true := by
  cases kind <;> decide

/-- Up to the end of the list, the tokens are an expression and others, the first of which cannot go on with it. -/
structure Expr.BeginsList (tokens read rest : List Token) (tree : Expr) : Prop where
  whole : upToEnd tokens = read ++ rest
  phrase : Expression .expression read tree
  stops : ∀ token ∈ rest.head?, token.kind ∉ Kind.continuations

/-- An error after which there is nothing left to give. -/
def Diagnostic.Fatal (diagnostic : Diagnostic) : Prop :=
  ∃ cause : Expected, diagnostic.message = cause.message

/-- An error after which an expression is read on. -/
def Diagnostic.Harmless (diagnostic : Diagnostic) : Prop :=
  diagnostic.message = "Invalid assignment target." ∨ diagnostic.message = "Can't have more than 255 arguments."

theorem Diagnostic.Harmless.not_fatal {diagnostic : Diagnostic} (h : diagnostic.Harmless) : ¬ diagnostic.Fatal := by
  have hmessages (cause : Expected) : cause.message ≠ "Invalid assignment target." ∧
      cause.message ≠ "Can't have more than 255 arguments." := by
    rcases cause with _ | _ | _ | role | role | _ | _ | role | _ <;> first | decide | (cases role <;> decide)
  rintro ⟨cause, hcause⟩
  rcases h with h | h
  · exact (hmessages cause).1 (hcause.symm.trans h)
  · exact (hmessages cause).2 (hcause.symm.trans h)

/-- What is read of a list as one expression, and with which errors. -/
structure ReadsExpression (tokens : List Token) (parsed : Parsed (Option Expr)) : Prop where
  /-- It is read without errors just if the list begins with an expression that ends where it cannot go on. -/
  accepts : ∀ tree, parsed.diagnostics = [] ∧ parsed.tree = some tree ↔
    ∃ read rest, tree.BeginsList tokens read rest
  /-- There is only one way in which the list can so begin. -/
  unique : ∀ tree read rest tree' read' rest', Expr.BeginsList tokens read rest tree →
    Expr.BeginsList tokens read' rest' tree' → read' = read ∧ rest' = rest ∧ tree' = tree
  /-- There is no expression just if there is a fatal error. -/
  none_iff : parsed.tree = none ↔ ∃ diagnostic ∈ parsed.diagnostics, diagnostic.Fatal
  /-- A fatal error is the last one, and the others, or all if there is an expression, are harmless. -/
  errors : match parsed.tree with
    | none => ∃ others last, parsed.diagnostics = others ++ [last] ∧ last.Fatal ∧
        ∀ other ∈ others, other.Harmless ∧ ¬ other.Fatal
    | some _ => ∀ diagnostic ∈ parsed.diagnostics, diagnostic.Harmless

section Lists

variable {tokens read rest : List Token} {tree : Expr}

theorem Parser.upToEnd_append_of_unmarked (hread : Unmarked read) (rest : List Token) :
    upToEnd (read ++ rest) = read ++ upToEnd rest :=
  List.takeWhile_append_of_pos (by simpa [Unmarked] using hread)

theorem Parser.heads_eq_upToEnd (kinds : Kind → Bool) (tokens : List Token) :
    heads kinds tokens = (upToEnd tokens).head?.any fun token => kinds token.kind := by
  cases tokens with
  | nil => rfl
  | cons token rest => by_cases hend : token.kind = .endMark <;> simp [heads, next?, upToEnd, hend]

/-- No token behind the phrase can go on with it. -/
theorem Parser.heads_continuesExpression_iff {unread : List Token} : heads continuesExpression unread = false ↔
    ∀ token ∈ (upToEnd unread).head?, token.kind ∉ Kind.continuations := by
  rw [heads_eq_upToEnd]
  cases (upToEnd unread).head? <;> simp [Kind.mem_continuations_iff]

/-- An expression that a list so begins with is read, and what is behind it is left. -/
theorem Expr.BeginsList.reading (h : tree.BeginsList tokens read rest) : ∃ unread,
    tokens = read ++ unread ∧ rest = upToEnd unread ∧
      Parser.expression (levels tokens) tokens = .done tree unread [] := by
  obtain ⟨after, htokens, -⟩ := exists_upToEnd tokens
  rw [h.whole, List.append_assoc] at htokens
  generalize rest ++ after = unread at htokens
  have hrest : rest = upToEnd unread := by
    have hsame : read ++ rest = read ++ upToEnd unread := by
      rw [← h.whole, htokens, upToEnd_append_of_unmarked h.phrase.unmarked]
    exact List.append_cancel_left hsame
  refine ⟨unread, htokens, hrest, ?_⟩
  have hlevel : 2 * read.length + 4 ≤ levels tokens := htokens ▸ le_levels_append read unread
  have hstops : heads continuesExpression unread = false := heads_continuesExpression_iff.mpr (hrest ▸ h.stops)
  have hread := reading_expression h.phrase (show _ ≤ levels tokens by omega) hstops
  rwa [← htokens] at hread

theorem Expr.beginsList_of_reading {unread : List Token}
    (h : Parser.expression (levels tokens) tokens = .done tree unread []) :
    ∃ read rest, tree.BeginsList tokens read rest := by
  have hstops := (stops_expression_unary _).1 _ _ _ _ trivial h
  obtain ⟨read, rfl, hphrase⟩ := readsOnly_expression _ _ _ _ h
  exact ⟨read, upToEnd unread, upToEnd_append_of_unmarked hphrase.unmarked unread, hphrase,
    heads_continuesExpression_iff.mp hstops⟩

theorem Expr.BeginsList.unique {tree' : Expr} {read' rest' : List Token} (h : tree.BeginsList tokens read rest)
    (h' : tree'.BeginsList tokens read' rest') : read' = read ∧ rest' = rest ∧ tree' = tree := by
  obtain ⟨unread, htokens, rfl, hread⟩ := h.reading
  obtain ⟨unread', htokens', rfl, hread'⟩ := h'.reading
  obtain ⟨rfl, rfl, -⟩ := Parse.done.inj (hread.symm.trans hread')
  exact ⟨List.append_cancel_right (htokens'.symm.trans htokens), rfl, rfl⟩

end Lists

/-! ### Errors -/

/-- The errors of an expression that do not end it. -/
def SyntaxError.OfExpression (error : SyntaxError) : Prop :=
  error = .assignmentTarget ∨ error = .tooMany .arguments

theorem Report.harmless {report : Report} (h : report.error.OfExpression) (lastLine : Nat) :
    (report.diagnostic lastLine).Harmless := by
  obtain ⟨unread, error⟩ := report
  rcases h with h | h
  · obtain rfl : error = _ := h
    exact .inl rfl
  · obtain rfl : error = _ := h
    exact .inr rfl

theorem SyntaxError.OfExpression.harmless {reports : List Report} (h : ∀ report ∈ reports, report.error.OfExpression)
    (lastLine : Nat) : ∀ diagnostic ∈ reports.map (Report.diagnostic lastLine), diagnostic.Harmless :=
  List.forall_mem_map.mpr fun report hreport => report.harmless (h report hreport) lastLine

/-- What the reader of expressions gives, without being exhausted. -/
theorem parseExpression_cases (tokens : List Token) :
    (∃ tree unread reports, Parser.expression (levels tokens) tokens = .done tree unread reports ∧
      parseExpression tokens = ⟨some tree, reports.map (Report.diagnostic (lastLine tokens))⟩ ∧
      ∀ report ∈ reports, report.error.OfExpression) ∨
    (∃ unread reports cause, Parser.expression (levels tokens) tokens = .failed unread reports cause ∧
      parseExpression tokens = ⟨none, reports.map (Report.diagnostic (lastLine tokens)) ++
        [Report.diagnostic (lastLine tokens) ⟨unread, .missing cause⟩]⟩ ∧
      ∀ report ∈ reports, report.error.OfExpression) := by
  have hlevel : 2 * tokens.length + 2 ≤ levels tokens := Nat.add_le_add_left (by decide) _
  have htarget : SyntaxError.OfExpression .assignmentTarget := .inl rfl
  have harguments : SyntaxError.OfExpression (.tooMany .arguments) := .inr rfl
  have hsettled := (settles_expression_unary htarget harguments _).1 _ hlevel tokens (Nat.le_refl _)
  unfold parseExpression parse
  cases hread : Parser.expression (levels tokens) tokens with
  | done tree unread reports =>
      rw [hread] at hsettled
      exact .inl ⟨tree, unread, reports, rfl, rfl, hsettled.2.2⟩
  | failed unread reports cause =>
      rw [hread] at hsettled
      exact .inr ⟨unread, reports, cause, rfl, by simp [Parse.value?, Parse.reports], hsettled.2⟩
  | exhausted =>
      rw [hread] at hsettled
      exact hsettled.elim

/-- A list of tokens is read as one expression, the longest that it begins with. The tree is missing just if a
fatal error ends it, the last one and the only one of its sort. -/
theorem parseExpression_reads_longest (tokens : List Token) : ReadsExpression tokens (parseExpression tokens) := by
  obtain ⟨tree, unread, reports, hread, hparsed, hreports⟩ | ⟨unread, reports, cause, hread, hparsed, hreports⟩ :=
    parseExpression_cases tokens
  all_goals have hharmless := SyntaxError.OfExpression.harmless hreports (lastLine tokens)
  · rw [hparsed]
    refine ⟨fun tree' => ⟨?_, ?_⟩, fun _ _ _ _ _ _ => Expr.BeginsList.unique, ⟨nofun, ?_⟩, hharmless⟩
    · rintro ⟨hnone, htree⟩
      obtain rfl := Option.some.inj htree
      obtain rfl := List.map_eq_nil_iff.mp hnone
      exact Expr.beginsList_of_reading hread
    · rintro ⟨read, rest, hbegins⟩
      obtain ⟨unread', -, -, hread'⟩ := hbegins.reading
      obtain ⟨rfl, -, rfl⟩ := Parse.done.inj (hread.symm.trans hread')
      exact ⟨rfl, rfl⟩
    · rintro ⟨diagnostic, hmem, hfatal⟩
      exact absurd hfatal (hharmless diagnostic hmem).not_fatal
  · have hfatal : (Report.diagnostic (lastLine tokens) ⟨unread, .missing cause⟩).Fatal := ⟨cause, rfl⟩
    rw [hparsed]
    refine ⟨fun tree' => ⟨?_, ?_⟩, fun _ _ _ _ _ _ => Expr.BeginsList.unique,
      ⟨fun _ => ⟨_, List.mem_append_right _ (List.mem_singleton_self _), hfatal⟩, fun _ => rfl⟩,
      ⟨_, _, rfl, hfatal, fun other hother => ⟨hharmless other hother, (hharmless other hother).not_fatal⟩⟩⟩
    · rintro ⟨-, htree⟩
      cases htree
    · rintro ⟨read, rest, hbegins⟩
      obtain ⟨unread', -, -, hread'⟩ := hbegins.reading
      cases hread.symm.trans hread'

end Script
