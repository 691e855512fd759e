import Mathlib.Data.List.TakeWhile
import Mathlib.Order.Bounds.Defs
import Script.Proofs.Parser.Longest
import Script.Proofs.Parser.Progress
import Script.Proofs.Recovery.Segment

/-!
# Places of errors

An error that ends a declaration stands where the parser is when it meets it. Nothing is read between there and the
innermost loop over declarations, which goes on at the next boundary of statements behind that place. So a parser
that works its way through a list meets no two of those errors at one place, unless the list ends there.
-/

namespace Script

open Grammar

variable {α β σ : Type}

namespace Parser

/-! ### Where reading goes on -/

/-- The list ends here, or a statement has just ended, or one begins. -/
def Boundary (tokens : List Token) (place : Nat) : Prop :=
  atEnd (tokens.drop place) = true ∨ (∃ token ∈ tokens[place - 1]?, token.kind = .semicolon) ∨
    ∃ token ∈ tokens[place]?, token.kind.beginsStatement = true

instance (tokens : List Token) (place : Nat) : Decidable (Boundary tokens place) :=
  inferInstanceAs (Decidable (_ ∨ _ ∨ _))

/-- Behind an error at some place reading goes on at the first boundary after it. At the end it stays there. -/
def Resumes (tokens : List Token) (place resume : Nat) : Prop :=
  if atEnd (tokens.drop place) then resume = place
  else IsLeast {later | place < later ∧ Boundary tokens later} resume

theorem boundary_drop {tokens : List Token} {place ahead : Nat} (hahead : 0 < ahead) :
    Boundary (tokens.drop place) ahead ↔ Boundary tokens (place + ahead) := by
  have hprevious : place + (ahead - 1) = place + ahead - 1 := by omega
  unfold Boundary
  rw [List.drop_drop, List.getElem?_drop, List.getElem?_drop, hprevious]

theorem boundary_one_iff {token next : Token} {rest : List Token} :
    Boundary (token :: next :: rest) 1 ↔
      next.kind = .endMark ∨ token.kind = .semicolon ∨ next.kind.beginsStatement = true := by
  simp [Boundary, atEnd, next?]

/-- Skipping stops at the first boundary behind the last token read. -/
theorem exists_skip (token : Token) (rest : List Token) :
    ∃ resume, skip token.kind rest = (token :: rest).drop resume ∧
      IsLeast {later | 0 < later ∧ Boundary (token :: rest) later} resume := by
  induction rest generalizing token with
  | nil => exact ⟨1, rfl, ⟨Nat.one_pos, .inl rfl⟩, fun _ hlater => hlater.1⟩
  | cons next rest ih =>
      by_cases hstops : Boundary (token :: next :: rest) 1
      · refine ⟨1, ?_, ⟨Nat.one_pos, hstops⟩, fun _ hlater => hlater.1⟩
        rw [skip, if_pos (boundary_one_iff.mp hstops)]
        rfl
      obtain ⟨resume, hskip, ⟨hpos, hboundary⟩, hleast⟩ := ih next
      refine ⟨1 + resume, ?_, ⟨Nat.add_pos_left Nat.one_pos _, (boundary_drop hpos).mp hboundary⟩, ?_⟩
      · rw [skip, if_neg (mt boundary_one_iff.mpr hstops), hskip, Nat.add_comm]
        rfl
      · rintro later ⟨hlater, hbehind⟩
        obtain ⟨ahead, rfl⟩ := Nat.exists_eq_add_of_le hlater
        have hahead : 0 < ahead := by
          rcases Nat.eq_zero_or_pos ahead with rfl | hahead
          · exact absurd hbehind hstops
          · exact hahead
        have hrest : Boundary (next :: rest) ahead := (@boundary_drop (token :: next :: rest) 1 _ hahead).mpr hbehind
        exact Nat.add_le_add_left (hleast ⟨hahead, hrest⟩) 1

theorem exists_recover (tokens : List Token) (place : Nat) :
    ∃ resume, recover (tokens.drop place) = tokens.drop resume ∧ Resumes tokens place resume := by
  by_cases hend : atEnd (tokens.drop place) = true
  · refine ⟨place, ?_, by rw [Resumes, if_pos hend]⟩
    cases hdrop : tokens.drop place with
    | nil => rfl
    | cons token rest =>
        have hmark : token.kind = .endMark := by
          simpa [hdrop, atEnd, next?] using hend
        rw [recover, if_pos hmark]
  obtain ⟨⟨token, rest⟩, hnext⟩ : ∃ next, next? (tokens.drop place) = some next := by
    simpa [atEnd, Option.ne_none_iff_exists', Prod.exists] using hend
  obtain ⟨hdrop, hmark⟩ := next?_eq_some_iff.mp hnext
  obtain ⟨ahead, hskip, ⟨hpos, hboundary⟩, hleast⟩ := exists_skip token rest
  rw [← hdrop] at hskip hboundary hleast
  refine ⟨place + ahead, ?_, ?_⟩
  · rw [hdrop, recover, if_neg hmark, hskip, List.drop_drop]
  · rw [Resumes, if_neg hend]
    refine ⟨⟨Nat.lt_add_of_pos_right hpos, (boundary_drop hpos).mp hboundary⟩, ?_⟩
    rintro later ⟨hlater, hbehind⟩
    obtain ⟨ahead', rfl⟩ := Nat.exists_eq_add_of_lt hlater
    rw [Nat.add_assoc] at hbehind ⊢
    exact Nat.add_le_add_left (hleast ⟨Nat.succ_pos _, (boundary_drop (Nat.succ_pos _)).mpr hbehind⟩) place

/-! ### The places that a parser comes through -/

theorem Passes.trans {first second third : List Token} (h : Passes 0 first second) (h' : Passes 0 second third) :
    Passes 0 first third := by
  obtain ⟨read, rfl, hread, -⟩ := h
  obtain ⟨read', rfl, hread', -⟩ := h'
  exact ⟨read ++ read', by simp, by simp [hread, hread'], Nat.zero_le _⟩

theorem passes_skip (previous : Kind) (tokens : List Token) : Passes 0 tokens (skip previous tokens) := by
  induction tokens generalizing previous with
  | nil => exact passes_self []
  | cons token rest ih =>
      unfold skip
      split
      · exact passes_self _
      · next hgo => exact ((passes_self _).tail fun hend => hgo (.inl hend)).trans (ih token.kind)

theorem passes_recover (tokens : List Token) : Passes 0 tokens (recover tokens) := by
  cases tokens with
  | nil => exact passes_self []
  | cons token rest =>
      rw [recover]
      split
      · exact passes_self _
      · next hend => exact ((passes_self _).tail hend).trans (passes_skip token.kind rest)

/-- Reading on from `tokens`, a parser meets an error at each of the places, goes on where it recovers from it, and
comes to where `unread` is left. -/
def Visits : List Token → List (List Token) → List Token → Prop
  | tokens, [], unread => Passes 0 tokens unread
  | tokens, place :: places, unread => Passes 0 tokens place ∧ Visits (recover place) places unread

theorem Visits.trans {first second third : List Token} {places places' : List (List Token)}
    (h : Visits first places second) (h' : Visits second places' third) : Visits first (places ++ places') third := by
  induction places generalizing first with
  | nil =>
      cases places' with
      | nil => exact Passes.trans h h'
      | cons place places' => exact ⟨Passes.trans h h'.1, h'.2⟩
  | cons place places ih => exact ⟨h.1, ih h.2⟩

theorem Visits.passes {tokens unread : List Token} {places : List (List Token)} (h : Visits tokens places unread) :
    Passes 0 tokens unread := by
  induction places generalizing tokens with
  | nil => exact h
  | cons place places ih => exact (h.1.trans (passes_recover place)).trans (ih h.2)

end Parser

/-- Where the errors are that end what they are in. -/
def Report.places (reports : List Report) : List (List Token) :=
  (reports.filter (·.error.isFatal)).map (·.unread)

theorem Report.places_append (first second : List Report) :
    Report.places (first ++ second) = Report.places first ++ Report.places second := by
  simp [places]

theorem Report.places_eq_nil {reports : List Report} (h : ∀ report ∈ reports, report.error.isFatal = false) :
    Report.places reports = [] := by
  simpa [places] using h

/-- The outcome stands behind all errors reported in it. -/
def Parse.Visits (tokens : List Token) : Parse α → Prop
  | .done _ unread reports | .failed unread reports _ => Parser.Visits tokens (Report.places reports) unread
  | .exhausted => True

theorem Parse.Visits.after {outcome : Parse α} {tokens rest : List Token} {reports : List Report}
    (hreports : Parser.Visits tokens (Report.places reports) rest) (h : outcome.Visits rest) :
    (outcome.after reports).Visits tokens := by
  cases outcome with
  | done value unread later =>
      change Parser.Visits _ (Report.places (reports ++ later)) _
      rw [Report.places_append]
      exact hreports.trans h
  | failed unread later cause =>
      change Parser.Visits _ (Report.places (reports ++ later)) _
      rw [Report.places_append]
      exact hreports.trans h
  | exhausted => trivial

namespace Parser

def Visiting (parser : Parser α) : Prop :=
  ∀ tokens, (parser tokens).Visits tokens

theorem visits_self (tokens : List Token) : Visits tokens [] tokens :=
  passes_self tokens

theorem visits_cons {token : Token} {tokens rest : List Token} (hnext : next? tokens = some (token, rest)) :
    Visits tokens [] rest := by
  obtain ⟨rfl, hend⟩ := next?_eq_some_iff.mp hnext
  exact (passes_self _).tail hend

theorem visiting_exhausted : Visiting (exhausted : Parser α) :=
  fun _ => trivial

theorem visiting_pure (value : α) : Visiting (pure value) :=
  visits_self

theorem visiting_bind {parser : Parser α} {next : α → Parser β} (hparser : Visiting parser)
    (hnext : ∀ value, Visiting (next value)) : Visiting (parser >>= next) := by
  intro tokens
  have hfirst := hparser tokens
  rw [bind_apply]
  cases hparse : parser tokens with
  | done value unread reports =>
      rw [hparse] at hfirst
      exact Parse.Visits.after hfirst (hnext value unread)
  | failed unread reports cause =>
      rw [hparse] at hfirst
      exact hfirst
  | exhausted => trivial

theorem visiting_map {parser : Parser α} (hparser : Visiting parser) (f : α → β) : Visiting (f <$> parser) := by
  rw [map_eq_pure_bind]
  exact visiting_bind hparser fun value => visiting_pure (f value)

theorem visiting_expect (kind : Kind) (expected : Expected) : Visiting (expect kind expected) := by
  intro tokens
  unfold expect
  split
  · next token rest hnext =>
      split
      · exact visits_cons hnext
      · exact visits_self tokens
  · exact visits_self tokens

theorem visiting_accept (kinds : Kind → Bool) : Visiting (accept kinds) := by
  intro tokens
  unfold accept
  split
  · next token rest hnext =>
      split
      · exact visits_cons hnext
      · exact visits_self tokens
  · exact visits_self tokens

theorem visiting_unlessSees {parser : Parser α} (hparser : Visiting parser) (kind : Kind) :
    Visiting (unlessSees kind parser) := by
  intro tokens
  unfold unlessSees
  split
  · exact visits_self tokens
  · exact visiting_map hparser some tokens

theorem visiting_iterate {turn : σ → Parser (Turn σ)} (hturn : ∀ state, Visiting (turn state)) (turns : Nat)
    (state : σ) : Visiting (iterate turn turns state) := by
  induction turns generalizing state with
  | zero => exact visiting_exhausted
  | succ turns ih =>
      rw [iterate_succ]
      refine visiting_bind (hturn state) fun next => ?_
      cases next with
      | again state => exact ih state
      | last state => exact visiting_pure state

theorem visiting_collecting {parser : Parser α} (hparser : Visiting parser) (stop : List Token → Bool)
    (collect : α → Option β) (read : Array β) : Visiting (collecting stop collect parser read) := by
  intro tokens
  unfold collecting
  split
  · exact visits_self tokens
  · exact visiting_map hparser _ tokens

theorem visiting_entries {item : Parser α} (hitem : Visiting item) (which : Entries) (turns : Nat) :
    Visiting (entries which item turns) := by
  have honeMore (read : Array α) : Visiting (oneMore item read) := by
    refine visiting_bind hitem fun value => visiting_bind (visiting_accept _) fun mark => ?_
    cases mark with
    | some mark => exact visiting_pure _
    | none => exact visiting_pure _
  have hentry (read : Array α) : Visiting (entry which item read) := by
    unfold entry
    split
    · -- The entry is one too many, which ends nothing.
      refine visiting_bind (fun tokens => visits_self tokens) fun place => ?_
      exact visiting_bind (fun tokens => visits_self tokens) fun _ => honeMore read
    · exact honeMore read
  refine visiting_bind (visiting_unlessSees (visiting_iterate hentry turns #[]) _) fun read => ?_
  cases read with
  | some read => exact visiting_pure _
  | none => exact visiting_pure _

/-- An expression has at most one error that ends it, which it fails with. -/
theorem visiting_expression (level : Nat) : Visiting (expression level) := by
  intro tokens
  by_cases hexhausted : expression level tokens = .exhausted
  · rw [hexhausted]
    trivial
  have hpasses := progresses_expression.passes tokens level
  have hlevel : 2 * tokens.length + 2 ≤ levels tokens := Nat.add_le_add_left (by decide) _
  have hsettles : Settles (fun error => error.isFatal = false) tokens.length (fun _ => 1)
      (expression (levels tokens)) :=
    settles_expression (fun _ => id) hlevel
  have hsettled := hsettles tokens (Nat.le_refl _)
  rw [← progresses_expression.same tokens level hexhausted] at hsettled
  cases hparse : expression level tokens with
  | done value unread reports =>
      rw [hparse] at hpasses hsettled
      obtain ⟨read, htokens, hread, -⟩ := hpasses
      change Visits _ (Report.places reports) _
      rw [Report.places_eq_nil hsettled.2.2]
      exact ⟨read, htokens, hread, Nat.zero_le _⟩
  | failed unread reports cause =>
      rw [hparse] at hpasses hsettled
      change Visits _ (Report.places reports) _
      rw [Report.places_eq_nil hsettled.2]
      exact hpasses
  | exhausted => trivial

/-! ### Statements -/

section Parts

variable {expression : Parser Expr} (hexpression : Visiting expression)

include hexpression

theorem visiting_condition (opening closing : Expected) : Visiting (condition expression opening closing) := by
  refine visiting_bind (visiting_expect _ _) fun _ => visiting_bind hexpression fun _ => ?_
  exact visiting_bind (visiting_expect _ _) fun _ => visiting_pure _

theorem visiting_expressionStatement : Visiting (expressionStatement expression) :=
  visiting_bind hexpression fun _ => visiting_bind (visiting_expect _ _) fun _ => visiting_pure _

theorem visiting_varDeclaration : Visiting (varDeclaration expression) := by
  refine visiting_bind (visiting_expect _ _) fun name => visiting_bind (visiting_accept _) fun mark => ?_
  cases mark with
  | some equals =>
      exact visiting_bind hexpression fun _ => visiting_bind (visiting_expect _ _) fun _ => visiting_pure _
  | none => exact visiting_bind (visiting_expect _ _) fun _ => visiting_pure _

theorem visiting_initializer : Visiting (initializer expression) := by
  refine visiting_bind (visiting_accept _) fun mark => ?_
  cases mark with
  | none => exact visiting_bind (visiting_expressionStatement hexpression) fun _ => visiting_pure _
  | some mark =>
      simp only
      split
      · exact visiting_pure _
      · exact visiting_bind (visiting_varDeclaration hexpression) fun _ => visiting_pure _

theorem visiting_print : Visiting (print expression) :=
  visiting_bind hexpression fun _ => visiting_bind (visiting_expect _ _) fun _ => visiting_pure _

theorem visiting_returned (keyword : Token) : Visiting (returned expression keyword) :=
  visiting_bind (visiting_unlessSees hexpression _) fun _ =>
    visiting_bind (visiting_expect _ _) fun _ => visiting_pure _

section Substatement

variable {statement : Parser Stmt} (hstatement : Visiting statement)

include hstatement

theorem visiting_conditional : Visiting (conditional expression statement) := by
  refine visiting_bind (visiting_condition hexpression _ _) fun _ => visiting_bind hstatement fun _ => ?_
  refine visiting_bind (visiting_accept _) fun mark => ?_
  cases mark with
  | some mark => exact visiting_bind hstatement fun _ => visiting_pure _
  | none => exact visiting_pure _

theorem visiting_loop : Visiting (loop expression statement) :=
  visiting_bind (visiting_condition hexpression _ _) fun _ => visiting_bind hstatement fun _ => visiting_pure _

theorem visiting_forLoop : Visiting (forLoop expression statement) := by
  refine visiting_bind (visiting_expect _ _) fun _ => visiting_bind (visiting_initializer hexpression) fun _ => ?_
  refine visiting_bind (visiting_unlessSees hexpression _) fun _ => visiting_bind (visiting_expect _ _) fun _ => ?_
  refine visiting_bind (visiting_unlessSees hexpression _) fun _ => visiting_bind (visiting_expect _ _) fun _ => ?_
  exact visiting_bind hstatement fun _ => visiting_pure _

end Substatement

end Parts

section Blocks

variable {block : Parser (List Stmt)} (hblock : Visiting block)

include hblock

theorem visiting_function (role : Role) (turns : Nat) : Visiting (function role block turns) := by
  refine visiting_bind (visiting_expect _ _) fun _ => visiting_bind (visiting_expect _ _) fun _ => ?_
  refine visiting_bind (visiting_entries (visiting_expect _ _) _ _) fun _ => ?_
  refine visiting_bind (visiting_expect _ _) fun _ => visiting_bind (visiting_expect _ _) fun _ => ?_
  exact visiting_bind hblock fun _ => visiting_pure _

theorem visiting_classDeclaration (turns : Nat) : Visiting (classDeclaration block turns) := by
  have hmethods : Visiting (iterate (method block turns) turns #[]) := by
    rw [method_eq_collecting]
    exact visiting_iterate (visiting_collecting (visiting_function hblock .method turns) closes some) turns #[]
  refine visiting_bind (visiting_expect _ _) fun _ => visiting_bind (visiting_expect _ _) fun _ => ?_
  exact visiting_bind hmethods fun _ => visiting_bind (visiting_expect _ _) fun _ => visiting_pure _

variable {expression : Parser Expr} (hexpression : Visiting expression) {statement : Parser Stmt}
  (hstatement : Visiting statement)

include hexpression hstatement

theorem visiting_statementOf : Visiting (statementOf expression statement block) := by
  intro tokens
  unfold statementOf
  split
  · exact visiting_expressionStatement hexpression tokens
  · next token rest hnext =>
      have htail {parser : Parser Stmt} (hparser : Visiting parser) : (parser rest).Visits tokens :=
        Parse.after_nil (parser rest) ▸ Parse.Visits.after (visits_cons hnext) (hparser rest)
      split
      · exact htail (visiting_conditional hexpression hstatement)
      · exact htail (visiting_loop hexpression hstatement)
      · exact htail (visiting_forLoop hexpression hstatement)
      · exact htail (visiting_print hexpression)
      · exact htail (visiting_returned hexpression token)
      · exact htail (visiting_map hblock Stmt.block)
      · exact visiting_expressionStatement hexpression tokens

theorem visiting_declarationOf (turns : Nat) : Visiting (declarationOf expression statement block turns) := by
  intro tokens
  unfold declarationOf
  split
  · exact hstatement tokens
  · next token rest hnext =>
      have htail {parser : Parser Stmt} (hparser : Visiting parser) : (parser rest).Visits tokens :=
        Parse.after_nil (parser rest) ▸ Parse.Visits.after (visits_cons hnext) (hparser rest)
      split
      · exact htail (visiting_classDeclaration hblock turns)
      · exact htail (visiting_map (visiting_function hblock .function turns) Stmt.function)
      · exact htail (visiting_varDeclaration hexpression)
      · exact hstatement tokens

end Blocks

/-- The place of the error that a parser fails with comes after those of the errors within, and is recovered from. -/
theorem visiting_recovering {parser : Parser α} (hparser : Visiting parser) : Visiting (recovering parser) := by
  intro tokens
  have hfirst := hparser tokens
  unfold recovering
  cases hparse : parser tokens with
  | done value unread reports =>
      rw [hparse] at hfirst
      exact hfirst
  | failed unread reports cause =>
      rw [hparse] at hfirst
      change Visits _ (Report.places (reports ++ [⟨unread, .missing cause⟩])) _
      rw [Report.places_append]
      exact Visits.trans hfirst ⟨passes_self unread, passes_self _⟩
  | exhausted => trivial

theorem visiting_block {declaration : Parser (Option Stmt)} (hdeclaration : Visiting declaration) (turns : Nat) :
    Visiting (block declaration turns) := by
  have hmembers : Visiting (iterate (member declaration) turns #[]) := by
    rw [member_eq_collecting]
    exact visiting_iterate (visiting_collecting hdeclaration closes id) turns #[]
  exact visiting_bind hmembers fun _ => visiting_bind (visiting_expect _ _) fun _ => visiting_pure _

/-- What a declaration is read by, before it recovers. -/
def attempt (level : Nat) : Parser Stmt :=
  declarationOf (expression level) (statement level) (block (declaration level) level) level

theorem declaration_succ (level : Nat) : declaration (level + 1) = recovering (attempt level) := by
  rw [declaration]
  rfl

theorem visiting_statement_declaration (level : Nat) :
    Visiting (statement level) ∧ Visiting (declaration level) := by
  induction level with
  | zero => exact ⟨visiting_exhausted, visiting_exhausted⟩
  | succ level ih =>
      obtain ⟨hstatement, hdeclaration⟩ := ih
      have hblock := visiting_block hdeclaration level
      exact ⟨visiting_statementOf hblock (visiting_expression level) hstatement,
        visiting_recovering (visiting_declarationOf hblock (visiting_expression level) hstatement level)⟩

theorem visiting_attempt (level : Nat) : Visiting (attempt level) :=
  visiting_declarationOf (visiting_block (visiting_statement_declaration level).2 level) (visiting_expression level)
    (visiting_statement_declaration level).1 level

theorem visiting_program (level : Nat) : Visiting (program level) := by
  have hloop : Visiting (iterate (topLevel (declaration level)) level #[]) := by
    rw [topLevel_eq_collecting]
    exact visiting_iterate (visiting_collecting (visiting_statement_declaration level).2 atEnd id) level #[]
  exact visiting_bind hloop fun _ => visiting_pure _

/-! ### Places by number -/

section Numbered

variable {tokens : List Token}

theorem unmarked_upToEnd (tokens : List Token) : Unmarked (upToEnd tokens) := by
  intro token htoken
  simpa using List.mem_takeWhile_imp htoken

theorem upToEnd_drop {place : Nat} (hplace : place ≤ (upToEnd tokens).length) :
    upToEnd (tokens.drop place) = (upToEnd tokens).drop place := by
  obtain ⟨rest, htokens, hend⟩ := exists_upToEnd tokens
  have hunmarked : Unmarked ((upToEnd tokens).drop place) := fun token htoken =>
    unmarked_upToEnd tokens token (List.mem_of_mem_drop htoken)
  calc
    upToEnd (tokens.drop place) = upToEnd ((upToEnd tokens).drop place ++ rest) := by
      rw [← List.drop_append_of_le_length hplace, ← htokens]
    _ = (upToEnd tokens).drop place := upToEnd_append hunmarked hend

theorem atEnd_iff_upToEnd {tokens : List Token} : atEnd tokens = true ↔ upToEnd tokens = [] := by
  cases tokens with
  | nil => simp [atEnd, next?, upToEnd]
  | cons token rest => by_cases hend : token.kind = .endMark <;> simp [atEnd, next?, upToEnd, hend]

/-- The list ends at one place of those up to its end. -/
theorem atEnd_drop_iff {place : Nat} (hplace : place ≤ (upToEnd tokens).length) :
    atEnd (tokens.drop place) = true ↔ place = (upToEnd tokens).length := by
  rw [atEnd_iff_upToEnd, upToEnd_drop hplace, List.drop_eq_nil_iff]
  exact ⟨Nat.le_antisymm hplace, fun heq => heq ▸ Nat.le_refl _⟩

theorem Passes.exists_drop {start : Nat} {unread : List Token} (h : Passes 0 (tokens.drop start) unread) :
    ∃ place, start ≤ place ∧ unread = tokens.drop place ∧
      (start ≤ (upToEnd tokens).length → place ≤ (upToEnd tokens).length) := by
  obtain ⟨read, hdrop, hread, -⟩ := h
  refine ⟨start + read.length, Nat.le_add_right _ _, ?_, fun hstart => ?_⟩
  · rw [← List.drop_drop, hdrop, List.drop_left]
  · have hrest := congrArg List.length (upToEnd_drop hstart)
    rw [hdrop, upToEnd_append_of_unmarked hread, List.length_append, List.length_drop] at hrest
    omega

theorem Resumes.le {place resume : Nat} (hplace : place ≤ (upToEnd tokens).length) (h : Resumes tokens place resume) :
    resume ≤ (upToEnd tokens).length ∧
      (place < resume ∨ place = (upToEnd tokens).length ∧ resume = (upToEnd tokens).length) := by
  unfold Resumes at h
  split at h
  · next hend =>
      rw [atEnd_drop_iff hplace] at hend
      exact ⟨h ▸ hplace, .inr ⟨hend, h.trans hend⟩⟩
  · next hend =>
      have hlt : place < (upToEnd tokens).length := by
        rw [atEnd_drop_iff hplace] at hend
        omega
      have hstop : Boundary tokens (upToEnd tokens).length := .inl ((atEnd_drop_iff (Nat.le_refl _)).mpr rfl)
      exact ⟨h.2 ⟨hlt, hstop⟩, .inl h.1.1⟩

/-- Places that a parser comes through increase, up to the end of the list. -/
theorem Visits.exists_places {start : Nat} (hstart : start ≤ (upToEnd tokens).length) {places : List (List Token)}
    {unread : List Token} (h : Visits (tokens.drop start) places unread) :
    ∃ numbers : List Nat, places = numbers.map tokens.drop ∧
      (∀ number ∈ numbers, start ≤ number ∧ number ≤ (upToEnd tokens).length) ∧
      numbers.Pairwise fun first second =>
        first < second ∨ first = (upToEnd tokens).length ∧ second = (upToEnd tokens).length := by
  induction places generalizing start with
  | nil => exact ⟨[], rfl, by simp, List.Pairwise.nil⟩
  | cons place places ih =>
      obtain ⟨number, hle, rfl, hstop⟩ := h.1.exists_drop
      obtain ⟨resume, hrecover, hresumes⟩ := exists_recover tokens number
      obtain ⟨hresume, hbehind⟩ := hresumes.le (hstop hstart)
      obtain ⟨numbers, rfl, hnumbers, hpairwise⟩ := ih hresume (hrecover ▸ h.2)
      refine ⟨number :: numbers, rfl, ?_, List.pairwise_cons.mpr ⟨fun later hlater => ?_, hpairwise⟩⟩
      · rw [List.forall_mem_cons]
        refine ⟨⟨hle, hstop hstart⟩, fun later hlater => ⟨?_, (hnumbers later hlater).2⟩⟩
        have := (hnumbers later hlater).1
        omega
      · have := hnumbers later hlater
        omega

end Numbered

/-! ### Recovery -/

theorem declaration_of_failed {level : Nat} {tokens unread : List Token} {reports : List Report} {cause : Expected}
    (hattempt : attempt level tokens = .failed unread reports cause) :
    declaration (level + 1) tokens = .done none (recover unread) (reports ++ [⟨unread, .missing cause⟩]) := by
  rw [declaration_succ, recovering, hattempt]

theorem diagnostics_filter_isFatal {tokens unread : List Token} {tree : List Stmt} {reports : List Report}
    (h : program (levels tokens) tokens = .done tree unread reports) :
    (parseProgram tokens).diagnostics.filter Diagnostic.isFatal =
      (reports.filter (·.error.isFatal)).map (·.diagnostic (lastLine tokens)) := by
  have hdiagnostics : (parseProgram tokens).diagnostics = reports.map (·.diagnostic (lastLine tokens)) := by
    rw [parseProgram, parse, h]
    rfl
  rw [hdiagnostics, List.filter_map]
  congr 2
  funext report
  exact report.isFatal_diagnostic _

/-- Where an attempt at a declaration fails, the loop over declarations that it is made in, and none further out, goes
on at the first boundary behind. The errors that end the declarations of a program stand one behind the other, except
at the end of the list. -/
theorem recovers_atBoundary (tokens : List Token) :
    (∀ level start unread reports cause, attempt level (tokens.drop start) = .failed unread reports cause →
      ∃ place resume, start ≤ place ∧ unread = tokens.drop place ∧ Resumes tokens place resume ∧
        declaration (level + 1) (tokens.drop start) =
          .done none (tokens.drop resume) (reports ++ [⟨tokens.drop place, .missing cause⟩]) ∧
        ∀ turns read,
          (atEnd (tokens.drop start) = false →
            iterate (topLevel (declaration (level + 1))) (turns + 1) read (tokens.drop start) =
              (iterate (topLevel (declaration (level + 1))) turns read (tokens.drop resume)).after
                (reports ++ [⟨tokens.drop place, .missing cause⟩])) ∧
          (closes (tokens.drop start) = false →
            iterate (member (declaration (level + 1))) (turns + 1) read (tokens.drop start) =
              (iterate (member (declaration (level + 1))) turns read (tokens.drop resume)).after
                (reports ++ [⟨tokens.drop place, .missing cause⟩]))) ∧
    ∃ unread reports, program (levels tokens) tokens = .done (parseProgram tokens).tree unread reports ∧
      (parseProgram tokens).diagnostics.filter Diagnostic.isFatal =
        (reports.filter (·.error.isFatal)).map (·.diagnostic (lastLine tokens)) ∧
      ∃ places : List Nat, Report.places reports = places.map tokens.drop ∧
        (∀ place ∈ places, place ≤ (upToEnd tokens).length) ∧
        places.Pairwise fun first second =>
          first < second ∨ first = (upToEnd tokens).length ∧ second = (upToEnd tokens).length := by
  constructor
  · intro level start unread reports cause hattempt
    have hvisits := visiting_attempt level (tokens.drop start)
    rw [hattempt] at hvisits
    obtain ⟨place, hplace, rfl, -⟩ := hvisits.passes.exists_drop
    obtain ⟨resume, hrecover, hresumes⟩ := exists_recover tokens place
    have hdeclaration := declaration_of_failed hattempt
    rw [hrecover] at hdeclaration
    exact ⟨place, resume, hplace, rfl, hresumes, hdeclaration, fun turns read =>
      ⟨fun hend => iterate_collecting_again id hend hdeclaration turns read,
        fun hcloses => iterate_collecting_again id hcloses hdeclaration turns read⟩⟩
  · have hends := progresses_program.ends tokens (levels tokens) (Nat.le_refl _)
    obtain ⟨tree, unread, reports, hread, -⟩ := program_atEnd hends
    have htree : (parseProgram tokens).tree = tree := by
      rw [parseProgram, parse, hread]
      rfl
    have hvisits := visiting_program (levels tokens) tokens
    rw [hread] at hvisits
    obtain ⟨places, hplaces, hstop, hpairwise⟩ := @Visits.exists_places tokens 0 (Nat.zero_le _) _ _ hvisits
    exact ⟨unread, reports, htree ▸ hread, diagnostics_filter_isFatal hread, places, hplaces,
      fun place hplace => (hstop place hplace).2, hpairwise⟩

/-- A block with a variable that lacks its name before a statement to print nothing. -/
def unnamedVar : List Token :=
  [{ kind := .leftBrace, lexeme := "\x7b", literal := .none, line := 1 },
    { kind := .varWord, lexeme := "var", literal := .none, line := 1 },
    { kind := .printWord, lexeme := "print", literal := .none, line := 1 },
    { kind := .semicolon, lexeme := ";", literal := .none, line := 1 },
    { kind := .rightBrace, lexeme := "\x7d", literal := .none, line := 1 }, .closing 1]

/-- The word that stands for the name is not read again, although it begins a statement. -/
theorem recovers_atBoundary_behind_word :
    attempt 9 (unnamedVar.drop 1) = .failed (unnamedVar.drop 2) [] .variableName ∧
      Resumes unnamedVar 2 4 ∧
      iterate (member (declaration 10)) 2 #[] (unnamedVar.drop 1) =
        .done #[] (unnamedVar.drop 4) [⟨unnamedVar.drop 2, .missing .variableName⟩] := by
  have hattempt : attempt 9 (unnamedVar.drop 1) = .failed (unnamedVar.drop 2) [] .variableName := by rfl
  obtain ⟨place, resume, -, hplace, hresumes, -, hloops⟩ := (recovers_atBoundary unnamedVar).1 9 1 _ _ _ hattempt
  obtain rfl : place = 2 := by
    have hlength := congrArg List.length hplace
    simp only [unnamedVar, List.length_drop, List.length_cons, List.length_nil] at hlength
    omega
  obtain rfl : resume = 4 := by
    have hleast : IsLeast {later | 2 < later ∧ Boundary unnamedVar later} resume := hresumes
    have hle : resume ≤ 4 := hleast.2 (show 2 < 4 ∧ Boundary unnamedVar 4 by decide)
    have hthree : ¬ Boundary unnamedVar 3 := by decide
    have hne : resume ≠ 3 := fun heq => hthree (heq ▸ hleast.1.2)
    have hlt : 2 < resume := hleast.1.1
    omega
  exact ⟨hattempt, hresumes, ((hloops 1 #[]).2 rfl).trans rfl⟩

end Parser

end Script
