import Script.Proofs.Alike.Statement
import Script.Proofs.Desugaring.Direct
import Script.Proofs.Grammar.Tokens
import Script.Proofs.Parser.Settling.Statement

/-!
# Progress of the parser

The parser comes to an end on every list of tokens, well formed or not. A loop that goes on has read
something in its last turn, or fails, and no end mark is ever read, so that a list without one ends where
its tokens do.

`Settles` says this much where the levels of nesting are enough. With fewer levels a parser reads the same as
with more, as far as it gets (`simulates_expression`, `simulates_program`). So what it reads with levels
enough is what it reads at all.
-/

namespace Script

open Grammar

variable {α σ : Type}

namespace Parser

/-- What is unread of a list, behind so many tokens at least, none of which is an end mark. -/
def Passes (least : Nat) (tokens unread : List Token) : Prop :=
  ∃ read, tokens = read ++ unread ∧ Unmarked read ∧ least ≤ read.length

theorem passes_self (tokens : List Token) : Passes 0 tokens tokens :=
  ⟨[], rfl, unmarked_nil, Nat.le_refl 0⟩

theorem Passes.tail {tokens rest : List Token} {token : Token} (h : Passes 0 tokens (token :: rest))
    (hend : token.kind ≠ .endMark) : Passes 0 tokens rest := by
  obtain ⟨read, rfl, hread, -⟩ := h
  exact ⟨read ++ [token], by simp, by simp [hread, hend], Nat.zero_le _⟩

theorem Passes.of_length {tokens unread : List Token} (h : Passes 0 tokens unread) {least : Nat}
    (hlength : unread.length + least ≤ tokens.length) : Passes least tokens unread := by
  obtain ⟨read, rfl, hread, -⟩ := h
  rw [List.length_append] at hlength
  exact ⟨read, rfl, hread, by omega⟩

end Parser

/-- What an outcome leaves unread. -/
def Parse.Passes (least : α → Nat) (tokens : List Token) : Parse α → Prop
  | .done value unread _ => Parser.Passes (least value) tokens unread
  | .failed unread _ _ => Parser.Passes 0 tokens unread
  | .exhausted => True

namespace Parser

/-! ### The same at every level -/

/-- One list twice, the rest of another of which no end mark has been read. -/
def RestOf (tokens near far : List Token) : Prop :=
  near = far ∧ Passes 0 tokens near

section RestOf

variable {tokens : List Token}

theorem tracks_restOf (tokens : List Token) : Tracks .same (RestOf tokens) := by
  refine tracks_of_cons ?_
  rintro near _ ⟨rfl, hpasses⟩
  cases near with
  | nil => exact .inl ⟨rfl, rfl⟩
  | cons token rest =>
      have htwin : token.Twin .same token := ⟨rfl, fun _ => rfl, fun _ _ => rfl⟩
      exact .inr ⟨token, token, rest, rest, rfl, rfl, htwin, fun hend => ⟨rfl, hpasses.tail hend⟩⟩

theorem through_restOf : Through (RestOf tokens) := by
  rintro near far ⟨stop, stop', hstop, heq, hpasses⟩
  exact ⟨(List.cons.inj heq).2, hpasses.tail (by rw [hstop]; decide)⟩

theorem eq_of_alike_restOf {outcome outcome' : Parse α}
    (h : Parse.Alike (RestOf tokens) (RestOf tokens) Eq outcome outcome') (hends : outcome ≠ .exhausted)
    (hends' : outcome' ≠ .exhausted) : outcome = outcome' := by
  have hsame {reports reports' : List Report}
      (hreports : List.Forall₂ (Report.Alike (RestOf tokens)) reports reports') : reports = reports' := by
    rw [← List.forall₂_eq_eq_eq]
    refine hreports.imp fun report report' hreport => ?_
    obtain ⟨unread, error⟩ := report
    obtain ⟨unread', error'⟩ := report'
    obtain ⟨rfl, rfl, -⟩ := hreport
    rfl
  cases outcome <;> cases outcome' <;> try contradiction
  · obtain ⟨rfl, ⟨rfl, -⟩, hreports⟩ := h
    rw [hsame hreports]
  · obtain ⟨rfl, ⟨rfl, -⟩, hreports⟩ := h
    rw [hsame hreports]

end RestOf

/-- A parser that is given levels of nesting: those for the list are enough, fewer make no difference but
that they may run out, and it reads no end mark. -/
structure Progresses (least : α → Nat) (parser : Nat → Parser α) : Prop where
  ends : ∀ tokens level, levels tokens ≤ level → parser level tokens ≠ .exhausted
  same : ∀ tokens level, parser level tokens ≠ .exhausted →
    parser level tokens = parser (levels tokens) tokens
  passes : ∀ tokens level, (parser level tokens).Passes least tokens

theorem progresses_of_settles {least : α → Nat} {parser : Nat → Parser α}
    (hsettles : ∀ level size, 2 * size + 4 ≤ level →
      Settles (fun _ => True) size least (parser level))
    (hsimulates : ∀ tokens level level',
      Simulates (RestOf tokens) (RestOf tokens) Eq (parser level) (parser level')) :
    Progresses least parser := by
  have hsettled (tokens : List Token) {level : Nat} (hlevel : levels tokens ≤ level) :
      (parser level tokens).Settled (fun _ => True) least tokens :=
    hsettles level tokens.length hlevel tokens (Nat.le_refl _)
  have hends (tokens : List Token) {level : Nat} (hlevel : levels tokens ≤ level) :
      parser level tokens ≠ .exhausted := by
    intro hexhausted
    have hfalse := hsettled tokens hlevel
    rwa [hexhausted] at hfalse
  have halike (tokens : List Token) (level : Nat) :=
    hsimulates tokens level (levels tokens) tokens tokens ⟨rfl, passes_self tokens⟩
  refine ⟨fun tokens level hlevel => hends tokens hlevel, fun tokens level hlevel => ?_,
    fun tokens level => ?_⟩
  · exact eq_of_alike_restOf (halike tokens level) hlevel (hends tokens (Nat.le_refl _))
  · -- Up to which point it reads is told by the levels that are enough, that no end mark is read by both.
    have hsettled := hsettled tokens (Nat.le_refl _)
    have halike := halike tokens level
    cases hlow : parser level tokens <;> cases hhigh : parser (levels tokens) tokens <;>
      rw [hlow, hhigh] at halike <;> rw [hhigh] at hsettled <;> try trivial
    · obtain ⟨rfl, ⟨rfl, hpasses⟩, -⟩ := halike
      exact hpasses.of_length hsettled.2.1
    · exact halike.2.1.2

/-! ### Expressions -/

theorem Turn.eq_of_alike {S : σ → σ → Prop} (hstate : ∀ state state', S state state' → state = state')
    {turn turn' : Turn σ} (h : Turn.Alike S turn turn') : turn = turn' := by
  cases h with
  | again h => rw [hstate _ _ h]
  | last h => rw [hstate _ _ h]

theorem Entrywise.eq {V : α → α → Prop} (hvalue : ∀ value value', V value value' → value = value')
    {read read' : Array α} (h : Entrywise V read read') : read = read' := by
  apply Array.toList_inj.mp
  rw [← List.forall₂_eq_eq_eq]
  exact h.imp hvalue

section Same

variable {tokens : List Token}

theorem same_expression (level level' : Nat) :
    Simulates (RestOf tokens) (RestOf tokens) Eq (expression level) (expression level') :=
  (simulates_expression (tracks_restOf tokens) level level').mono (fun _ _ => id) fun _ _ => Expr.eq_of_like

theorem same_operation (rank : Level) (tighter : List Level) (left : Expr) (level level' : Nat) :
    Simulates (RestOf tokens) (RestOf tokens) Eq (operation rank (chains (unary level) level tighter) left)
      (operation rank (chains (unary level') level' tighter) left) := by
  have hunary := (simulates_expression_unary (tracks_restOf tokens) level level').2
  have hoperand := simulates_chains (tracks_restOf tokens) hunary level level' tighter
  have hleft : Expr.Like .same left left := left.like_self fun _ _ => rfl
  exact (simulates_operation (tracks_restOf tokens) hoperand rank hleft).mono (fun _ _ => id)
    fun _ _ => Turn.eq_of_alike fun _ _ => Expr.eq_of_like

theorem same_suffix (callee : Expr) (level level' : Nat) :
    Simulates (RestOf tokens) (RestOf tokens) Eq (suffix (expression level) level callee)
      (suffix (expression level') level' callee) := by
  have hexpression := simulates_expression (tracks_restOf tokens) level level'
  have hcallee : Expr.Like .same callee callee := callee.like_self fun _ _ => rfl
  exact (simulates_suffix (tracks_restOf tokens) hexpression level level' hcallee).mono (fun _ _ => id)
    fun _ _ => Turn.eq_of_alike fun _ _ => Expr.eq_of_like

theorem same_entry {item item' : Parser α}
    (hitem : Simulates (RestOf tokens) (RestOf tokens) Eq item item') (which : Entries) (read : Array α) :
    Simulates (RestOf tokens) (RestOf tokens) Eq (entry which item read) (entry which item' read) := by
  have hread : Entrywise Eq read read := by
    unfold Entrywise
    rw [List.forall₂_eq_eq_eq]
  exact (simulates_entry (tracks_restOf tokens) hitem which hread).mono (fun _ _ => id)
    fun _ _ => Turn.eq_of_alike fun _ _ => Entrywise.eq fun _ _ => id

theorem same_expect (kind : Kind) (expected : Expected) :
    Simulates (RestOf tokens) (RestOf tokens) Eq (expect kind expected) (expect kind expected) :=
  (simulates_expect (tracks_restOf tokens) (.inr through_restOf) expected).mono (fun _ _ => id)
    fun _ _ h => h.2.matching .mark trivial

end Same

theorem progresses_expression : Progresses (fun _ => 1) expression :=
  progresses_of_settles (fun _ _ hlevel => settles_expression (fun _ _ => trivial) (by omega))
    fun _ => same_expression

theorem progresses_argument (read : Array Expr) :
    Progresses (fun _ => 1) fun level => entry .arguments (expression level) read :=
  progresses_of_settles
    (fun _ _ hlevel => settles_entry trivial (settles_expression (fun _ _ => trivial) (by omega)) read)
    fun _ level level' => same_entry (same_expression level level') .arguments read

theorem progresses_parameter (read : Array Token) :
    Progresses (fun _ => 1) fun _ => entry .parameters (expect .identifier .parameterName) read :=
  progresses_of_settles (fun _ _ _ => settles_entry trivial (settles_expect _ _) read)
    fun _ _ _ => same_entry (same_expect _ _) .parameters read

/-! ### Loops -/

/-- A loop takes a turn as long as its guard holds, which reads something and calls for another turn, or fails.
It ends with a turn that reads nothing. -/
structure Headway (guard : List Token → Bool) (turn : Nat → σ → Parser (Turn σ)) : Prop where
  progresses : ∀ state, Progresses Turn.least fun level => turn level state
  goesOn : ∀ tokens, guard tokens = true → ∀ level state next unread reports,
    turn level state tokens = .done next unread reports → ∃ later, next = .again later
  stops : ∀ tokens, guard tokens = false → ∀ level state,
    turn level state tokens = .done (.last state) tokens []

/-- Loops that go on with a token of some kinds. -/
theorem headway_of_accept {kinds : Kind → Bool} {rest : Nat → σ → Option Token → Parser (Turn σ)}
    (hprogresses : ∀ state, Progresses Turn.least fun level => accept kinds >>= rest level state)
    (hsome : ∀ level state token, (rest level state (some token)).Gives fun next => ∃ later, next = .again later)
    (hnone : ∀ level state, rest level state none = pure (.last state)) :
    Headway (heads kinds) fun level state => accept kinds >>= rest level state := by
  refine ⟨hprogresses, fun tokens hguard level state => ?_, fun tokens hguard level state => ?_⟩
  · obtain ⟨token, behind, hread⟩ : ∃ token behind, accept kinds tokens = .done (some token) behind [] := by
      obtain ⟨⟨token, behind⟩, hnext, hkind⟩ := (Option.any_eq_true _ _).mp hguard
      exact ⟨token, behind, by simp [accept, hnext, hkind]⟩
    intro next unread reports hturn
    rw [bind_of_reading hread] at hturn
    exact hsome level state token _ _ _ _ hturn
  · simp only [bind_of_reading (accept_of_not_heads hguard), hnone, pure_apply]

theorem headway_operation (rank : Level) (tighter : List Level) :
    Headway (heads rank.has) fun level => operation rank (chains (unary level) level tighter) := by
  refine headway_of_accept (fun left => ?_) (fun level left operator => ?_) fun _ _ => rfl
  · refine progresses_of_settles (fun level size hlevel => ?_) fun _ => same_operation rank tighter left
    have hunary : Settles (fun _ => True) size (fun _ => 1) (unary level) :=
      (settles_expression_unary trivial trivial level).2 size (by omega)
    exact settles_operation (settles_chains hunary (by omega) tighter) rank left
  · exact (gives_any _).bind fun right _ => gives_pure ⟨_, rfl⟩

theorem headway_suffix :
    Headway (heads fun kind => kind == .leftParen || kind == .dot) fun level => suffix (expression level) level := by
  refine headway_of_accept (fun callee => ?_) (fun level callee mark => ?_) fun _ _ => rfl
  · refine progresses_of_settles (fun level size hlevel => ?_) fun _ => same_suffix callee
    refine settles_suffix (fun smaller hsmaller => ?_) trivial (by omega) callee
    exact settles_expression (fun _ _ => trivial) (by omega)
  · simp only
    split
    · exact (gives_any _).bind fun name _ => gives_pure ⟨_, rfl⟩
    · exact (gives_any _).bind fun arguments _ => (gives_any _).bind fun paren _ => gives_pure ⟨_, rfl⟩

/-- Loops that collect what they read up to their end. -/
theorem headway_collecting {stop : List Token → Bool} (hstop : ∀ tokens, atEnd tokens = true → stop tokens = true)
    {collect : α → Option σ} {parser : Nat → Parser α}
    (hadvances : ∀ level size, 2 * size + 4 ≤ level → Advances (fun _ => True) size (parser level))
    (hsame : ∀ tokens level level', Simulates (RestOf tokens) (RestOf tokens) Eq (parser level) (parser level')) :
    Headway (fun tokens => !stop tokens) fun level => collecting stop collect (parser level) := by
  refine ⟨fun read => ?_, fun tokens hguard level read next unread reports hturn => ?_,
    fun tokens hguard level read => ?_⟩
  · refine progresses_of_settles (fun level size hlevel => settles_collecting hstop (hadvances level size hlevel) read)
      fun tokens level level' => ?_
    refine Simulates.mono (simulates_collecting (S := Eq) (V := Eq) ?_ collect ?_ ?_ (hsame tokens level level') rfl)
      (fun _ _ => id) fun _ _ => Turn.eq_of_alike fun _ _ => id
    · rintro _ _ ⟨rfl, -⟩
      rfl
    · rintro value _ rfl
      generalize collect value = entry?
      cases entry? with
      | none => exact .none
      | some entry => exact .some rfl
    · rintro _ _ _ _ rfl rfl
      rfl
  · have hgo : stop tokens = false := by simpa using hguard
    rw [collecting, hgo, if_neg Bool.false_ne_true] at hturn
    have hagain : ((fun value => Turn.again ((collect value).elim read read.push)) <$> parser level).Gives
        fun next => ∃ later, next = .again later :=
      (gives_any (parser level)).map fun value _ => ⟨_, rfl⟩
    exact hagain _ _ _ _ hturn
  · have hend : stop tokens = true := by simpa using hguard
    rw [collecting, hend, if_pos rfl]

section Same

variable {tokens : List Token}

theorem same_declaration (level level' : Nat) :
    Simulates (RestOf tokens) (RestOf tokens) Eq (declaration level) (declaration level') :=
  (simulates_statement_declaration (tracks_restOf tokens) through_restOf level level').2.mono (fun _ _ => id)
    fun tree? _ => Stmt.eq_of_optionLike tree?

theorem same_method (level level' : Nat) :
    Simulates (RestOf tokens) (RestOf tokens) Eq (function .method (block (declaration level) level) level)
      (function .method (block (declaration level') level') level') := by
  have hdeclaration := (simulates_statement_declaration (tracks_restOf tokens) through_restOf level level').2
  have hblock := simulates_block (tracks_restOf tokens) hdeclaration level level'
  exact (simulates_function (tracks_restOf tokens) hblock .method level level').mono (fun _ _ => id)
    fun method _ => method.eq_of_like

theorem same_program (level level' : Nat) :
    Simulates (RestOf tokens) (RestOf tokens) Eq (program level) (program level') :=
  (simulates_program (tracks_restOf tokens) through_restOf level level').mono (fun _ _ => id)
    fun tree _ => Stmt.eq_of_listLike tree

end Same

theorem advances_declaration {level size : Nat} (hlevel : 2 * size + 4 ≤ level) :
    Advances (fun _ => True) size (declaration level) :=
  (settles_statement_declaration (fun _ => trivial) level).2 size hlevel

theorem closes_of_atEnd (tokens : List Token) (hend : atEnd tokens = true) : closes tokens = true := by
  simp [closes, hend]

theorem headway_topLevel : Headway (fun tokens => !atEnd tokens) fun level => topLevel (declaration level) :=
  headway_collecting (fun _ => id) (fun _ _ => advances_declaration) fun _ => same_declaration

theorem headway_member : Headway (fun tokens => !closes tokens) fun level => member (declaration level) :=
  headway_collecting closes_of_atEnd (fun _ _ => advances_declaration) fun _ => same_declaration

theorem headway_method :
    Headway (fun tokens => !closes tokens) fun level => method (block (declaration level) level) level := by
  simp only [method_eq_collecting]
  refine headway_collecting closes_of_atEnd (fun level size hlevel => ?_) fun _ => same_method
  have hblock := settles_block (advances_declaration hlevel) (show size < level by omega)
  exact (settles_function hblock trivial (by omega) .method).advances

theorem progresses_program : Progresses (fun _ => 0) program :=
  progresses_of_settles (fun _ _ hlevel => settles_program (fun _ => trivial) hlevel) fun _ => same_program

/-! ### Recovery -/

/-- Reading goes on after the error that a declaration fails with. -/
theorem declaration_ne_failed (level : Nat) (tokens unread : List Token) (reports : List Report) (cause : Expected) :
    declaration level tokens ≠ .failed unread reports cause := by
  cases level with
  | zero => exact fun h => nomatch h
  | succ level =>
      intro h
      unfold declaration recovering at h
      split at h <;> cases h

theorem collecting_ne_failed {β : Type} {stop : List Token → Bool} {collect : α → Option β} {parser : Parser α}
    (hparser : ∀ tokens unread reports cause, parser tokens ≠ .failed unread reports cause) (read : Array β)
    (tokens unread : List Token) (reports : List Report) (cause : Expected) :
    collecting stop collect parser read tokens ≠ .failed unread reports cause := by
  intro h
  unfold collecting at h
  split at h
  · cases h
  · rw [map_eq_pure_bind, bind_apply] at h
    split at h
    · cases h
    · next hread => exact hparser _ _ _ _ hread
    · cases h

/-- The loop over the declarations of a program goes up to the end of the list. -/
theorem iterate_topLevel_atEnd {level turns : Nat} {read : Array Stmt} {tokens : List Token}
    (hends : iterate (topLevel (declaration level)) turns read tokens ≠ .exhausted) :
    ∃ final unread reports, iterate (topLevel (declaration level)) turns read tokens = .done final unread reports ∧
      atEnd unread = true := by
  rw [topLevel_eq_collecting] at hends ⊢
  induction turns generalizing read tokens with
  | zero => exact absurd rfl hends
  | succ turns ih =>
      by_cases hend : atEnd tokens = true
      · exact ⟨read, tokens, [], iterate_collecting_last id (declaration level) hend turns read, hend⟩
      have hgo : atEnd tokens = false := Bool.eq_false_iff.mpr hend
      cases hread : declaration level tokens with
      | done tree? rest reports =>
          rw [iterate_collecting_again id hgo hread turns read] at hends ⊢
          have hrest : iterate (collecting atEnd id (declaration level)) turns
              ((id tree?).elim read read.push) rest ≠ .exhausted := by
            intro hexhausted
            rw [hexhausted] at hends
            exact hends rfl
          obtain ⟨final, unread, later, hloop, hatEnd⟩ := ih hrest
          exact ⟨final, unread, reports ++ later, by rw [hloop, Parse.after_done], hatEnd⟩
      | failed => exact absurd hread (declaration_ne_failed _ _ _ _ _)
      | exhausted =>
          refine absurd ?_ hends
          rw [iterate_succ, bind_apply, collecting, hgo, if_neg Bool.false_ne_true, map_eq_pure_bind, bind_apply, hread]

theorem program_atEnd {level : Nat} {tokens : List Token} (hends : program level tokens ≠ .exhausted) :
    ∃ tree unread reports, program level tokens = .done tree unread reports ∧ atEnd unread = true := by
  rw [program, bind_apply] at hends ⊢
  have hloop : iterate (topLevel (declaration level)) level #[] tokens ≠ .exhausted := by
    intro hexhausted
    rw [hexhausted] at hends
    exact hends rfl
  obtain ⟨final, unread, reports, hread, hatEnd⟩ := iterate_topLevel_atEnd hloop
  rw [hread]
  exact ⟨final.toList, unread, reports ++ [], rfl, hatEnd⟩

/-- The parser comes back from every list of tokens, and has read a program up to the end of the list. A turn of a
loop reads something, unless it is the last one or fails; those over declarations do not fail. No end mark is
read. -/
theorem progresses_onEveryList :
    (Progresses (fun _ => 0) program ∧ ∀ tokens level, levels tokens ≤ level → ∃ unread reports,
      program level tokens = .done (parseProgram tokens).tree unread reports ∧ atEnd unread = true) ∧
    (Progresses (fun _ => 1) expression ∧ ∀ tokens level, levels tokens ≤ level →
      (expression level tokens).value? = (parseExpression tokens).tree) ∧
    (Headway (fun tokens => !atEnd tokens) (fun level => topLevel (declaration level)) ∧
      ∀ level read tokens unread reports cause,
        topLevel (declaration level) read tokens ≠ .failed unread reports cause) ∧
    (Headway (fun tokens => !closes tokens) (fun level => member (declaration level)) ∧
      ∀ level read tokens unread reports cause,
        member (declaration level) read tokens ≠ .failed unread reports cause) ∧
    Headway (fun tokens => !closes tokens) (fun level => method (block (declaration level) level) level) ∧
    (∀ read, Progresses (fun _ => 1) fun _ => entry .parameters (expect .identifier .parameterName) read) ∧
    (∀ read, Progresses (fun _ => 1) fun level => entry .arguments (expression level) read) ∧
    Headway (heads fun kind => kind == .leftParen || kind == .dot) (fun level => suffix (expression level) level) ∧
    ∀ rank tighter, Headway (heads rank.has) fun level => operation rank (chains (unary level) level tighter) := by
  refine ⟨⟨progresses_program, fun tokens level hlevel => ?_⟩, ⟨progresses_expression, fun tokens level hlevel => ?_⟩,
    ⟨headway_topLevel, fun level => collecting_ne_failed (declaration_ne_failed level)⟩,
    ⟨headway_member, fun level => collecting_ne_failed (declaration_ne_failed level)⟩, headway_method,
    progresses_parameter, progresses_argument, headway_suffix, headway_operation⟩
  · have hends := progresses_program.ends tokens level hlevel
    obtain ⟨tree, unread, reports, hread, hatEnd⟩ := program_atEnd hends
    have htree : (parseProgram tokens).tree = tree := by
      rw [parseProgram, parse, ← progresses_program.same tokens level hends, hread]
      rfl
    exact ⟨unread, reports, htree ▸ hread, hatEnd⟩
  · rw [progresses_expression.same tokens level (progresses_expression.ends tokens level hlevel)]
    rfl

/-- A brace that closes nothing, and a name behind the end. -/
def strayBrace : List Token :=
  [{ kind := .rightBrace, lexeme := "\x7d", literal := .none, line := 1 }, .closing 1,
    { kind := .identifier, lexeme := "unseen", literal := .none, line := 2 }]

/-- The brace is passed over, the end mark and the name are not. -/
theorem progresses_onEveryList_past_brace :
    levels strayBrace ≤ 10 ∧ (parseProgram strayBrace).tree = [] ∧
      (∃ unread reports, program 10 strayBrace = .done (parseProgram strayBrace).tree unread reports ∧
        atEnd unread = true) ∧
      (topLevel (declaration 10) #[] strayBrace).Passes Turn.least strayBrace ∧
      ∃ read, topLevel (declaration 10) read strayBrace =
        .done (.again read) strayBrace.tail [⟨strayBrace, .missing .expression⟩] := by
  have hlevel : levels strayBrace ≤ 10 := by decide
  refine ⟨hlevel, by rfl, progresses_onEveryList.1.2 strayBrace 10 hlevel,
    (progresses_onEveryList.2.2.1.1.progresses #[]).passes strayBrace 10, #[], ?_⟩
  rfl

end Parser

end Script
