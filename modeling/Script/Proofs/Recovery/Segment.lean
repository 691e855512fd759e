import Script.Proofs.Parser.Settling.Statement
import Script.Proofs.Grammar
import Script.Proofs.Alike.Statement

/-!
# Segments

A segment is any row of tokens that ends with its only semicolon and in which no statement could begin,
except at its start. A segment is one declaration to the parser, well formed or not: reading goes on
exactly behind it, and what comes of it does not depend on what follows.
-/

namespace Script

open Grammar Script.Parser

/-- The kinds of token that may stand anywhere in a segment before its semicolon. -/
def Kind.isInner : Kind → Bool
  | .semicolon | .leftBrace | .rightBrace | .endMark => false
  | kind => !kind.beginsStatement

/-- The kinds of token that may stand at the start of a segment. -/
def Kind.opensSegment : Kind → Bool
  | .varWord | .printWord | .returnWord => true
  | kind => kind.isInner

structure Segment where
  body : List Token
  stop : Word .semicolon
  opens : ∀ token ∈ body.head?, token.kind.opensSegment = true
  inner : ∀ token ∈ body.tail, token.kind.isInner = true

theorem Kind.opensSegment_of_isInner {kind : Kind} (h : kind.isInner = true) :
    kind.opensSegment = true := by
  cases kind <;> first | rfl | cases h

/-- Whether an error ends what it is in. It can be told from the message. -/
def Diagnostic.isFatal (diagnostic : Diagnostic) : Bool :=
  [SyntaxError.assignmentTarget, .tooMany .parameters, .tooMany .arguments].all
    fun error => diagnostic.message != error.message

theorem Report.isFatal_diagnostic (report : Report) (line : Nat) :
    (report.diagnostic line).isFatal = report.error.isFatal := by
  have hmessage (diagnostic : Diagnostic) (error : SyntaxError)
      (h : diagnostic.message = error.message) : diagnostic.isFatal = error.isFatal := by
    unfold Diagnostic.isFatal
    rw [h]
    cases error with
    | missing expected =>
        cases expected with
        | name role | parametersOpening role | bodyOpening role => cases role <;> decide
        | _ => decide
    | tooMany entries => cases entries <;> decide
    | assignmentTarget => decide
  exact hmessage _ _ rfl

theorem Report.countP_isFatal (reports : List Report) (line : Nat) :
    (reports.map (·.diagnostic line)).countP Diagnostic.isFatal =
      reports.countP (·.error.isFatal) := by
  rw [List.countP_map]
  congr 1
  funext report
  exact report.isFatal_diagnostic line

/-! ### What a segment is read by -/

namespace Parser

/-- Tells apart the statements that end with a semicolon. -/
def simple (expression : Parser Expr) : Parser Stmt :=
  fun tokens =>
    match next? tokens with
    | none => expressionStatement expression tokens
    | some (token, rest) =>
      match token.kind with
      | .varWord => varDeclaration expression rest
      | .printWord => print expression rest
      | .returnWord => returned expression token rest
      | _ => expressionStatement expression tokens

theorem declaration_eq_simple {token : Token}
    (htoken : token.kind.opensSegment = true ∨ token.kind = .semicolon) (level : Nat)
    (rest : List Token) : ∃ nested, level ≤ nested ∧
      declaration (level + 2) (token :: rest) =
        recovering (simple (expression nested)) (token :: rest) := by
  have hend : token.kind ≠ .endMark := by
    intro hend
    rw [hend] at htoken
    rcases htoken with htoken | htoken <;> cases htoken
  by_cases hvar : token.kind = .varWord
  · refine ⟨level + 1, Nat.le_add_right _ _, ?_⟩
    simp only [declaration, recovering, declarationOf, simple, next?_cons hend, hvar]
  · refine ⟨level, Nat.le_refl _, ?_⟩
    simp only [declaration, recovering, declarationOf, statement, statementOf, simple, next?_cons hend]
    generalize token.kind = kind at htoken hvar
    cases kind <;> first | rfl | exact absurd rfl hvar | (rcases htoken with h | h <;> cases h)

theorem settles_simple {quiet : SyntaxError → Prop} {size : Nat} {expression : Parser Expr}
    (hexpression : Settles quiet size (fun _ => 1) expression) :
    Settles quiet size (fun _ => 0) (simple expression) := by
  intro tokens htokens
  unfold simple
  split
  · exact (settles_expressionStatement hexpression).weaken (Nat.le_refl _) tokens htokens
  · next token rest hnext =>
      obtain ⟨rfl, -⟩ := next?_eq_some_iff.mp hnext
      rw [List.length_cons] at htokens
      have hinner : Settles quiet rest.length (fun _ => 1) expression :=
        hexpression.mono (by omega) fun _ => Nat.le_refl 1
      have htail {parser : Parser Stmt} (hparser : Settles quiet rest.length (fun _ => 0) parser) :
          (parser rest).Settled quiet (fun _ => 0) (token :: rest) :=
        settled_cons (hparser rest (Nat.le_refl _)) token fun _ => Nat.zero_le 1
      split
      · exact htail (settles_varDeclaration hinner)
      · exact htail (settles_print hinner)
      · exact htail (settles_returned hinner token)
      · exact (settles_expressionStatement hexpression).weaken (Nat.le_refl _) (token :: rest) htokens

theorem simulates_simple {T : Matching} {along : List Token → List Token → Prop}
    (htracks : Tracks T along) {expression expression' : Parser Expr}
    (hexpression : Simulates along along (Expr.Like T) expression expression') :
    Simulates along (past along) (Stmt.Like T) (simple expression) (simple expression') := by
  intro near far halong
  unfold simple
  rcases htracks near far halong with ⟨hnear, hfar⟩ |
    ⟨token, token', near', far', rfl, rfl, hend, htwin, hbehind⟩
  · rw [hnear, hfar]
    exact simulates_expressionStatement htracks hexpression near far halong
  rw [next?_cons hend, next?_cons (htwin.kind ▸ hend)]
  simp only
  rw [htwin.kind]
  split
  · next hkind =>
      exact simulates_varDeclaration htracks hexpression _ _ (hbehind (by rw [hkind]; decide))
  · next hkind => exact simulates_print htracks hexpression _ _ (hbehind (by rw [hkind]; decide))
  · next hkind =>
      exact simulates_returned htracks hexpression (htwin.matching .mark trivial) _ _
        (hbehind (by rw [hkind]; decide))
  · exact simulates_expressionStatement htracks hexpression _ _ halong

/-! ### Recovery -/

/-- A failure adds the one fatal error there is. -/
theorem exists_recovering {α : Type} {parser : Parser α} {least : α → Nat} {tokens : List Token}
    (h : (parser tokens).Settled (fun error => error.isFatal = false) least tokens) :
    ∃ value? unread reports, recovering parser tokens = .done value? unread reports ∧
      reports.countP (·.error.isFatal) = (if value?.isSome then 0 else 1) := by
  have hquiet {reports : List Report} (hreports : ∀ report ∈ reports, report.error.isFatal = false) :
      reports.countP (·.error.isFatal) = 0 := by
    rw [List.countP_eq_zero]
    simpa using hreports
  unfold recovering
  cases hparse : parser tokens with
  | done value unread reports =>
      rw [hparse] at h
      exact ⟨some value, unread, reports, rfl, hquiet h.2.2⟩
  | failed unread reports cause =>
      rw [hparse] at h
      refine ⟨none, recover unread, _, rfl, ?_⟩
      rw [List.countP_append, hquiet h.2]
      rfl
  | exhausted =>
      rw [hparse] at h
      exact h.elim

theorem skip_semicolon (tokens : List Token) : skip .semicolon tokens = tokens := by
  cases tokens with
  | nil => rfl
  | cons token rest => simp [skip]

theorem skip_inner {left : List Token} (hleft : ∀ token ∈ left, token.kind.isInner = true)
    (stop : Word .semicolon) (after : List Token) {previous : Kind} (hprevious : previous ≠ .semicolon) :
    skip previous (left ++ stop.1 :: after) = after := by
  induction left generalizing previous with
  | nil =>
      rw [List.nil_append, skip, if_neg, stop.2, skip_semicolon]
      rw [stop.2]
      simp [hprevious, Kind.beginsStatement]
  | cons token left ih =>
      rw [List.forall_mem_cons] at hleft
      have hkind : token.kind ≠ .semicolon ∧ token.kind ≠ .endMark ∧
          token.kind.beginsStatement = false := by
        have htoken := hleft.1
        generalize token.kind = kind at htoken
        revert htoken
        cases kind <;> decide
      rw [List.cons_append, skip, if_neg]
      · exact ih hleft.2 hkind.1
      · simp [hkind, hprevious]

end Parser

namespace Segment

def tokens (segment : Segment) : List Token :=
  segment.body ++ [segment.stop.1]

variable (segment : Segment)

theorem opensSegment_of_mem {token : Token} (htoken : token ∈ segment.body) :
    token.kind.opensSegment = true := by
  obtain ⟨body, stop, hopens, hinner⟩ := segment
  cases body with
  | nil => cases htoken
  | cons first others =>
      rcases List.mem_cons.mp htoken with rfl | hother
      · exact hopens token rfl
      · exact Kind.opensSegment_of_isInner (hinner token hother)

/-- Lists that stand at the same place in a segment, with different tokens behind it. -/
def Along (after after' near far : List Token) : Prop :=
  ∃ left, left <:+ segment.body ∧ near = left ++ segment.stop.1 :: after ∧
    far = left ++ segment.stop.1 :: after'

variable {segment} {after after' near far : List Token}

theorem along_tokens (segment : Segment) (after after' : List Token) :
    segment.Along after after' (segment.tokens ++ after) (segment.tokens ++ after') :=
  ⟨segment.body, List.suffix_rfl, by simp [tokens], by simp [tokens]⟩

theorem Along.symm (h : segment.Along after after' near far) : segment.Along after' after far near := by
  obtain ⟨left, hleft, rfl, rfl⟩ := h
  exact ⟨left, hleft, rfl, rfl⟩

theorem Along.exists_head (h : segment.Along after after' near far) :
    ∃ token near' far', near = token :: near' ∧ far = token :: far' ∧ token.kind ≠ .endMark ∧
      (token.kind ≠ .semicolon → segment.Along after after' near' far') := by
  obtain ⟨left, hleft, rfl, rfl⟩ := h
  cases left with
  | nil =>
      refine ⟨segment.stop.1, after, after', rfl, rfl, ?_, fun hne => absurd segment.stop.2 hne⟩
      rw [segment.stop.2]
      decide
  | cons token left =>
      refine ⟨token, _, _, rfl, rfl, ?_, fun _ => ⟨left, ?_, rfl, rfl⟩⟩
      · intro hend
        have htoken := segment.opensSegment_of_mem (hleft.mem List.mem_cons_self)
        rw [hend] at htoken
        cases htoken
      · exact (List.suffix_cons token left).trans hleft

theorem tracks_along (segment : Segment) (after after' : List Token) :
    Tracks .same (segment.Along after after') := by
  intro near far halong
  obtain ⟨token, near', far', hnear, hfar, hend, hbehind⟩ := halong.exists_head
  exact .inr ⟨token, token, near', far', hnear, hfar, hend, ⟨rfl, fun _ => rfl, fun _ _ => rfl⟩, hbehind⟩

/-- A report is shown at the next token, so the same diagnostics are shown, whatever the last line. -/
theorem Along.diagnostics_eq {reports reports' : List Report}
    (h : List.Forall₂ (Report.Alike (segment.Along after after')) reports reports') (line line' : Nat) :
    reports.map (Report.diagnostic line) = reports'.map (Report.diagnostic line') := by
  induction h with
  | nil => rfl
  | @cons report report' _ _ hreport _ ih =>
      obtain ⟨token, _, _, hnear, hfar, -⟩ := hreport.2.exists_head
      rw [List.map_cons, List.map_cons, ih]
      simp only [Report.diagnostic, hnear, hfar, hreport.1, List.head?_cons, Option.getD_some]

theorem after_of_past (h : past (segment.Along after after') near far) : near = after ∧ far = after' := by
  obtain ⟨stop, stop', hstop, left, hleft, hnear, hfar⟩ := h
  cases left with
  | nil => exact ⟨(List.cons.inj hnear).2, (List.cons.inj hfar).2⟩
  | cons token left =>
      have htoken := segment.opensSegment_of_mem (hleft.mem List.mem_cons_self)
      rw [← (List.cons.inj hnear).1, hstop] at htoken
      cases htoken

theorem Along.recover (h : segment.Along after after' near far) : recover near = after := by
  obtain ⟨left, hleft, rfl, -⟩ := h
  cases left with
  | nil =>
      rw [List.nil_append, Parser.recover, if_neg, segment.stop.2, skip_semicolon]
      rw [segment.stop.2]
      decide
  | cons token left =>
      have htoken := segment.opensSegment_of_mem (hleft.mem List.mem_cons_self)
      have hinner : ∀ token ∈ left, token.kind.isInner = true := by
        intro other hother
        apply segment.inner other
        obtain ⟨first, hbody⟩ := hleft
        rw [← hbody]
        cases first with
        | nil => exact hother
        | cons => simp [hother]
      have hkind : token.kind ≠ .endMark ∧ token.kind ≠ .semicolon := by
        generalize token.kind = kind at htoken
        revert htoken
        cases kind <;> decide
      rw [List.cons_append, Parser.recover, if_neg hkind.1]
      exact skip_inner hinner segment.stop after hkind.2

theorem exists_simple (segment : Segment) {level : Nat}
    (hlevel : 2 * (segment.tokens ++ after).length + 4 ≤ level) :
    ∃ nested, 2 * (segment.tokens ++ after).length + 2 ≤ nested ∧
      declaration level (segment.tokens ++ after) =
        recovering (simple (expression nested)) (segment.tokens ++ after) := by
  obtain ⟨level, rfl⟩ := Nat.exists_eq_add_of_le' (Nat.le_of_add_left_le hlevel)
  obtain ⟨token, rest, htokens, htoken⟩ : ∃ token rest, segment.tokens ++ after = token :: rest ∧
      (token.kind.opensSegment = true ∨ token.kind = .semicolon) := by
    unfold tokens
    cases hbody : segment.body with
    | nil => exact ⟨segment.stop.1, after, rfl, Or.inr segment.stop.2⟩
    | cons token rest =>
        refine ⟨token, _, rfl, Or.inl (segment.opensSegment_of_mem ?_)⟩
        rw [hbody]
        exact List.mem_cons_self
  obtain ⟨nested, hnested, heq⟩ := declaration_eq_simple htoken (level + 2) rest
  rw [← htokens] at heq
  exact ⟨nested, by omega, heq⟩

/-- Parsers that do alike also recover alike. -/
theorem recovering_of_alike {parser parser' : Parser Stmt} {tree? : Option Stmt} {unread : List Token}
    {reports : List Report} (hnear : recovering parser near = .done tree? unread reports)
    (h : Parse.Alike (segment.Along after after') (past (segment.Along after after')) (Stmt.Like .same)
      (parser near) (parser' far)) (hfar : parser' far ≠ .exhausted) :
    ∃ reports', recovering parser' far = .done tree? after' reports' ∧
      List.Forall₂ (Report.Alike (segment.Along after after')) reports reports' := by
  unfold recovering at hnear ⊢
  cases hparse : parser near with
  | exhausted =>
      rw [hparse] at hnear
      cases hnear
  | done tree unread reports =>
      rw [hparse] at hnear h
      cases hnear
      cases hparse' : parser' far with
      | exhausted => exact absurd hparse' hfar
      | failed =>
          rw [hparse'] at h
          exact h.elim
      | done tree' unread' reports' =>
          rw [hparse'] at h
          obtain ⟨htree, hpast, hagree⟩ := h
          obtain ⟨-, rfl⟩ := after_of_past hpast
          rw [Stmt.eq_of_like tree htree]
          exact ⟨reports', rfl, hagree⟩
  | failed unread reports cause =>
      rw [hparse] at hnear h
      cases hnear
      cases hparse' : parser' far with
      | exhausted => exact absurd hparse' hfar
      | done =>
          rw [hparse'] at h
          exact h.elim
      | failed unread' reports' cause' =>
          rw [hparse'] at h
          obtain ⟨rfl, halong, hagree⟩ := h
          refine ⟨reports' ++ [⟨unread', .missing cause⟩], ?_,
            List.rel_append hagree (.cons ⟨rfl, halong⟩ .nil)⟩
          simp only
          rw [halong.symm.recover]

theorem settled_simple {nested : Nat} {tokens : List Token} (hnested : 2 * tokens.length + 2 ≤ nested) :
    (simple (expression nested) tokens).Settled (fun error => error.isFatal = false)
      (fun _ => 0) tokens :=
  settles_simple (settles_expression (fun _ => id) hnested) tokens (Nat.le_refl _)

/-- What there is of a segment, and the diagnostics that it gives wherever it stands. -/
theorem exists_outcome (segment : Segment) : ∃ (tree? : Option Stmt) (diagnostics : Diagnostics),
    diagnostics.countP Diagnostic.isFatal = (if tree?.isSome then 0 else 1) ∧
      ∀ after level, 2 * (segment.tokens ++ after).length + 4 ≤ level →
        ∃ reports, declaration level (segment.tokens ++ after) = .done tree? after reports ∧
          ∀ line : Nat, reports.map (Report.diagnostic line) = diagnostics := by
  obtain ⟨nested, hnested, -⟩ :=
    segment.exists_simple (Nat.le_refl (2 * (segment.tokens ++ []).length + 4))
  obtain ⟨tree?, unread, reports, hnear, hcount⟩ :=
    exists_recovering (settled_simple hnested)
  refine ⟨tree?, reports.map (Report.diagnostic 0), ?_, fun after level hlevel => ?_⟩
  · rw [Report.countP_isFatal, hcount]
  · obtain ⟨nested', hnested', heq⟩ := segment.exists_simple hlevel
    have htracks := tracks_along segment [] after
    have halike := simulates_simple htracks (simulates_expression htracks nested nested') _ _
      (along_tokens segment [] after)
    have hfar : simple (expression nested') (segment.tokens ++ after) ≠ .exhausted := by
      intro hexhausted
      have hsettled := settled_simple hnested'
      rw [hexhausted] at hsettled
      exact hsettled
    obtain ⟨reports', hread, hagree⟩ := recovering_of_alike hnear halike hfar
    exact ⟨reports', heq.trans hread, fun line => (Along.diagnostics_eq hagree 0 line).symm⟩

end Segment

end Script
