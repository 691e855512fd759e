import Script.Proofs.Recovery.Segment

/-!
# Errors stay where they are

Segments and blocks of them, nested to any depth, are read one by one: each segment gives what it gives
alone, whether it is well formed or not, and each block one statement.
-/

namespace Script

open Grammar Script.Parser

/-- A row of items, each a segment or a block of items. -/
inductive Items where
  | nil
  | segment (segment : Segment) (rest : Items)
  | block (opening : Word .leftBrace) (inner : Items) (closing : Word .rightBrace) (rest : Items)

namespace Items

def tokens : Items → List Token
  | .nil => []
  | .segment first rest => first.tokens ++ rest.tokens
  | .block opening inner closing rest => opening.1 :: (inner.tokens ++ closing.1 :: rest.tokens)

/-- What each segment gives alone, in order, the statements of a block put together. -/
def parsed : Items → Parsed (List Stmt)
  | .nil => { tree := [], diagnostics := [] }
  | .segment first rest =>
    let alone := parseProgram first.tokens
    { tree := alone.tree ++ rest.parsed.tree
      diagnostics := alone.diagnostics ++ rest.parsed.diagnostics }
  | .block _ inner _ rest =>
    { tree := .block inner.parsed.tree :: rest.parsed.tree
      diagnostics := inner.parsed.diagnostics ++ rest.parsed.diagnostics }

end Items

namespace Parser

theorem declaration_block {level : Nat} {inner after : List Token} {final : Array Stmt}
    {reports : List Report} (opening : Word .leftBrace) (closing : Word .rightBrace)
    (hloop : iterate (member (declaration level)) level #[] inner =
      .done final (closing.1 :: after) reports) :
    declaration (level + 2) (opening.1 :: inner) =
      .done (some (.block final.toList)) after reports := by
  have hend : opening.1.kind ≠ .endMark := by
    rw [opening.2]
    decide
  have hblock : block (declaration level) level inner = .done final.toList after reports := by
    rw [block, bind_apply, hloop]
    simp only
    rw [bind_of_reading (expect_cons closing.2 (by decide) _ _), pure_apply, Parse.after_done,
      List.append_nil]
  simp only [declaration, recovering, declarationOf, statement, statementOf, next?_cons hend, opening.2,
    map_eq_pure_bind, bind_apply, hblock, pure_apply, Parse.after_done, List.append_nil]

theorem parseProgram_of_iterate {tokens rest : List Token} {final : Array Stmt}
    {reports : List Report} {diagnostics : Diagnostics}
    (hloop : iterate (collecting atEnd id (declaration (levels tokens))) (levels tokens) #[] tokens =
      .done final rest reports)
    (hreports : ∀ line : Nat, reports.map (Report.diagnostic line) = diagnostics) :
    parseProgram tokens = { tree := final.toList, diagnostics } := by
  have hprogram : program (levels tokens) tokens = .done final.toList rest reports := by
    rw [program, topLevel_eq_collecting, bind_apply, hloop]
    simp [pure_apply, Parse.after_done]
  simp [parseProgram, Parser.parse, hprogram, Parse.value?, Parse.reports, hreports]

end Parser

theorem Segment.closes_eq_false (segment : Segment) (after : List Token) :
    closes (segment.tokens ++ after) = false := by
  obtain ⟨token, near, _, htokens, -, hend, -⟩ := (segment.along_tokens after after).exists_head
  have hbrace : token.kind ≠ .rightBrace := by
    intro hbrace
    unfold Segment.tokens at htokens
    cases hbody : segment.body with
    | nil =>
        rw [hbody] at htokens
        have hstop := segment.stop.2
        rw [(List.cons.inj htokens).1, hbrace] at hstop
        cases hstop
    | cons first others =>
        rw [hbody] at htokens
        have hopens := segment.opensSegment_of_mem (hbody ▸ List.mem_cons_self)
        rw [(List.cons.inj htokens).1, hbrace] at hopens
        cases hopens
  rw [htokens]
  simp [closes, sees_eq_heads, heads_cons hend, hbrace, atEnd, next?_cons hend]

/-- The outcome of a segment wherever it stands is that of parsing it alone. -/
theorem Segment.exists_alone (segment : Segment) : ∃ tree? : Option Stmt,
    (parseProgram segment.tokens).tree = tree?.toList ∧
      (parseProgram segment.tokens).diagnostics.countP Diagnostic.isFatal =
        (if tree?.isSome then 0 else 1) ∧
      ∀ after level, 2 * (segment.tokens ++ after).length + 4 ≤ level →
        ∃ reports, declaration level (segment.tokens ++ after) = .done tree? after reports ∧
          ∀ line : Nat, reports.map (Report.diagnostic line) =
            (parseProgram segment.tokens).diagnostics := by
  obtain ⟨tree?, diagnostics, hcount, houtcome⟩ := segment.exists_outcome
  have hlevel : 2 * (segment.tokens ++ []).length + 4 ≤ levels segment.tokens := by
    rw [List.append_nil]
    exact Nat.le_refl _
  obtain ⟨reports, hread, hdiagnostics⟩ := houtcome [] _ hlevel
  rw [List.append_nil] at hread
  have hgo : atEnd segment.tokens = false := by
    have hcloses := segment.closes_eq_false []
    rw [List.append_nil] at hcloses
    exact (Bool.or_eq_false_iff.mp hcloses).2
  have hlast := iterate_collecting_last id (declaration (levels segment.tokens))
    (show atEnd [] = true from rfl) (2 * segment.tokens.length + 2) (tree?.elim #[] #[].push)
  have hloop := iterate_collecting_again id hgo hread (2 * segment.tokens.length + 3) #[]
  simp only [id_eq, hlast, Parse.after_done, List.append_nil] at hloop
  have hparsed : parseProgram segment.tokens = { tree := tree?.toList, diagnostics } := by
    rw [parseProgram_of_iterate hloop hdiagnostics]
    cases tree? <;> rfl
  rw [hparsed]
  exact ⟨tree?, rfl, hcount, houtcome⟩

namespace Items

theorem iterate_items (items : Items) {stop : List Token → Bool}
    (hgo : ∀ tokens, closes tokens = false → stop tokens = false) {rest : List Token}
    (hrest : stop rest = true) {level turns : Nat}
    (hlevel : 2 * (items.tokens ++ rest).length + 4 ≤ level) (hturns : items.tokens.length < turns)
    (before : Array Stmt) : ∃ final reports,
      iterate (collecting stop id (declaration level)) turns before (items.tokens ++ rest) =
        .done final rest reports ∧ final.toList = before.toList ++ items.parsed.tree ∧
          ∀ line : Nat, reports.map (Report.diagnostic line) = items.parsed.diagnostics := by
  induction items generalizing stop rest level turns before with
  | nil =>
      obtain ⟨turns, rfl⟩ := Nat.exists_eq_succ_of_ne_zero (Nat.ne_zero_of_lt hturns)
      refine ⟨before, [], iterate_collecting_last _ _ hrest turns before, ?_, fun _ => rfl⟩
      simp [parsed]
  | segment first others ih =>
      obtain ⟨turns, rfl⟩ := Nat.exists_eq_succ_of_ne_zero (Nat.ne_zero_of_lt hturns)
      obtain ⟨tree?, htree, -, houtcome⟩ := first.exists_alone
      simp only [tokens, List.append_assoc] at hlevel hturns ⊢
      obtain ⟨reports, hread, hreports⟩ := houtcome (others.tokens ++ rest) level hlevel
      have hlength : 0 < first.tokens.length := by
        simp [Segment.tokens]
      rw [List.length_append] at hlevel hturns
      obtain ⟨final, reports', hloop, hfinal, hreports'⟩ :=
        ih hgo hrest (show _ ≤ level by omega) (show _ < turns by omega) (tree?.elim before before.push)
      refine ⟨final, reports ++ reports', ?_, ?_, fun line => ?_⟩
      · rw [iterate_collecting_again id (hgo _ (first.closes_eq_false _)) hread, id_eq, hloop,
          Parse.after_done]
      · rw [hfinal, parsed, htree]
        cases tree? <;> simp
      · rw [List.map_append, hreports, hreports', parsed]
  | block opening inner closing others ihinner ih =>
      obtain ⟨turns, rfl⟩ := Nat.exists_eq_succ_of_ne_zero (Nat.ne_zero_of_lt hturns)
      obtain ⟨level, rfl⟩ := Nat.exists_eq_add_of_le' (show 2 ≤ level by omega)
      simp only [tokens, List.cons_append, List.append_assoc, List.length_cons, List.length_append]
        at hlevel hturns ⊢
      have hopening : opening.1.kind ≠ .endMark := by
        rw [opening.2]
        decide
      have hcloses (after : List Token) : closes (closing.1 :: after) = true := by
        simp [closes, sees_of_kind closing.2]
      obtain ⟨body, reports, hbody, hstatements, hreports⟩ :=
        ihinner (fun _ => id) (hcloses (others.tokens ++ rest))
          (show _ ≤ level by simp only [List.length_append, List.length_cons]; omega)
          (show _ < level by omega) #[]
      rw [← member_eq_collecting] at hbody
      obtain ⟨final, reports', hloop, hfinal, hreports'⟩ := ih hgo hrest
        (show _ ≤ level + 2 by rw [List.length_append]; omega) (show _ < turns by omega)
        (before.push (.block body.toList))
      refine ⟨final, reports ++ reports', ?_, ?_, fun line => ?_⟩
      · have hstop : stop (opening.1 :: (inner.tokens ++ closing.1 :: (others.tokens ++ rest))) =
            false := by
          apply hgo _
          simp [closes, sees_eq_heads, heads_cons hopening, opening.2, atEnd, next?_cons hopening]
        rw [iterate_collecting_again id hstop (declaration_block opening closing hbody), id_eq,
          Option.elim_some, hloop, Parse.after_done]
      · rw [hfinal, parsed, hstatements]
        simp
      · rw [List.map_append, hreports, hreports', parsed]

theorem parseProgram_append (items : Items) {rest : List Token} (hrest : atEnd rest = true) :
    parseProgram (items.tokens ++ rest) = items.parsed := by
  have hgo (tokens : List Token) (h : closes tokens = false) : atEnd tokens = false :=
    (Bool.or_eq_false_iff.mp h).2
  obtain ⟨final, reports, hloop, hfinal, hreports⟩ := items.iterate_items hgo hrest
    (Nat.le_refl (2 * (items.tokens ++ rest).length + 4))
    (show _ < levels (items.tokens ++ rest) by rw [levels, List.length_append]; omega) #[]
  rw [parseProgram_of_iterate hloop hreports, hfinal]
  rfl

end Items

/-- A row of items, with or without a closing mark, is read as its items are alone. A segment that gives
a statement has no fatal error, one that fails has exactly one. -/
theorem parseProgram_isolates_errors :
    (∀ items : Items, parseProgram items.tokens = items.parsed ∧
      ∀ line, parseProgram (items.tokens ++ [.closing line]) = items.parsed) ∧
    ∀ segment : Segment,
      (∃ statement, (parseProgram segment.tokens).tree = [statement] ∧
        (parseProgram segment.tokens).diagnostics.countP Diagnostic.isFatal = 0) ∨
      (parseProgram segment.tokens).tree = [] ∧
        (parseProgram segment.tokens).diagnostics.countP Diagnostic.isFatal = 1 := by
  refine ⟨fun items => ⟨?_, fun line => items.parseProgram_append rfl⟩, fun segment => ?_⟩
  · have h := items.parseProgram_append (show atEnd [] = true from rfl)
    rw [List.append_nil] at h
    exact h
  · obtain ⟨tree?, htree, hcount, -⟩ := segment.exists_alone
    cases tree? with
    | some statement => exact Or.inl ⟨statement, htree, hcount⟩
    | none => exact Or.inr ⟨htree, hcount⟩

end Script
