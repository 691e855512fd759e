import Script.Parser.Program
import Script.Proofs.Grammar.Dangling
import Script.Proofs.Grammar.Tokens
import Script.Proofs.Parser.Completeness.Statement
import Script.Proofs.Parser.Settling.Statement
import Script.Proofs.Parser.Soundness.Statement

/-!
# The parser accepts its grammar

Reading a program with the levels that its tokens give it always comes to an outcome. It reports nothing
exactly where the tokens up to the end of the list are a program, and then gives the one tree in which
each `else` belongs to the nearest `if`.
-/

namespace Script

open Grammar Script.Parser

/-- The tokens up to the end of the list. -/
def Parser.upToEnd (tokens : List Token) : List Token :=
  tokens.takeWhile fun token => token.kind != .endMark

theorem Parser.upToEnd_append {read rest : List Token} (hread : Unmarked read)
    (hrest : atEnd rest = true) : upToEnd (read ++ rest) = read := by
  have hall : ∀ token ∈ read, (token.kind != .endMark) = true := by
    simpa [Unmarked] using hread
  rw [upToEnd, List.takeWhile_append_of_pos hall]
  cases rest with
  | nil => simp
  | cons token rest =>
      by_cases htoken : token.kind = .endMark
      · simp [htoken]
      · simp [atEnd, next?, htoken] at hrest

theorem Parser.exists_upToEnd (tokens : List Token) :
    ∃ rest, tokens = upToEnd tokens ++ rest ∧ atEnd rest = true := by
  refine ⟨tokens.dropWhile fun token => token.kind != .endMark,
    List.takeWhile_append_dropWhile.symm, ?_⟩
  cases hrest : tokens.dropWhile fun token => token.kind != .endMark with
  | nil => rfl
  | cons token rest =>
      have hne : tokens.dropWhile (fun token => token.kind != .endMark) ≠ [] := by simp [hrest]
      have hhead := List.head_dropWhile_not (fun token : Token => token.kind != .endMark) hne
      simp only [hrest, List.head_cons, bne_eq_false_iff_eq] at hhead
      simp [atEnd, next?, hhead]

/-- Without a report there is a reading, since the levels suffice. -/
theorem parseProgram_eq_iff {tokens : List Token} {tree : List Stmt} :
    (parseProgram tokens).diagnostics = [] ∧ (parseProgram tokens).tree = tree ↔
      ∃ unread, program (levels tokens) tokens = .done tree unread [] := by
  have hsettled := settles_program (fun _ => trivial) (Nat.le_refl (levels tokens)) tokens
    (Nat.le_refl _)
  unfold parseProgram parse
  cases hparse : program (levels tokens) tokens with
  | done value unread reports => simp [Parse.reports, Parse.value?, and_comm]
  | failed unread reports cause => simp [Parse.reports]
  | exhausted =>
      rw [hparse] at hsettled
      exact hsettled.elim

/-- A list of tokens is read without diagnostics just if its tokens up to the end are a program, and the
tree is then the one in which each `else` belongs to the nearest `if`. -/
theorem parseProgram_accepts_grammar (tokens : List Token) :
    ((parseProgram tokens).diagnostics = [] ↔ ∃ tree, Program .any (upToEnd tokens) tree) ∧
      ∀ tree, Program .nearest (upToEnd tokens) tree ↔
        (parseProgram tokens).diagnostics = [] ∧ (parseProgram tokens).tree = tree := by
  have hreading (rule : ElseRule) (tree : List Stmt)
      (h : (parseProgram tokens).diagnostics = [] ∧ (parseProgram tokens).tree = tree) :
      Program rule (upToEnd tokens) tree := by
    obtain ⟨unread, hread⟩ := parseProgram_eq_iff.mp h
    obtain ⟨hend, read, rfl, hprogram⟩ := program_of_reading rule hread
    rw [upToEnd_append hprogram.unmarked hend]
    exact hprogram
  have hprogram (tree : List Stmt) (h : Program .nearest (upToEnd tokens) tree) :
      (parseProgram tokens).diagnostics = [] ∧ (parseProgram tokens).tree = tree := by
    obtain ⟨rest, htokens, hend⟩ := exists_upToEnd tokens
    refine parseProgram_eq_iff.mpr ⟨rest, ?_⟩
    have hlevel : 2 * (upToEnd tokens).length + 4 ≤ levels tokens := by
      have hlength := (List.takeWhile_prefix (fun token : Token => token.kind != .endMark)
        (l := tokens)).length_le
      unfold upToEnd levels
      omega
    have hread := reading_of_program h hlevel hend
    rw [← htokens] at hread
    exact hread
  refine ⟨⟨fun h => ⟨_, hreading .any _ ⟨h, rfl⟩⟩, ?_⟩, fun tree => ⟨hprogram tree, ?_⟩⟩
  · rintro ⟨tree, htree⟩
    obtain ⟨nearest, hnearest⟩ := htree.exists_nearest
    exact (hprogram nearest hnearest).1
  · exact hreading .nearest tree

end Script
