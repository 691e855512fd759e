import Script.Proofs.Alike.Statement
import Script.Proofs.Joining.Scan
import Script.Proofs.Parser.Acceptance

/-!
# The tree of joined sources

A program is read to its end whatever comes behind it, unless that is an `else`. What comes behind it is
then read as it is alone, tree and errors, but for the lines.
-/

namespace Script

open Grammar Script.Parser

/-- Tokens that are the same but for their lines: the second is further down, by one of the numbers. -/
def Matching.moved (shifts : Set Nat) : Matching :=
  fun _ token token' => ∃ lines ∈ shifts, token' = token.down lines

namespace Parser

/-- The same list, closed by a mark, further down. -/
def Moved (lines : Nat) (near far : List Token) : Prop :=
  far = near.map (Token.down lines) ∧ ∃ closing ∈ near.getLast?, closing.kind = .endMark

section Moved

variable {lines : Nat} {shifts : Set Nat} {near far : List Token}

theorem Moved.exists_head (h : Moved lines near far) : ∃ token near', near = token :: near' ∧
    far = token.down lines :: near'.map (Token.down lines) ∧
      (token.kind ≠ .endMark → Moved lines near' (near'.map (Token.down lines))) := by
  obtain ⟨rfl, closing, hclosing, hkind⟩ := h
  cases near with
  | nil => cases hclosing
  | cons token rest =>
      refine ⟨token, rest, rfl, rfl, fun hend => ⟨rfl, closing, ?_, hkind⟩⟩
      cases rest with
      | nil =>
          obtain rfl : token = closing := Option.some.inj hclosing
          exact absurd hkind hend
      | cons => exact hclosing

theorem tracks_moved (hlines : lines ∈ shifts) : Tracks (.moved shifts) (Moved lines) := by
  refine tracks_of_cons fun near far halong => .inr ?_
  obtain ⟨token, rest, rfl, rfl, hrest⟩ := halong.exists_head
  exact ⟨token, _, rest, _, rfl, rfl, ⟨rfl, fun _ => rfl, fun _ _ => ⟨lines, hlines, rfl⟩⟩, hrest⟩

theorem through_moved (lines : Nat) : Through (Moved lines) := by
  rintro near far ⟨stop, stop', hstop, halong⟩
  obtain ⟨token, rest, hnear, hfar, hrest⟩ := halong.exists_head
  obtain ⟨rfl, rfl⟩ := List.cons.inj hnear
  obtain ⟨-, rfl⟩ := List.cons.inj hfar
  exact hrest (by rw [hstop]; decide)

/-- A report is shown at the next token, and that is further down. -/
theorem Moved.diagnostics_eq {reports reports' : List Report}
    (h : List.Forall₂ (Report.Alike (Moved lines)) reports reports') (last last' : Nat) :
    reports'.map (Report.diagnostic last') =
      (reports.map (Report.diagnostic last)).map (Diagnostic.down lines) := by
  induction h with
  | nil => rfl
  | @cons report report' _ _ hreport _ ih =>
      obtain ⟨token, _, hnear, hfar, -⟩ := hreport.2.exists_head
      rw [List.map_cons, List.map_cons, List.map_cons, ih]
      simp only [Report.diagnostic, hnear, hfar, hreport.1, List.head?_cons, Option.getD_some]
      rfl

end Moved

/-- A program that is read without diagnostics, by the grammar. -/
theorem program_upToEnd {tokens : List Token} (h : (parseProgram tokens).diagnostics = []) :
    Program .nearest (upToEnd tokens) (parseProgram tokens).tree := by
  obtain ⟨unread, hread⟩ := parseProgram_eq_iff.mp ⟨h, rfl⟩
  obtain ⟨hend, read, htokens, hprogram⟩ := program_of_reading .nearest hread
  rw [htokens, upToEnd_append hprogram.unmarked hend, ← htokens]
  exact hprogram

theorem program_ne_exhausted (tokens : List Token) : program (levels tokens) tokens ≠ .exhausted := by
  have hsettled := settles_program (fun _ => trivial) (Nat.le_refl (levels tokens)) tokens
    (Nat.le_refl _)
  intro hexhausted
  rw [hexhausted] at hsettled
  exact hsettled

/-- The statements of the first tree, further down, behind others. -/
def Behind (before : List Stmt) (shifts : Set Nat) (tree tree' : List Stmt) : Prop :=
  ∃ later, List.Forall₂ (Stmt.Like (.moved shifts)) tree later ∧ tree' = before ++ later

theorem Behind.push {before : List Stmt} {shifts : Set Nat} {read read' : Array Stmt}
    (h : Behind before shifts read.toList read'.toList) {tree tree' : Stmt}
    (htree : Stmt.Like (.moved shifts) tree tree') :
    Behind before shifts (read.push tree).toList (read'.push tree').toList := by
  obtain ⟨later, halike, hlater⟩ := h
  refine ⟨later ++ [tree'], ?_, by simp [hlater]⟩
  rw [Array.toList_push]
  exact List.rel_append halike (.cons htree .nil)

/-- The tokens of the first list up to its end, and then the second list, further down. -/
def joined (lines : Nat) (first second : List Token) : List Token :=
  upToEnd first ++ second.map (Token.down lines)

section Joined

variable {first second : List Token} (hfirst : (parseProgram first).diagnostics = [])
  (helse : heads (takesElse true) second = false)
  (hclosed : ∃ closing ∈ second.getLast?, closing.kind = .endMark) {lines : Nat} {shifts : Set Nat}
  (hlines : lines ∈ shifts)

include hfirst helse hclosed hlines

/-- Behind the tokens of the first list, the second one is parsed as it is alone. -/
theorem alike_joined : Parse.Alike (Moved lines) (Moved lines) (Behind (parseProgram first).tree shifts)
    (program (levels second) second)
    (program (levels (joined lines first second)) (joined lines first second)) := by
  obtain ⟨items, hitems, hread, htree⟩ := program_upToEnd hfirst
  have hmoved : Moved lines second (second.map (Token.down lines)) := ⟨rfl, hclosed⟩
  have hrest : heads (takesElse true) (second.map (Token.down lines)) = false := by
    rwa [← heads_eq_of_along (tracks_moved hlines) hmoved]
  generalize htokens : joined lines first second = tokens
  have hlevel : 2 * (items.flatMap Prod.fst).length + 4 ≤ levels tokens := by
    rw [← htokens, joined, ← hread]
    exact le_levels_append _ _
  -- The loop over the joined list comes to the second list with the statements of the first.
  obtain ⟨between, hbetween, hloop⟩ := iterate_topLevel_append hitems hlevel hrest #[]
  obtain ⟨turns, hturns⟩ := exists_turns hitems hlevel
  have hjoined : iterate (topLevel (declaration (levels tokens))) (levels tokens) #[] tokens =
      iterate (topLevel (declaration (levels tokens))) (turns + 1) between
        (second.map (Token.down lines)) := by
    rw [← hloop (turns + 1), ← hturns, ← hread, ← htokens, joined]
  have hbetween : between.toList = (parseProgram first).tree := by
    rw [hbetween, htree]
    rfl
  let S (read read' : Array Stmt) : Prop :=
    Behind (parseProgram first).tree shifts read.toList read'.toList
  have hpush (read read' : Array Stmt) (tree tree' : Stmt) (hread : S read read')
      (htree : Stmt.Like (.moved shifts) tree tree') : S (read.push tree) (read'.push tree') :=
    hread.push htree
  have hempty : S #[] between := ⟨[], .nil, by rw [hbetween, List.append_nil]⟩
  have hloops := simulates_topLevel (tracks_moved hlines) (through_moved lines) hpush (levels second)
    (levels tokens) (levels second) (turns + 1) hempty
  have hlist (read read' : Array Stmt) (hread : S read read') :
      Simulates (Moved lines) (Moved lines) (Behind (parseProgram first).tree shifts)
        (pure read.toList) (pure read'.toList) :=
    simulates_pure hread
  have htrees := simulates_bind hloops hlist
  have halike := htrees second _ hmoved
  rw [bind_apply (iterate _ (turns + 1) between), ← hjoined, ← bind_apply] at halike
  exact halike

/-- The errors of the joined lists are those of the second, and without any the trees are joined too. -/
theorem parseProgram_joined :
    (parseProgram (joined lines first second)).diagnostics =
        (parseProgram second).diagnostics.map (Diagnostic.down lines) ∧
      ((parseProgram second).diagnostics = [] →
        Behind (parseProgram first).tree shifts (parseProgram second).tree
          (parseProgram (joined lines first second)).tree) := by
  have halike := alike_joined hfirst helse hclosed hlines
  have hnear := program_ne_exhausted second
  have hfar := program_ne_exhausted (joined lines first second)
  refine ⟨Moved.diagnostics_eq (halike.reports hnear hfar) _ _, fun hnone => ?_⟩
  obtain ⟨unread, hsecond⟩ := parseProgram_eq_iff.mp ⟨hnone, rfl⟩
  change Behind _ shifts _ ((program (levels (joined lines first second)) _).value?.getD [])
  rw [hsecond] at halike
  cases hjoined : program (levels (joined lines first second)) (joined lines first second) with
  | exhausted => exact absurd hjoined hfar
  | failed =>
      rw [hjoined] at halike
      exact halike.elim
  | done =>
      rw [hjoined] at halike
      exact halike.1

end Joined

end Parser

/-- The closing mark ends the tokens of a source. -/
theorem upToEnd_scan (source : String) : upToEnd (scan source).tokens = (scan source).tokens.dropLast := by
  have hunmarked : Unmarked (scan source).tokens.dropLast := fun token => kind_ne_endMark_of_mem_dropLast
  have hclosed : (scan source).tokens = (scan source).tokens.dropLast ++ [.closing (linesOf source)] := by
    rw [scan, List.dropLast_concat, linesOf]
  conv => lhs; rw [hclosed]
  exact upToEnd_append hunmarked rfl

/-- If the first source has no errors and the second does not begin with `else`, the joined sources have the
errors of the second, further down, and without any the statements of both. -/
theorem readProgram_joined {first second : String} (hfirst : (readProgram first).diagnostics = [])
    (helse : ∀ token ∈ (scan second).tokens.head?, token.kind ≠ .elseWord) {shifts : Set Nat}
    (hlines : linesOf first ∈ shifts) :
    (readProgram (first ++ "\n" ++ second)).diagnostics =
        (readProgram second).diagnostics.map (Diagnostic.down (linesOf first)) ∧
      ((readProgram second).diagnostics = [] →
        Behind (readProgram first).tree shifts (readProgram second).tree
          (readProgram (first ++ "\n" ++ second)).tree) := by
  obtain ⟨hscan, hparse⟩ := List.append_eq_nil_iff.mp hfirst
  obtain ⟨htokens, hdiagnostics⟩ := scan_join hscan second
  have hheads : heads (takesElse true) (scan second).tokens = false := by
    generalize (scan second).tokens = tokens at helse
    cases tokens with
    | nil => rfl
    | cons token rest =>
        by_cases hend : token.kind = .endMark
        · simp [heads, next?, hend]
        · rw [heads_cons hend]
          simpa [takesElse] using helse token rfl
  have hclosed : ∃ closing ∈ (scan second).tokens.getLast?, closing.kind = .endMark :=
    ⟨_, List.getLast?_concat, rfl⟩
  obtain ⟨herrors, htree⟩ := parseProgram_joined hparse hheads hclosed hlines
  rw [joined, upToEnd_scan, ← htokens] at herrors htree
  refine ⟨?_, fun hnone => htree (List.append_eq_nil_iff.mp hnone).2⟩
  change (scan _).diagnostics ++ (parseProgram (scan _).tokens).diagnostics =
    ((scan second).diagnostics ++ (parseProgram (scan second).tokens).diagnostics).map _
  rw [hdiagnostics, herrors, List.map_append]

end Script
