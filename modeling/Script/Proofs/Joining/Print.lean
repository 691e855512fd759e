import Script.Proofs.Joining.Scan
import Script.Proofs.Output.Truncation
import Script.Proofs.Parser.Longest
import Script.Proofs.Scanning.Writing

/-!
# To evaluate an expression and to print it

An expression can be evaluated, or made a program that prints it. The word in front of it and the line break behind
it keep its pieces as they are, whatever it ends with, so that both find the same tree. Evaluation then does the same
in both, and printing adds the text of the value.
-/

namespace Script

open Grammar Piece Script.Parser

/-- The program that prints what a source evaluates to. The line break ends a comment at the end of the source. -/
def printing (source : String) : String :=
  "print " ++ source ++ "\n" ++ ";"

/-- A source that scans without errors, and is as a whole one expression, read without errors. -/
structure IsExpression (source : String) (tree : Expr) : Prop where
  scans : (scan source).diagnostics = []
  reads : ∃ unread, Parser.expression (levels (scan source).tokens) (scan source).tokens = .done tree unread [] ∧
    atEnd unread = true

/-! ### Its tokens -/

def printWord : Token :=
  { kind := .printWord, lexeme := "print", literal := .none, line := 1 }

theorem pieces_print (source : String) :
    pieces ("print " ++ source).toList =
      printWord.piece 1 :: ⟨.blank, [' '], 1⟩ :: pieces source.toList := by
  let blank : Piece := ⟨.blank, [' '], 1⟩
  have hspelled : printWord.Spelled := ⟨.keyword (by decide), rfl⟩
  have hfits : Fits (printWord.piece 1).shape (printWord.piece 1).text (' ' :: source.toList) :=
    hspelled.fits 1 fun _ hc => (Option.some.inj hc).symm
  have hsource : Cut blank.line source.toList (pieces source.toList) := cut_iff.mpr rfl
  have hblank : Cut 1 (' ' :: source.toList) (blank :: pieces source.toList) := .cons (.blank rfl) rfl hsource
  have hword : Cut 1 ("print".toList ++ ' ' :: source.toList) (printWord.piece 1 :: blank :: pieces source.toList) :=
    .cons hfits rfl hblank
  rw [cut_iff.mp hword, String.toList_append]
  rfl

theorem scan_print (source : String) :
    (scan ("print " ++ source)).tokens = printWord :: (scan source).tokens ∧
      (scan ("print " ++ source)).diagnostics = (scan source).diagnostics := by
  have hcount : ("print " ++ source).toList.count '\n' = source.toList.count '\n' := by
    rw [String.toList_append, List.count_append]
    exact Nat.zero_add _
  unfold scan
  simp only [pieces_print, hcount]
  exact ⟨rfl, rfl⟩

/-- The tokens of the source stand between `print` and a semicolon. -/
theorem scan_printing {source : String} (hscan : (scan source).diagnostics = []) :
    ∃ (stop : Word .semicolon) (closing : Token), closing.kind = .endMark ∧
      (scan (printing source)).tokens = printWord :: ((scan source).tokens.dropLast ++ [stop.1]) ++ [closing] ∧
        (scan (printing source)).diagnostics = [] := by
  obtain ⟨htokens, hdiagnostics⟩ := scan_print source
  rw [hscan] at hdiagnostics
  obtain ⟨hjoined, hclean⟩ := scan_join hdiagnostics ";"
  have hlast : (scan source).tokens ≠ [] := List.concat_ne_nil _ _
  let stop : Token := { kind := .semicolon, lexeme := ";", literal := .none, line := 1 }
  have hsemicolon : (scan ";").diagnostics = [] ∧ (scan ";").tokens = [stop, .closing 1] := by decide +kernel
  rw [hsemicolon.1] at hclean
  rw [htokens, hsemicolon.2, List.dropLast_cons_of_ne_nil hlast] at hjoined
  let lines := linesOf ("print " ++ source)
  refine ⟨⟨stop.down lines, rfl⟩, (Token.closing 1).down lines, rfl, ?_, hclean⟩
  rw [printing, hjoined]
  simp [lines]

/-! ### Its tree -/

theorem parseProgram_of_program {read rest : List Token} {tree : List Stmt} (h : Program .nearest read tree)
    (hrest : atEnd rest = true) :
    (parseProgram (read ++ rest)).diagnostics = [] ∧ (parseProgram (read ++ rest)).tree = tree :=
  parseProgram_eq_iff.mpr ⟨rest, reading_of_program h (le_levels_append read rest) hrest⟩

namespace IsExpression

variable {source : String} {tree : Expr} (h : IsExpression source tree)

include h

theorem phrase : Expression .expression (scan source).tokens.dropLast tree := by
  obtain ⟨unread, hread, hend⟩ := h.reads
  obtain ⟨read, htokens, hphrase⟩ := readsOnly_expression _ _ _ _ hread
  have hread : upToEnd (scan source).tokens = read := by
    rw [htokens]
    exact upToEnd_append hphrase.unmarked hend
  rwa [← upToEnd_scan, hread]

theorem readExpression_eq : (readExpression source).tree = some tree ∧ (readExpression source).diagnostics = [] := by
  obtain ⟨unread, hread, -⟩ := h.reads
  have hparse : parseExpression (scan source).tokens = ⟨some tree, []⟩ := by
    rw [parseExpression, parse, hread]
    rfl
  have hdiagnostics : (readExpression source).diagnostics =
      (scan source).diagnostics ++ (parseExpression (scan source).tokens).diagnostics :=
    rfl
  exact ⟨congrArg Parsed.tree hparse, by rw [hdiagnostics, h.scans, hparse, List.nil_append]⟩

theorem readProgram_printing :
    (readProgram (printing source)).diagnostics = [] ∧ (readProgram (printing source)).tree = [.print tree] := by
  obtain ⟨stop, closing, hclosing, htokens, hdiagnostics⟩ := scan_printing h.scans
  have hprogram : Program .nearest (printWord :: ((scan source).tokens.dropLast ++ [stop.1])) [.print tree] := by
    refine ⟨[(_, _)], ?_, (List.flatMap_singleton _ _).symm, rfl⟩
    intro item hitem
    rw [List.mem_singleton.mp hitem]
    exact .statement (.print ⟨printWord, rfl⟩ h.phrase stop)
  have hmark : atEnd [closing] = true := by simp [atEnd, next?, hclosing]
  obtain ⟨hclean, htree⟩ := parseProgram_of_program hprogram hmark
  rw [← htokens] at hclean htree
  refine ⟨?_, htree⟩
  change (scan _).diagnostics ++ (parseProgram _).diagnostics = []
  rw [hdiagnostics, hclean]
  rfl

end IsExpression

/-! ### Its run -/

/-- The sink takes all that is written to it. -/
structure Sink.AcceptsAll (sink : Sink) : Prop where
  unlimited : sink.limit = none
  flushes : sink.refusesFlush = false

/-- The machine after a value is printed. -/
def Machine.afterPrint (machine : Machine) (value : Value) : Machine :=
  { machine with sink := { machine.sink with
      written := machine.sink.written ++ (value.text ++ "\n").toUTF8 } }

/-- The outcome once a value, if it is given, is printed. -/
def Outcome.printed : Outcome RunError Value → Outcome RunError Unit
  | .done value machine => .done () (machine.afterPrint value)
  | .failed error machine => .failed error machine
  | .exhausted => .exhausted

theorem print_of_acceptsAll {machine : Machine} (h : machine.sink.AcceptsAll) (value : Value) :
    Eval.print value machine = .done () (machine.afterPrint value) := by
  simp only [Eval.print, machine.sink.write_of_unlimited h.unlimited]
  rfl

theorem flush_of_acceptsAll {machine : Machine} (h : machine.sink.AcceptsAll) {value : Value} :
    Eval.flush (machine.afterPrint value) = .done () (machine.afterPrint value) := by
  have hflush : (machine.afterPrint value).sink.flush = .ok () := if_neg (Bool.eq_false_iff.mp h.flushes)
  rw [Eval.flush, hflush]

theorem acceptsAll_of_eval {level : Nat} {tree : Expr} {machine after : Machine} {value : Value}
    (hsink : machine.sink.AcceptsAll) (h : eval level tree machine = .done value after) : after.sink.AcceptsAll := by
  have hends : (eval level tree machine).Ends (some value) after := .of_done h
  have hafter := (((evalExecSteps level).1 tree).truncates machine _ after hsink.unlimited hends).sink
  rw [hafter]
  exact ⟨hsink.unlimited, hsink.flushes⟩

theorem interpret_print (level : Nat) (tree : Expr) {machine : Machine} (hsink : machine.sink.AcceptsAll) :
    (interpret (level + 1) [.print tree] machine).mapError .runtime =
      ((eval level tree machine).mapError .runtime).printed := by
  have hexec : exec (level + 1) (.print tree) = (do
      Eval.print (← eval level tree)
      return .next) := by
    rw [exec]
    rfl
  simp only [interpret, Eval.sequence, hexec, Eval.bind_apply]
  cases heval : eval level tree machine with
  | failed | exhausted => rfl
  | done value after =>
      have hafter := acceptsAll_of_eval hsink heval
      simp only [print_of_acceptsAll hafter value, Eval.pure_apply, flush_of_acceptsAll hafter]
      rfl

theorem IsExpression.run_printing {source : String} {tree : Expr} (h : IsExpression source tree) {machine : Machine}
    (hsink : machine.sink.AcceptsAll) (level : Nat) :
    machine.run (level + 1) (printing source) = (machine.evaluate level source).printed := by
  obtain ⟨hdiagnostics, hprogram⟩ := h.readProgram_printing
  obtain ⟨htree, hclean⟩ := h.readExpression_eq
  have hevaluate : machine.evaluate level source = (eval level tree machine).mapError .runtime := by
    simp [Machine.evaluate, htree, hclean, Diagnostics.hadError]
  have hrun : machine.run (level + 1) (printing source) =
      (interpret (level + 1) [.print tree] machine).mapError .runtime := by
    simp [Machine.run, hdiagnostics, hprogram, Diagnostics.hadError]
  rw [hrun, hevaluate, interpret_print level tree hsink]

/-- A run takes a level for the statement. -/
theorem IsExpression.run_printing_zero {source : String} {tree : Expr} (h : IsExpression source tree)
    (machine : Machine) : machine.run 0 (printing source) = .exhausted := by
  obtain ⟨hdiagnostics, hprogram⟩ := h.readProgram_printing
  simp only [Machine.run, hdiagnostics, hprogram, Diagnostics.hadError]
  rfl

/-- To run the program that prints an expression is to evaluate the expression and to print its value, in the same
state and after the same output. Where evaluation fails, the program fails alike. -/
theorem evaluate_agrees_printing {source : String} {tree : Expr} (h : IsExpression source tree) {machine : Machine}
    (hsink : machine.sink.AcceptsAll) :
    (∀ level, machine.run (level + 1) (printing source) = (machine.evaluate level source).printed) ∧
    (∀ last, (∃ level, machine.run level (printing source) = .done () last) ↔
      ∃ value after, (∃ level, machine.evaluate level source = .done value after) ∧ last = after.afterPrint value) ∧
    ∀ error last, (∃ level, machine.run level (printing source) = .failed error last) ↔
      ∃ level, machine.evaluate level source = .failed error last := by
  have hrun := h.run_printing hsink
  have hzero := h.run_printing_zero machine
  refine ⟨hrun, fun last => ⟨?_, ?_⟩, fun error last => ⟨?_, ?_⟩⟩
  · rintro ⟨level | level, hdone⟩
    · cases hzero.symm.trans hdone
    rw [hrun] at hdone
    cases hevaluate : machine.evaluate level source with
    | done value after =>
        rw [hevaluate] at hdone
        cases hdone
        exact ⟨value, after, ⟨level, hevaluate⟩, rfl⟩
    | failed | exhausted =>
        rw [hevaluate] at hdone
        cases hdone
  · rintro ⟨value, after, ⟨level, hevaluate⟩, rfl⟩
    exact ⟨level + 1, by rw [hrun, hevaluate, Outcome.printed]⟩
  · rintro ⟨level | level, hfailed⟩
    · cases hzero.symm.trans hfailed
    rw [hrun] at hfailed
    cases hevaluate : machine.evaluate level source with
    | failed error after =>
        rw [hevaluate] at hfailed
        cases hfailed
        exact ⟨level, hevaluate⟩
    | done | exhausted =>
        rw [hevaluate] at hfailed
        cases hfailed
  · rintro ⟨level, hevaluate⟩
    exact ⟨level + 1, by rw [hrun, hevaluate, Outcome.printed]⟩

/-- The comment behind the expression ends with its line. -/
theorem evaluate_agrees_printing_comment :
    let source := "!nil // yes"
    let start := Machine.start {} 0
    (∃ tree, IsExpression source tree) ∧ start.sink.AcceptsAll ∧ start.evaluate 2 source = .done (.bool true) start ∧
      start.run 3 (printing source) = .done () (start.afterPrint (.bool true)) ∧
      (start.afterPrint (.bool true)).sink.written = "true\n".toUTF8 := by
  intro source start
  let bang : Token := { kind := .bang, lexeme := "!", literal := .none, line := 1 }
  let nil : Token := { kind := .nilWord, lexeme := "nil", literal := .none, line := 1 }
  have hscan : (scan source).diagnostics = [] ∧ (scan source).tokens = [bang, nil, .closing 1] := by decide +kernel
  have hread : Parser.expression (levels (scan source).tokens) (scan source).tokens =
      .done (.unary bang (.literal .none)) [.closing 1] [] := by
    rw [hscan.2]
    rfl
  have hsource : IsExpression source (.unary bang (.literal .none)) := ⟨hscan.1, _, hread, rfl⟩
  have hsink : start.sink.AcceptsAll := ⟨rfl, rfl⟩
  have hevaluate : start.evaluate 2 source = .done (.bool true) start := by
    obtain ⟨htree, hclean⟩ := hsource.readExpression_eq
    simp only [Machine.evaluate, htree, hclean]
    rfl
  refine ⟨⟨_, hsource⟩, hsink, hevaluate, ?_, by decide +kernel⟩
  rw [(evaluate_agrees_printing hsource hsink).1 2, hevaluate, Outcome.printed]

end Script
