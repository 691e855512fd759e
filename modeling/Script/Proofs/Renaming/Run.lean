import Mathlib.Logic.Equiv.Basic
import Script.Proofs.Renaming.Evaluation

/-!
# Programs with other names

Whoever changes all names of a program consistently changes what it shows of its names, and nothing else. Only
`init` and `clock` have a meaning of their own, and keywords, among them `this`.
-/

namespace Script

open Eval.Steps

/-! ### Runs of tokens -/

/-- What the tokens of a source are read as. -/
def Scan.program (scanned : Scan) : Parsed (List Stmt) :=
  let parsed := parseProgram scanned.tokens
  { parsed with diagnostics := scanned.diagnostics ++ parsed.diagnostics }

/-- Runs the tokens of a source, unless there are errors. -/
def Machine.runScan (level : Nat) (scanned : Scan) (machine : Machine) : Outcome RunError Unit :=
  let parsed := scanned.program
  if parsed.diagnostics.hadError then .failed (.unreadable parsed.diagnostics) machine
  else (interpret level parsed.tree machine).mapError .runtime

theorem Machine.runScan_scan (level : Nat) (source : String) (machine : Machine) :
    machine.runScan level (scan source) = machine.run level source :=
  rfl

/-- The values that the tokens of a source print, in the order in which they do. -/
def Machine.printed (level : Nat) (scanned : Scan) (machine : Machine) : List Value :=
  let parsed := scanned.program
  if parsed.diagnostics.hadError then [] else (interpretSteps level parsed.tree).log machine

/-- What is written to a sink without a limit is what is printed. -/
theorem Machine.written_runScan {level : Nat} {scanned : Scan} {machine after : Machine} {unit? : Option Unit}
    (hunlimited : machine.sink.limit = none) (hends : (machine.runScan level scanned).Ends unit? after) :
    after.sink.written = machine.sink.written ++ Sink.printed (machine.printed level scanned) := by
  unfold runScan at hends
  unfold printed
  by_cases herror : scanned.program.diagnostics.hadError
  · simp only [if_pos herror] at hends ⊢
    cases hends
    exact ByteArray.append_empty.symm
  · simp only [if_neg herror] at hends ⊢
    have hends := Outcome.ends_mapError_iff.mp hends
    rw [((interpretSteps level scanned.program.tree).truncates machine unit? after hunlimited hends).sink]

/-- The same syntax errors at renamed tokens, or the same error of the run at a renamed token. -/
inductive RunError.Renamed (r : Renaming) (tokens : List Token) : RunError → RunError → Prop where
  | unreadable {diagnostics diagnostics' : Diagnostics}
      (h : List.Forall₂ (Diagnostic.Renamed r tokens) diagnostics diagnostics') :
      Renamed r tokens (.unreadable diagnostics) (.unreadable diagnostics')
  | runtime {error error' : RuntimeError} (h : RuntimeError.Like r.matching error error') :
      Renamed r tokens (.runtime error) (.runtime error')

/-- How the run of some tokens and that of the renamed tokens compare. -/
structure RunsAlike (r : Renaming) (level : Nat) (scanned : Scan) (machine : Machine) : Prop where
  /-- Both end in the same way, at the same token but for its name, in states that only differ in names. -/
  ends : (machine.runScan level scanned).Renamed r (RunError.Renamed r scanned.tokens) Eq
    (machine.runScan level (scanned.renamed r))
  /-- The same values are printed. -/
  printed : List.Forall₂ (Value.Renamed r) (machine.printed level scanned)
    (machine.printed level (scanned.renamed r))
  /-- Their displays are the same with renamed names. -/
  displayed : (machine.printed level (scanned.renamed r)).map Value.text =
    (machine.printed level scanned).map (Value.renamedText r)
  /-- These displays are all that is written. -/
  written : ∀ run ∈ [scanned, scanned.renamed r], ∀ unit? after, (machine.runScan level run).Ends unit? after →
    after.sink.written = Sink.printed (machine.printed level run)

section Runs

variable {r : Renaming}

theorem renamed_start (sink : Sink) (hunlimited : sink.limit = none) (time : Clock) :
    (Machine.start sink time).Renamed r (.start sink time) := by
  have hempty : Store.Renamed r {} {} := by
    refine ⟨rfl, fun id => ?_, rfl, fun id => ?_, rfl, rfl⟩
    · simp only [Store.scope, Array.getD_eq_getD_getElem?, Array.getElem?_empty, Option.getD_none]
      exact Bindings.renamed_empty
    · simp only [Store.fields, Array.getD_eq_getD_getElem?, Array.getElem?_empty, Option.getD_none]
      exact Bindings.renamed_empty
  have hclock : (Value.callable (.native .clock)).Renamed r (.callable (.native .clock)) := .callable (.native .clock)
  have hglobals := Bindings.renamed_empty.set (Renaming.names_clock (r := r)) hclock
  exact ⟨rfl, rfl, rfl, (hempty.addScope hglobals).2, ⟨hunlimited, hunlimited, rfl⟩, rfl⟩

/-- The errors of the pieces name no tokens. -/
theorem renamed_diagnostics_scan (source : String) :
    List.Forall₂ (Diagnostic.Renamed r (scan source).tokens) (scan source).diagnostics (scan source).diagnostics := by
  refine List.forall₂_same.mpr fun diagnostic hmem => ?_
  obtain ⟨piece, -, hpiece⟩ := List.mem_filterMap.mp hmem
  unfold Piece.diagnostic? at hpiece
  split at hpiece <;> cases hpiece <;> exact .atLine _ _

/-- The renamed tokens of a source are read as renamed trees, with the same errors. -/
theorem Scan.program_renamed (r : Renaming) (source : String) :
    List.Forall₂ (Stmt.Like r.matching) (scan source).program.tree ((scan source).renamed r).program.tree ∧
      List.Forall₂ (Diagnostic.Renamed r (scan source).tokens) (scan source).program.diagnostics
        ((scan source).renamed r).program.diagnostics := by
  obtain ⟨htrees, hdiagnostics⟩ := parseProgram_renamed r source
  exact ⟨htrees, List.rel_append (renamed_diagnostics_scan source) hdiagnostics⟩

theorem hadError_renamed {tokens : List Token} {diagnostics diagnostics' : Diagnostics}
    (h : List.Forall₂ (Diagnostic.Renamed r tokens) diagnostics diagnostics') :
    diagnostics'.hadError = diagnostics.hadError := by
  cases h <;> rfl

section Machines

variable {machine machine' : Machine} (hmachine : machine.Renamed r machine')

include hmachine

theorem Machine.Renamed.runScan (level : Nat) (source : String) :
    (machine.runScan level (scan source)).Renamed r (RunError.Renamed r (scan source).tokens) Eq
      (machine'.runScan level ((scan source).renamed r)) := by
  obtain ⟨htrees, hdiagnostics⟩ := Scan.program_renamed r source
  unfold Machine.runScan
  simp only [hadError_renamed hdiagnostics]
  split
  · exact .failed (.unreadable hdiagnostics) hmachine
  · exact (renamed_interpret level htrees machine machine' hmachine).1.mapError fun _ _ => .runtime

theorem Machine.Renamed.printed (level : Nat) (source : String) :
    List.Forall₂ (Value.Renamed r) (machine.printed level (scan source))
      (machine'.printed level ((scan source).renamed r)) := by
  obtain ⟨htrees, hdiagnostics⟩ := Scan.program_renamed r source
  unfold Machine.printed
  simp only [hadError_renamed hdiagnostics]
  split
  · exact .nil
  · exact (renamed_interpret level htrees machine machine' hmachine).2

end Machines

theorem Value.map_text_of_renamed {values values' : List Value} (h : List.Forall₂ (Value.Renamed r) values values') :
    values'.map Value.text = values.map (Value.renamedText r) := by
  induction h with
  | nil => rfl
  | cons hvalue _ ih => rw [List.map_cons, List.map_cons, hvalue.text_eq, ih]

/-- Two names that are exchanged. -/
def Renaming.swap {name name' : String} (h : IsName name) (h' : IsName name')
    (hkept : ∀ kept ∈ [Class.initializer, Native.clock.name], kept ≠ name ∧ kept ≠ name') : Renaming where
  rename := Equiv.swap name name'
  injective _ _ hsame := (Equiv.swap name name').injective hsame
  free hword kind := by
    rw [Equiv.swap_apply_def]
    split
    · exact h'.not_keyword kind
    · split
      · exact h.not_keyword kind
      · exact hword.not_keyword kind
  initializer := by
    obtain ⟨hne, hne'⟩ := hkept Class.initializer List.mem_cons_self
    exact Equiv.swap_apply_of_ne_of_ne hne hne'
  clock := by
    obtain ⟨hne, hne'⟩ := hkept Native.clock.name (List.mem_cons_of_mem _ (List.mem_singleton_self _))
    exact Equiv.swap_apply_of_ne_of_ne hne hne'

/-- A consistent change of names is a change of names only: the tokens of a source run as before, print the same
values under their new names, and end in the same way. -/
theorem run_renamed (r : Renaming) (source : String) (level : Nat) (refusesFlush : Bool) (time : Clock) :
    RunsAlike r level (scan source) (.start { refusesFlush } time) := by
  have hmachine := renamed_start (r := r) { refusesFlush } rfl time
  have hprinted := hmachine.printed level source
  have hdisplayed := Value.map_text_of_renamed hprinted
  refine ⟨hmachine.runScan level source, hprinted, hdisplayed, fun run _ unit? after hends => ?_⟩
  rw [Machine.written_runScan rfl hends]
  exact ByteArray.empty_append

/-- A class and a function exchange their names, with all parameters and properties of these names. -/
theorem run_renamed_swapped :
    let source := "class A \x7b init(b) \x7b this.b = b; print this; \x7d \x7d " ++
      "func b(A) \x7b print A; print b; \x7d b(A(nil).b);"
    let source' := "class b \x7b init(A) \x7b this.A = A; print this; \x7d \x7d " ++
      "func A(b) \x7b print b; print A; \x7d A(b(nil).A);"
    let r := Renaming.swap (isName_of_word (show "A".toList = ['A'] from rfl) rfl rfl)
      (isName_of_word (show "b".toList = ['b'] from rfl) rfl rfl) (by decide)
    (scan source).renamed r = scan source' ∧ ∃ machine machine',
      Machine.run 12 source (.start {} 0) = .done () machine ∧
      machine.sink.written = "A instance\nnil\n<fn b>\n".toUTF8 ∧
      Machine.run 12 source' (.start {} 0) = .done () machine' ∧
      machine'.sink.written = "b instance\nnil\n<fn A>\n".toUTF8 := by
  intro source source' r
  have hscan : (scan source).renamed r = scan source' := by decide +kernel
  have hrun : (Machine.run 12 source (.start {} 0)).machine?.map (·.sink.written) =
      some "A instance\nnil\n<fn b>\n".toUTF8 := by
    decide +kernel
  have htexts : (Machine.printed 12 (scan source) (.start {} 0)).map (Value.renamedText r) =
      ["b instance", "nil", "<fn A>"] := by
    decide +kernel
  obtain ⟨machine, hmachine, hwritten⟩ := Option.map_eq_some_iff.mp hrun
  obtain ⟨_, hdone⟩ := Outcome.exists_of_machine? hmachine
  obtain ⟨hends, -, hdisplayed, hlines⟩ := run_renamed r source 12 false 0
  have hlines' := hlines (scan source') (by simp [hscan])
  rw [hscan] at hends hdisplayed
  simp only [Machine.runScan_scan, hdone] at hends hlines'
  generalize Machine.run 12 source' (.start {} 0) = outcome' at hends hlines' ⊢
  cases hends with
  | @done _ _ _ machine' =>
      refine ⟨hscan, machine, machine', hdone, hwritten, rfl, ?_⟩
      rw [hlines' (some ()) machine' (.done () machine'), Sink.printed, hdisplayed, htexts]
      decide +kernel

end Runs

end Script
