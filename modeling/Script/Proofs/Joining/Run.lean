import Mathlib.Order.CompleteBooleanAlgebra
import Mathlib.Order.CompletePartialOrder
import Script.Proofs.Alike.Tokens
import Script.Proofs.Discipline.Moments
import Script.Proofs.Joining.Parser

/-!
# The run of joined sources

To run two sources joined by a line break is to run the first and then the second, up to the lines of the
second, unless the first ends early. So lines that are run one by one do what they do as one script.
-/

namespace Script

theorem Matching.faithful_moved {shifts : Set Nat} (hzero : 0 ∈ shifts) : (moved shifts).Faithful where
  refl _ _ := ⟨0, hzero, rfl⟩
  kind := by
    rintro _ _ _ ⟨_, _, rfl⟩
    rfl
  lexeme := by
    rintro _ _ _ ⟨_, _, rfl⟩
    rfl

/-! ### Flushing -/

/-- Whether the sink refuses to be flushed does not change. -/
def flushDiscipline (refuses : Bool) : Discipline Unit where
  state _ machine := machine.sink.refusesFlush = refuses
  function _ _ := True
  method _ _ := True
  cls _ _ := True
  object _ _ := True
  task _ _ _ := True
  function_mono _ _ := trivial
  method_mono _ _ := trivial
  cls_mono _ _ := trivial
  object_mono _ _ := trivial
  task_mono _ _ := trivial
  method_of_cls _ _ _ _ := trivial
  cls_of_object _ := trivial
  elsewhere _ _ _ h := h
  written _ h := h
  part _ _ := trivial
  block _ h := ⟨(), le_refl _, h, fun _ _ => trivial⟩
  body _ _ h := ⟨(), le_refl _, h, fun _ _ => trivial⟩
  declared _ h := ⟨(), le_refl _, h, trivial⟩
  declaredClass _ h := ⟨(), le_refl _, h, trivial⟩
  bound _ _ h := ⟨(), le_refl _, h, trivial⟩
  made _ h := ⟨(), le_refl _, h, trivial⟩
  defined _ _ _ h := ⟨(), le_refl _, h⟩
  assigned _ _ _ h := ⟨(), le_refl _, h⟩
  field _ _ _ h := ⟨(), le_refl _, h⟩

theorem refusesFlush_of_sequence {level : Nat} {program : List Stmt} {machine after : Machine} {flow : Flow}
    (h : Eval.sequence (exec level) program machine = .done flow after) :
    after.sink.refusesFlush = machine.sink.refusesFlush := by
  have hgood : (flushDiscipline machine.sink.refusesFlush).Good () machine :=
    ⟨rfl, fun value _ => Discipline.value_of_all (fun _ => trivial) (fun _ => trivial) (fun _ => trivial) value⟩
  obtain ⟨_, -, hafter, -⟩ := hgood.sequence (fun _ _ => trivial) h
  exact hafter.state

/-! ### Runs -/

/-- The run of the source succeeds, and comes to its last statement: no `return` ends it. -/
structure Machine.Completes (level : Nat) (source : String) (machine after : Machine) : Prop where
  run : machine.run level source = .done () after
  last : Eval.sequence (exec level) (readProgram source).tree machine = .done .next after

inductive RunError.Like (T : Matching) : RunError → RunError → Prop where
  | runtime {error error' : RuntimeError} (h : RuntimeError.Like T error error') :
      Like T (.runtime error) (.runtime error')

/-- The lines were run one by one, each to its last statement. They are the lines of the script, and none
but the first begins with `else`. -/
inductive Entered (level : Nat) (start : Machine) : String → Machine → Prop where
  | first {line : String} {machine : Machine} (hline : start.Completes level line machine) :
      Entered level start line machine
  | next {script line : String} {machine after : Machine} (hscript : Entered level start script machine)
      (helse : ∀ token ∈ (scan line).tokens.head?, token.kind ≠ .elseWord)
      (hline : machine.Completes level line after) :
      Entered level start (script ++ "\n" ++ line) after

section Runs

variable {level : Nat} {source : String} {machine after : Machine}

theorem run_of_readable (hread : (readProgram source).diagnostics = []) :
    machine.run level source = (interpret level (readProgram source).tree machine).mapError .runtime := by
  simp [Machine.run, Diagnostics.hadError, hread]

theorem run_eq_unreadable_iff {diagnostics : Diagnostics} :
    machine.run level source = .failed (.unreadable diagnostics) after ↔
      (readProgram source).diagnostics ≠ [] ∧ after = machine ∧
        diagnostics = (readProgram source).diagnostics := by
  by_cases hread : (readProgram source).diagnostics = []
  · rw [run_of_readable hread]
    cases interpret level (readProgram source).tree machine <;> simp [Outcome.mapError, hread]
  · have hrun : machine.run level source = .failed (.unreadable (readProgram source).diagnostics) machine := by
      simp [Machine.run, Diagnostics.hadError, hread]
    simp [hrun, hread, eq_comm, and_comm]

theorem Machine.Completes.readable (h : machine.Completes level source after) :
    (readProgram source).diagnostics = [] := by
  by_contra hread
  have hrun : machine.run level source = .failed (.unreadable (readProgram source).diagnostics) machine :=
    run_eq_unreadable_iff.mpr ⟨hread, rfl, rfl⟩
  rw [h.run] at hrun
  cases hrun

theorem interpret_append {before : List Stmt}
    (hbefore : Eval.sequence (exec level) before machine = .done .next after) (rest : List Stmt) :
    interpret level (before ++ rest) machine = interpret level rest after := by
  unfold interpret
  rw [Eval.bind_apply, Eval.bind_apply, Eval.sequence_append hbefore]

theorem interpret_append_of_ends {before : List Stmt}
    (hbefore : ∀ middle, Eval.sequence (exec level) before machine ≠ .done .next middle) (rest : List Stmt) :
    interpret level (before ++ rest) machine = interpret level before machine := by
  unfold interpret
  rw [Eval.bind_apply, Eval.bind_apply, Eval.sequence_append_of_ends hbefore]

/-- Where nothing but the last statement ends a run, it succeeds. -/
theorem Machine.completes_of_sequence (hread : (readProgram source).diagnostics = [])
    (hflush : machine.sink.refusesFlush = false)
    (hlast : Eval.sequence (exec level) (readProgram source).tree machine = .done .next after) :
    machine.Completes level source after := by
  refine ⟨?_, hlast⟩
  have hflushes : Eval.flush after = .done () after := by
    rw [← refusesFlush_of_sequence hlast] at hflush
    simp [Eval.flush, Sink.flush, hflush]
  rw [run_of_readable hread, interpret, Eval.bind_apply, hlast]
  simp only [hflushes]
  rfl

/-- The state after the last statement of a source, if none ends the run before. -/
def Machine.last? (level : Nat) (source : String) (machine : Machine) : Option Machine :=
  match Eval.sequence (exec level) (readProgram source).tree machine with
  | .done .next after => some after
  | _ => none

theorem Machine.sequence_of_last? (h : machine.last? level source = some after) :
    Eval.sequence (exec level) (readProgram source).tree machine = .done .next after := by
  unfold last? at h
  split at h
  · next hrun => rw [hrun, Option.some.inj h]
  · cases h

/-- The name that a run finds undefined, if that is how it fails. -/
def Outcome.undefined? : Outcome RunError Unit → Option Token
  | .failed (.runtime (.undefinedVariable name)) _ => some name
  | _ => none

theorem Outcome.exists_of_undefined? {outcome : Outcome RunError Unit} {name : Token}
    (h : outcome.undefined? = some name) :
    ∃ after, outcome = .failed (.runtime (.undefinedVariable name)) after := by
  unfold undefined? at h
  split at h
  · next after => exact ⟨after, by rw [Option.some.inj h]⟩
  · cases h

theorem Outcome.Like.mapError {α ε δ : Type} {T : Matching} {E : ε → ε → Prop} {D : δ → δ → Prop}
    {V : α → α → Prop} {outcome outcome' : Outcome ε α} (h : Outcome.Like T E V outcome outcome') {f f' : ε → δ}
    (hf : ∀ error error', E error error' → D (f error) (f' error')) :
    Outcome.Like T D V (outcome.mapError f) (outcome'.mapError f') := by
  cases h with
  | done hvalue hmachine => exact .done hvalue hmachine
  | failed herror hmachine => exact .failed (hf _ _ herror) hmachine
  | exhausted => exact .exhausted

theorem like_run {T : Matching} (hfaithful : T.Faithful) {program : List Stmt}
    (hread : (readProgram source).diagnostics = [])
    (hprogram : List.Forall₂ (Stmt.Like T) (readProgram source).tree program)
    (hmachine : Machine.Like T machine after) :
    Outcome.Like T (RunError.Like T) Eq (machine.run level source)
      ((interpret level program after).mapError .runtime) := by
  rw [run_of_readable hread]
  exact (like_interpret hfaithful level hprogram hmachine).mapError fun _ _ => .runtime

end Runs

/-! ### Joined sources -/

/-- What the run of two sources joined by a line break is, in terms of the runs of both. -/
structure Splits (level : Nat) (machine : Machine) (first second : String) : Prop where
  /-- The errors are those of the second source, further down. -/
  diagnostics : (readProgram (first ++ "\n" ++ second)).diagnostics =
    (readProgram second).diagnostics.map (Diagnostic.down (linesOf first))
  unreadable : ∀ diagnostics after,
    machine.run level (first ++ "\n" ++ second) = .failed (.unreadable diagnostics) after ↔
      after = machine ∧ ∃ alone, machine.run level second = .failed (.unreadable alone) machine ∧
        diagnostics = alone.map (Diagnostic.down (linesOf first))
  /-- Behind the first source, the statements of the second are executed, with their tokens further down. -/
  executes : (readProgram second).diagnostics = [] → ∀ middle, machine.Completes level first middle →
    ∃ later, List.Forall₂ (Stmt.Like (.moved {linesOf first})) (readProgram second).tree later ∧
      machine.run level (first ++ "\n" ++ second) = (interpret level later middle).mapError .runtime
  /-- This does the same as to run the second source, but for the lines of tokens. -/
  continues : (readProgram second).diagnostics = [] → ∀ middle, machine.Completes level first middle →
    Outcome.Like (.moved {0, linesOf first}) (RunError.Like (.moved {0, linesOf first})) Eq
      (middle.run level second) (machine.run level (first ++ "\n" ++ second))
  /-- The second source has no part in a run that the first one ends. -/
  stops : (readProgram second).diagnostics = [] → (∀ middle, ¬ machine.Completes level first middle) →
    machine.run level (first ++ "\n" ++ second) = machine.run level first

section Joined

variable {level : Nat} {machine : Machine} {first second : String}
  (hfirst : (readProgram first).diagnostics = [])
  (helse : ∀ token ∈ (scan second).tokens.head?, token.kind ≠ .elseWord)

include hfirst helse

/-- Joined sources are executed as their statements are, one after the other. -/
theorem exists_run_joined (hsecond : (readProgram second).diagnostics = []) {shifts : Set Nat}
    (hlines : linesOf first ∈ shifts) : ∃ later,
    List.Forall₂ (Stmt.Like (.moved shifts)) (readProgram second).tree later ∧
      machine.run level (first ++ "\n" ++ second) =
        (interpret level ((readProgram first).tree ++ later) machine).mapError .runtime := by
  obtain ⟨hdiagnostics, htree⟩ := readProgram_joined hfirst helse hlines
  obtain ⟨later, hlater, hjoined⟩ := htree hsecond
  rw [hsecond, List.map_nil] at hdiagnostics
  exact ⟨later, hlater, by rw [run_of_readable hdiagnostics, hjoined]⟩

theorem splits (hflush : machine.sink.refusesFlush = false) : Splits level machine first second where
  diagnostics := (readProgram_joined hfirst helse (Set.mem_singleton _)).1
  unreadable diagnostics after := by
    rw [run_eq_unreadable_iff, (readProgram_joined hfirst helse (Set.mem_singleton _)).1]
    constructor
    · rintro ⟨hne, rfl, rfl⟩
      refine ⟨rfl, _, run_eq_unreadable_iff.mpr ⟨?_, rfl, rfl⟩, rfl⟩
      exact fun hnone => hne (by rw [hnone, List.map_nil])
    · rintro ⟨rfl, alone, halone, rfl⟩
      obtain ⟨hne, -, rfl⟩ := run_eq_unreadable_iff.mp halone
      exact ⟨fun hnone => hne (List.map_eq_nil_iff.mp hnone), rfl, rfl⟩
  executes hsecond middle hcompletes := by
    obtain ⟨later, hlater, hrun⟩ := exists_run_joined hfirst helse hsecond (Set.mem_singleton _)
    exact ⟨later, hlater, by rw [hrun, interpret_append hcompletes.last]⟩
  continues hsecond middle hcompletes := by
    obtain ⟨later, hlater, hrun⟩ :=
      exists_run_joined hfirst helse hsecond (Set.mem_insert_of_mem 0 (Set.mem_singleton _))
    have hfaithful := Matching.faithful_moved (Set.mem_insert 0 {linesOf first})
    rw [hrun, interpret_append hcompletes.last]
    exact like_run hfaithful hsecond hlater (middle.like_self hfaithful)
  stops hsecond hends := by
    obtain ⟨later, -, hrun⟩ := exists_run_joined hfirst helse hsecond (Set.mem_singleton _)
    have hnot (middle : Machine) :
        Eval.sequence (exec level) (readProgram first).tree machine ≠ .done .next middle :=
      fun hlast => hends middle (Machine.completes_of_sequence hfirst hflush hlast)
    rw [hrun, interpret_append_of_ends hnot, run_of_readable hfirst]

end Joined

/-! ### Lines one by one -/

/-- As a script the lines come to their end too, in a state like that after the last line. -/
theorem Entered.exists_sequence {level : Nat} {start machine : Machine} {script : String}
    (h : Entered level start script machine) : (readProgram script).diagnostics = [] ∧ ∃ after,
      Eval.sequence (exec level) (readProgram script).tree start = .done .next after ∧
        Machine.Like (.moved Set.univ) machine after := by
  have hfaithful := Matching.faithful_moved (Set.mem_univ 0)
  induction h with
  | @first line machine hline =>
      exact ⟨hline.readable, machine, hline.last, machine.like_self hfaithful⟩
  | @next script line machine after hscript helse hline ih =>
      obtain ⟨hread, middle, hsequence, hmiddle⟩ := ih
      obtain ⟨hdiagnostics, htree⟩ := readProgram_joined hread helse (Set.mem_univ _)
      obtain ⟨later, hlater, hjoined⟩ := htree hline.readable
      rw [hline.readable, List.map_nil] at hdiagnostics
      refine ⟨hdiagnostics, ?_⟩
      rw [hjoined, Eval.sequence_append hsequence]
      have hends := like_exec hfaithful level hlater hmiddle
      rw [hline.last] at hends
      generalize Eval.sequence (exec level) later middle = outcome at hends ⊢
      cases hends with
      | done hflow hafter =>
          cases hflow
          exact ⟨_, rfl, hafter⟩

/-- A line that is run after others does what it does at the end of the script of all of them. -/
theorem Entered.like_run {level : Nat} {start machine : Machine} {script : String}
    (h : Entered level start script machine) {line : String} (hread : (readProgram line).diagnostics = [])
    (helse : ∀ token ∈ (scan line).tokens.head?, token.kind ≠ .elseWord) :
    Outcome.Like (.moved Set.univ) (RunError.Like (.moved Set.univ)) Eq (machine.run level line)
      (start.run level (script ++ "\n" ++ line)) := by
  obtain ⟨hscript, after, hsequence, hafter⟩ := h.exists_sequence
  obtain ⟨later, hlater, hrun⟩ := exists_run_joined hscript helse hread (Set.mem_univ _)
  rw [hrun, interpret_append hsequence]
  exact Script.like_run (Matching.faithful_moved (Set.mem_univ 0)) hread hlater hafter

/-- To run two sources joined by a line break is to run one after the other, and so it is for a whole session
of lines, up to the lines of tokens. -/
theorem run_joined (level : Nat) {second : String}
    (helse : ∀ token ∈ (scan second).tokens.head?, token.kind ≠ .elseWord) :
    (∀ first machine, (readProgram first).diagnostics = [] → machine.sink.refusesFlush = false →
      Splits level machine first second) ∧
    ∀ start script machine, Entered level start script machine → (readProgram second).diagnostics = [] →
      Outcome.Like (.moved Set.univ) (RunError.Like (.moved Set.univ)) Eq (machine.run level second)
        (start.run level (script ++ "\n" ++ second)) :=
  ⟨fun _ _ hfirst hflush => splits hfirst helse hflush,
    fun _ _ _ hentered hread => hentered.like_run hread helse⟩

theorem run_joined_before_fault :
    let first := "var a;"
    let second := "a;\nb;"
    let start := Machine.start {} 0
    ∃ (middle : Machine) (name : Token) (after : Machine),
      start.Completes 20 first middle ∧ Splits 20 start first second ∧
        start.run 20 (first ++ "\n" ++ second) = .failed (.runtime (.undefinedVariable name)) after ∧
        name.line = 3 ∧
        Outcome.Like (.moved Set.univ) (RunError.Like (.moved Set.univ)) Eq (middle.run 20 second)
          (start.run 20 (first ++ "\n" ++ second)) := by
  intro first second start
  have hfirst : (readProgram first).diagnostics = [] := by decide +kernel
  have hsecond : (readProgram second).diagnostics = [] := by decide +kernel
  have helse : ∀ token ∈ (scan second).tokens.head?, token.kind ≠ .elseWord := by decide +kernel
  have hlast : (start.last? 20 first).isSome = true := by decide +kernel
  have hjoined : (start.run 20 (first ++ "\n" ++ second)).undefined?.any (·.line == 3) = true := by
    decide +kernel
  obtain ⟨middle, hmiddle⟩ := Option.isSome_iff_exists.mp hlast
  obtain ⟨name, hname, hline⟩ := (Option.any_eq_true _ _).mp hjoined
  obtain ⟨after, hfailed⟩ := Outcome.exists_of_undefined? hname
  have hcompletes := Machine.completes_of_sequence hfirst rfl (Machine.sequence_of_last? hmiddle)
  exact ⟨middle, name, after, hcompletes, (run_joined 20 helse).1 first start hfirst rfl, hfailed,
    beq_iff_eq.mp hline, (run_joined 20 helse).2 start first middle (.first hcompletes) hsecond⟩

end Script
