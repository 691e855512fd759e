import Script.Proofs.Reachability.Evaluation

/-!
# Between the operations of a session

Whatever is evaluated or executed comes back to the environment and the depth of calls it started with,
even if an error ends it deep inside of blocks and calls. So every operation of a session starts where
the first one did.
-/

namespace Script

variable {ε δ α : Type}

/-- A state that a session can come to. Errors end an operation, not the session. -/
inductive Machine.Reached : Machine → Prop where
  | start (sink : Sink) (time : Clock) : Reached (.start sink time)
  | run {machine after : Machine} (hmachine : Reached machine) (level : Nat) (source : String)
      {value? : Option Unit} (hends : (machine.run level source).Ends value? after) : Reached after
  | evaluate {machine after : Machine} (hmachine : Reached machine) (level : Nat) (source : String)
      {value? : Option Value} (hends : (machine.evaluate level source).Ends value? after) :
      Reached after
  | interpret {machine after : Machine} (hmachine : Reached machine) (level : Nat)
      (program : List Stmt) {value? : Option Unit}
      (hends : (interpret level program machine).Ends value? after) : Reached after
  | eval {machine after : Machine} (hmachine : Reached machine) (level : Nat) (expression : Expr)
      {value? : Option Value} (hends : (eval level expression machine).Ends value? after) :
      Reached after
  | call {machine after : Machine} (hmachine : Reached machine) (level : Nat) (callable : Callable)
      (arguments : List Value) {value? : Option Value}
      (hends : (callable.call (exec level) arguments machine).Ends value? after) : Reached after
  | clock {machine : Machine} (hmachine : Reached machine) (time : Clock) :
      Reached { machine with time }

/-! ### What is kept -/

section Kept

variable {level : Nat} {machine after : Machine}

/-- What is confined to some cells is confined to all, of which nothing need be known. -/
theorem Eval.Confined.kept {body : Eval α} {post : α → Prop}
    (h : Confined Set.univ True body post) {value? : Option α}
    (hends : (body machine).Ends value? after) : machine.Kept after :=
  (h machine value? after hends).1

theorem kept_of_eval {expression : Expr} {value? : Option Value}
    (hends : (eval level expression machine).Ends value? after) : machine.Kept after :=
  (confined_eval Set.univ level expression True).kept hends

theorem kept_of_exec {statement : Stmt} {flow? : Option Flow}
    (hends : (exec level statement machine).Ends flow? after) : machine.Kept after :=
  (confined_exec Set.univ level statement True).kept hends

theorem kept_of_sequence {statements : List Stmt} {flow? : Option Flow}
    (hends : (Eval.sequence (exec level) statements machine).Ends flow? after) :
    machine.Kept after :=
  (Eval.confined_sequence (fun statement => confined_exec Set.univ level statement True)
    statements).kept hends

theorem kept_of_interpret {program : List Stmt} {value? : Option Unit}
    (hends : (interpret level program machine).Ends value? after) : machine.Kept after := by
  have hconfined : Eval.Confined Set.univ True (interpret level program) fun _ => True := by
    unfold interpret
    refine Eval.confined_bind (Eval.confined_sequence
      (fun statement => confined_exec Set.univ level statement True) program) fun _ => ?_
    exact Eval.confined_flush
  exact hconfined.kept hends

theorem kept_of_call {callable : Callable} {arguments : List Value} {value? : Option Value}
    (hends : (callable.call (exec level) arguments machine).Ends value? after) :
    machine.Kept after := by
  have hconfined : Eval.Confined Set.univ True (callable.call (exec level) arguments)
      fun value => value.cells ⊆ Set.univ :=
    Callable.confined_call (fun pre statement => confined_exec Set.univ level statement pre)
      fun _ => ⟨Set.subset_univ _, fun _ _ => Set.subset_univ _⟩
  exact hconfined.kept hends

theorem kept_of_run {source : String} {value? : Option Unit}
    (hends : (machine.run level source).Ends value? after) : machine.Kept after := by
  unfold Machine.run at hends
  simp only at hends
  split at hends
  · cases hends
    exact .refl machine
  · exact kept_of_interpret (Outcome.ends_mapError_iff.mp hends)

theorem kept_of_evaluate {source : String} {value? : Option Value}
    (hends : (machine.evaluate level source).Ends value? after) : machine.Kept after := by
  unfold Machine.evaluate at hends
  simp only at hends
  split at hends
  · split at hends
    · cases hends
      exact .refl machine
    · exact kept_of_eval (Outcome.ends_mapError_iff.mp hends)
  · cases hends
    exact .refl machine

end Kept

/-- At the outermost level: no scope but that of the globals, and no call in progress. -/
structure Machine.AtTop (machine : Machine) : Prop where
  globals : machine.globals = { innermost := 0 }
  environment : machine.environment = machine.globals
  depth : machine.depth = 0

theorem Machine.AtTop.of_kept {before after : Machine} (h : before.AtTop) (hkept : before.Kept after) :
    after.AtTop := by
  refine ⟨hkept.globals.trans h.globals, ?_, hkept.depth.trans h.depth⟩
  rw [hkept.environment, hkept.globals, h.environment]

theorem Machine.Reached.atTop {machine : Machine} (h : machine.Reached) : machine.AtTop := by
  induction h with
  | start sink time => exact ⟨rfl, rfl, rfl⟩
  | run _ level source hends ih => exact ih.of_kept (kept_of_run hends)
  | evaluate _ level source hends ih => exact ih.of_kept (kept_of_evaluate hends)
  | interpret _ level program hends ih => exact ih.of_kept (kept_of_interpret hends)
  | eval _ level expression hends ih => exact ih.of_kept (kept_of_eval hends)
  | call _ level callable arguments hends ih => exact ih.of_kept (kept_of_call hends)
  | clock _ time ih => exact ⟨ih.globals, ih.environment, ih.depth⟩

/-- However it ends, what is evaluated or executed goes back to the environment and the depth of calls
that it started with, in any state whatever. So between the operations of a session the environment is
the scope of the globals alone, and no call is in progress. -/
theorem every_exit_restores :
    (∀ level machine,
      (∀ expression value? after, (eval level expression machine).Ends value? after →
        after.environment = machine.environment ∧ after.depth = machine.depth) ∧
      (∀ statement flow? after, (exec level statement machine).Ends flow? after →
        after.environment = machine.environment ∧ after.depth = machine.depth) ∧
      (∀ statements flow? after, (Eval.sequence (exec level) statements machine).Ends flow? after →
        after.environment = machine.environment ∧ after.depth = machine.depth) ∧
      ∀ (callable : Callable) arguments value? after,
        (callable.call (exec level) arguments machine).Ends value? after →
          after.environment = machine.environment ∧ after.depth = machine.depth) ∧
    ∀ machine : Machine, machine.Reached → machine.environment = machine.globals ∧
      machine.globals = { innermost := 0 } ∧ machine.depth = 0 := by
  refine ⟨fun level machine => ⟨?_, ?_, ?_, ?_⟩, fun machine hmachine => ?_⟩
  · intro expression value? after hends
    exact ⟨(kept_of_eval hends).environment, (kept_of_eval hends).depth⟩
  · intro statement flow? after hends
    exact ⟨(kept_of_exec hends).environment, (kept_of_exec hends).depth⟩
  · intro statements flow? after hends
    exact ⟨(kept_of_sequence hends).environment, (kept_of_sequence hends).depth⟩
  · intro callable arguments value? after hends
    exact ⟨(kept_of_call hends).environment, (kept_of_call hends).depth⟩
  · have htop := hmachine.atTop
    exact ⟨htop.environment, htop.globals, htop.depth⟩

/-- An error inside of a block leaves the environment and the depth of calls as they were. -/
theorem every_exit_restores_after_error :
    let name : Token := { kind := .identifier, lexeme := "x", literal := .none, line := 1 }
    let program := [Stmt.block [.expression (.variable name)]]
    ∃ after, (interpret 4 program (.start {} 0)).Ends none after ∧
      after.environment = after.globals ∧ after.globals = { innermost := 0 } ∧ after.depth = 0 := by
  intro name program
  have hrun : ∃ after, interpret 4 program (.start {} 0) = .failed (.undefinedVariable name) after :=
    ⟨_, rfl⟩
  obtain ⟨after, hrun⟩ := hrun
  have hends : (interpret 4 program (.start {} 0)).Ends none after := by
    rw [hrun]
    exact .failed _ after
  exact ⟨after, hends, every_exit_restores.2 after (.interpret (.start {} 0) 4 program hends)⟩

end Script
