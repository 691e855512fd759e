import Script.Run

/-!
# How a computation ends

A computation in two steps ends as its second step does, unless the first one fails. A call is refused, or ends as
what is called does.
-/

namespace Script

variable {ε δ α β : Type} {machine after : Machine}

/-- How a computation ends that does end, with a value unless it fails. -/
inductive Outcome.Ends : Outcome ε α → Option α → Machine → Prop where
  | done (value : α) (machine : Machine) : Ends (.done value machine) (some value) machine
  | failed (error : ε) (machine : Machine) : Ends (.failed error machine) none machine

theorem Outcome.Ends.of_done {outcome : Outcome ε α} {value : α} (h : outcome = .done value after) :
    outcome.Ends (some value) after :=
  h ▸ .done value after

theorem Outcome.Ends.unique {outcome : Outcome ε α} {value? other? : Option α} {after last : Machine}
    (h : outcome.Ends value? after) (hother : outcome.Ends other? last) : other? = value? ∧ last = after := by
  cases h <;> cases hother <;> exact ⟨rfl, rfl⟩

/-- How a computation breaks off: with an error, or with none where it is exhausted. -/
inductive Outcome.Breaks : Outcome ε α → Option ε → Prop where
  | failed (error : ε) (machine : Machine) : Breaks (.failed error machine) (some error)
  | exhausted : Breaks .exhausted none

theorem Outcome.ends_mapMachine_iff {outcome : Outcome ε α} {change : Machine → Machine}
    {value? : Option α} {after : Machine} :
    (outcome.mapMachine change).Ends value? after ↔
      ∃ inner, outcome.Ends value? inner ∧ after = change inner := by
  constructor
  · intro h
    cases outcome with
    | done value machine =>
        cases h
        exact ⟨machine, .done value machine, rfl⟩
    | failed error machine =>
        cases h
        exact ⟨machine, .failed error machine, rfl⟩
    | exhausted => cases h
  · rintro ⟨inner, h, rfl⟩
    cases h with
    | done value => exact .done value (change inner)
    | failed error => exact .failed error (change inner)

theorem Outcome.ends_mapError_iff {outcome : Outcome ε α} {f : ε → δ} {value? : Option α}
    {after : Machine} : (outcome.mapError f).Ends value? after ↔ outcome.Ends value? after := by
  constructor
  · intro h
    cases outcome with
    | done value machine =>
        cases h
        exact .done value after
    | failed error machine =>
        cases h
        exact .failed error after
    | exhausted => cases h
  · rintro (⟨value, machine⟩ | ⟨error, machine⟩)
    · exact .done value after
    · exact .failed (f error) after

namespace Eval

variable {first : Eval α} {next : α → Eval β}

theorem bind_eq_done_iff {last : β} : (first >>= next) machine = .done last after ↔
    ∃ value middle, first machine = .done value middle ∧ next value middle = .done last after := by
  rw [bind_apply]
  cases first machine <;> simp [and_assoc]

/-- A computation in two steps breaks off in the first one, or as the second one does. -/
theorem breaks_bind {error? : Option RuntimeError} (h : ((first >>= next) machine).Breaks error?) :
    (first machine).Breaks error? ∨
      ∃ value middle, first machine = .done value middle ∧ (next value middle).Breaks error? := by
  rw [bind_apply] at h
  cases hfirst : first machine with
  | done value middle =>
      rw [hfirst] at h
      exact .inr ⟨value, middle, rfl, h⟩
  | failed error middle =>
      rw [hfirst] at h
      cases h
      exact .inl (.failed error middle)
  | exhausted =>
      rw [hfirst] at h
      cases h
      exact .inl .exhausted

/-- A computation in two steps fails in the first one, or ends as the second one does. -/
theorem ends_bind {last? : Option β} (h : ((first >>= next) machine).Ends last? after) :
    (∃ error, first machine = .failed error after ∧ last? = none) ∨
      ∃ value middle, first machine = .done value middle ∧ (next value middle).Ends last? after := by
  rw [bind_apply] at h
  cases hfirst : first machine with
  | exhausted =>
      rw [hfirst] at h
      cases h
  | failed error middle =>
      rw [hfirst] at h
      cases h
      exact .inl ⟨error, rfl, rfl⟩
  | done value middle =>
      rw [hfirst] at h
      exact .inr ⟨value, middle, rfl, h⟩

end Eval

namespace Outcome

variable {outcome : Outcome ε α} {change : Machine → Machine}

theorem mapMachine_id (outcome : Outcome ε α) : outcome.mapMachine id = outcome := by
  cases outcome <;> rfl

theorem breaks_none_iff : outcome.Breaks none ↔ outcome = .exhausted := by
  constructor
  · rintro ⟨⟩
    rfl
  · rintro rfl
    exact .exhausted

theorem breaks_of_mapMachine {error? : Option ε} (h : (outcome.mapMachine change).Breaks error?) :
    outcome.Breaks error? := by
  cases outcome with
  | done => cases h
  | failed error machine =>
      cases h
      exact .failed error machine
  | exhausted =>
      cases h
      exact .exhausted

theorem breaks_of_mapError {f : ε → δ} {error? : Option δ} (h : (outcome.mapError f).Breaks error?) :
    ∃ cause?, outcome.Breaks cause? ∧ error? = cause?.map f := by
  cases outcome with
  | done => cases h
  | failed error machine =>
      cases h
      exact ⟨some error, .failed error machine, rfl⟩
  | exhausted =>
      cases h
      exact ⟨none, .exhausted, rfl⟩

/-- The state in which a computation succeeds. -/
def machine? : Outcome ε α → Option Machine
  | .done _ machine => some machine
  | _ => none

theorem exists_of_machine? (h : outcome.machine? = some machine) : ∃ value, outcome = .done value machine := by
  cases outcome with
  | done value after => exact ⟨value, congrArg (Outcome.done value) (Option.some.inj h)⟩
  | failed | exhausted => cases h

/-- The error with which a computation fails. -/
def error? : Outcome ε α → Option ε
  | .failed error _ => some error
  | _ => none

theorem exists_of_error? {error : ε} (h : outcome.error? = some error) :
    ∃ after, outcome = .failed error after := by
  cases outcome with
  | failed error after => exact ⟨after, congrArg (Outcome.failed · after) (Option.some.inj h)⟩
  | done | exhausted => cases h

end Outcome

/-! ### Calls -/

section Calls

variable {exec : Stmt → Eval Flow} {callable : Callable} {arguments : List Value}

/-- A call that is not refused is that of what is called, one call deeper. -/
theorem Value.call_counted (paren : Token)
    (harity : arguments.length = callable.arity) (hdepth : machine.depth < maxCallDepth) :
    (Value.callable callable).call exec paren arguments machine =
      (callable.call exec arguments).counted machine := by
  simp [Value.call, harity, hdepth]

theorem Value.call_of_overflow (paren : Token)
    (harity : arguments.length = callable.arity) (hdepth : ¬ machine.depth < maxCallDepth) :
    (Value.callable callable).call exec paren arguments machine = .failed (.stackOverflow paren) machine := by
  simp [Value.call, harity, hdepth]

theorem Value.call_of_arity (paren : Token)
    (harity : ¬ arguments.length = callable.arity) :
    (Value.callable callable).call exec paren arguments machine =
      .failed (.arity paren callable.arity arguments.length) machine := by
  simp [Value.call, harity, Eval.fail]

end Calls

end Script
