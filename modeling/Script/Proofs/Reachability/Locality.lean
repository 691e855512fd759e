import Script.Proofs.Reachability.Evaluation

/-!
# Evaluation is local

What an expression or a statement can change, and what can be reached afterwards, was within reach of the
current environment before, or is new. A variable that only a closure has captured, or a field of an
object that nobody else holds, changes only through them.
-/

namespace Script

variable {α : Type}

namespace Machine

/-- The cells within reach of the current environment. -/
def reachable (machine : Machine) : Set Cell :=
  { cell | machine.store.Reachable machine.environment.cells cell }

/-- The cells that the second state has and the first one lacks. -/
def created (before after : Machine) : Set Cell :=
  { cell | ¬ before.store.Has cell ∧ after.store.Has cell }

/-- A computation between the two states changes nothing that is out of reach, and puts nothing within
reach of the environment it started in, or of its result, but what it makes itself. -/
structure ActsLocally (before after : Machine) (result : Set Cell) : Prop where
  unchanged : ∀ cell, before.store.Has cell → cell ∉ before.reachable →
    after.store.contents cell = before.store.contents cell
  reached : ∀ cell, after.store.Reachable (before.environment.cells ∪ result) cell →
    cell ∈ before.reachable ∪ before.created after

theorem closed_reachable_union_created (before after : Machine) :
    before.store.Closed (before.reachable ∪ before.created after) := by
  rintro cell (hcell | hcell) name value hvalue next hnext
  · exact Or.inl (.stored hcell hvalue hnext)
  · rw [Store.contents_of_not_has hcell.1] at hvalue
    cases hvalue

end Machine

/-- The cells to try are those within reach and those that are made, which are known at the end. -/
theorem Eval.Confined.actsLocally {body : Eval α} {result : α → Set Cell}
    (h : ∀ cells, Confined cells True body fun value => result value ⊆ cells) {machine : Machine}
    {value? : Option α} {after : Machine} (hends : (body machine).Ends value? after) :
    machine.ActsLocally after (value?.elim ∅ result) := by
  obtain ⟨-, hwithin⟩ := h (machine.reachable ∪ machine.created after) machine value? after hends
  have hroots : machine.environment.cells ⊆ machine.reachable ∪ machine.created after :=
    fun cell hcell => Or.inl (.root hcell)
  have hnew : machine.store.NewIn (machine.reachable ∪ machine.created after) after.store := by
    intro cell hcell
    by_cases hhas : machine.store.Has cell
    · exact Or.inl hhas
    · exact Or.inr (Or.inr ⟨hhas, hcell⟩)
  obtain ⟨hstore, hvalue⟩ :=
    hwithin trivial hroots (machine.closed_reachable_union_created after) hnew
  constructor
  · intro cell hhas hcell
    apply hstore.outside cell
    rintro (hreachable | hcreated)
    · exact hcell hreachable
    · exact hcreated.1 hhas
  · intro cell hcell
    refine Store.reachable_subset hstore.closed (Set.union_subset hroots ?_) hcell
    cases value? with
    | none => exact Set.empty_subset _
    | some value => exact hvalue value rfl

/-- However it ends, what is evaluated or executed in the current environment acts locally. -/
theorem evaluation_actsLocally (level : Nat) (machine : Machine) :
    (∀ expression value? after, (eval level expression machine).Ends value? after →
      machine.ActsLocally after (value?.elim ∅ Value.cells)) ∧
    (∀ statement flow? after, (exec level statement machine).Ends flow? after →
      machine.ActsLocally after (flow?.elim ∅ Flow.cells)) ∧
    ∀ statements flow? after, (Eval.sequence (exec level) statements machine).Ends flow? after →
      machine.ActsLocally after (flow?.elim ∅ Flow.cells) := by
  refine ⟨fun expression value? after hends => ?_, fun statement flow? after hends => ?_,
    fun statements flow? after hends => ?_⟩
  · exact Eval.Confined.actsLocally (fun cells => confined_eval cells level expression True) hends
  · exact Eval.Confined.actsLocally (fun cells => confined_exec cells level statement True) hends
  · exact Eval.Confined.actsLocally (fun cells => Eval.confined_sequence
      (fun statement => confined_exec cells level statement True) statements) hends

/-- A scope that the environment does not lead to is as it was after a declaration. -/
theorem evaluation_actsLocally_hidden_scope :
    let name : Token := { kind := .identifier, lexeme := "x", literal := .none, line := 1 }
    let hidden : Bindings Value := ({} : Bindings Value).set "x" (.bool true)
    let machine : Machine :=
      { globals := { innermost := 0 }, environment := { innermost := 0 },
        store := { scopes := #[{}, hidden] }, sink := {}, time := 0 }
    ∃ after, (exec 1 (.var name none) machine).Ends (some .next) after ∧
      after.store.contents (.scope 1) = hidden := by
  intro name hidden machine
  have hrun : exec 1 (.var name none) machine =
      .done .next { machine with store := machine.store.define 0 "x" .nil } := rfl
  have hends := hrun ▸ Outcome.Ends.done Flow.next _
  refine ⟨_, hends, ?_⟩
  have hunreached : Cell.scope 1 ∉ machine.reachable := by
    have hclosed : machine.store.Closed {Cell.scope 0} := by
      rintro _ rfl name value ⟨⟩
    intro hreached
    have hmem := Store.reachable_subset hclosed
      (Environment.cells_subset_iff.mpr (by simp [machine, Environment.chain])) hreached
    simp at hmem
  exact ((evaluation_actsLocally 1 machine).2.1 _ _ _ hends).unchanged (.scope 1) (Nat.lt_succ_self 1)
    hunreached

end Script
