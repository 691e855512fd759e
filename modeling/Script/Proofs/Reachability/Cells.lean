import Mathlib.Data.Set.Insert
import Script.Call

/-!
# Cells

The cells of a store are its scopes and the fields of its objects, the only things in a program that
change. Values lead to cells, and cells hold values: what can be reached from some cells is found by
following both.
-/

namespace Script

variable {α : Type}

inductive Cell where
  | scope (id : ScopeId)
  | fields (id : Nat)
deriving DecidableEq, Repr

/-! ### Cells of values -/

def Environment.cells (environment : Environment) : Set Cell :=
  { cell | ∃ id ∈ environment.chain, cell = .scope id }

/-- A function leads to the scopes it was made in. -/
def Function.cells (function : Function) : Set Cell :=
  function.closure.cells

def Class.cells (cls : Class) : Set Cell :=
  { cell | ∃ name method, cls.methods.get? name = some method ∧ cell ∈ method.cells }

def Instance.cells (object : Instance) : Set Cell :=
  insert (.fields object.id) object.cls.cells

def Callable.cells : Callable → Set Cell
  | .function f => f.cells
  | .class c => c.cells
  | .native _ => ∅

def Value.cells : Value → Set Cell
  | .callable c => c.cells
  | .instance o => o.cells
  | _ => ∅

def Flow.cells : Flow → Set Cell
  | .next => ∅
  | .returned value => value.cells

@[simp]
theorem Environment.cells_subset_iff {environment : Environment} {cells : Set Cell} :
    environment.cells ⊆ cells ↔ ∀ id ∈ environment.chain, Cell.scope id ∈ cells := by
  constructor
  · intro h id hid
    exact h ⟨id, hid, rfl⟩
  · rintro h _ ⟨id, hid, rfl⟩
    exact h id hid

theorem Environment.cells_push_subset_iff {environment : Environment} {scope : ScopeId}
    {cells : Set Cell} :
    (environment.push scope).cells ⊆ cells ↔ Cell.scope scope ∈ cells ∧ environment.cells ⊆ cells := by
  simp

theorem Class.cells_subset_iff {cls : Class} {cells : Set Cell} :
    cls.cells ⊆ cells ↔
      ∀ name method, cls.methods.get? name = some method → method.cells ⊆ cells := by
  constructor
  · intro h name method hmethod cell hcell
    exact h ⟨name, method, hmethod, hcell⟩
  · rintro h cell ⟨name, method, hmethod, hcell⟩
    exact h name method hmethod hcell

theorem Instance.cells_subset_iff {object : Instance} {cells : Set Cell} :
    object.cells ⊆ cells ↔ Cell.fields object.id ∈ cells ∧ object.cls.cells ⊆ cells :=
  Set.insert_subset_iff

/-! ### Cells of a store -/

namespace Store

def contents (store : Store) : Cell → Bindings Value
  | .scope id => store.scope id
  | .fields id => store.fields id

def Has (store : Store) : Cell → Prop
  | .scope id => id < store.scopes.size
  | .fields id => id < store.objects.size

theorem contents_of_not_has {store : Store} {cell : Cell} (hcell : ¬ store.Has cell) :
    store.contents cell = {} := by
  cases cell with
  | scope id =>
      have hsize : store.scopes.size ≤ id := Nat.le_of_not_lt hcell
      simp [contents, scope, hsize]
  | fields id =>
      have hsize : store.objects.size ≤ id := Nat.le_of_not_lt hcell
      simp [contents, fields, hsize]

/-- The cells found by following values, from some cells on. -/
inductive Reachable (store : Store) (roots : Set Cell) : Cell → Prop where
  | root {cell : Cell} (hcell : cell ∈ roots) : Reachable store roots cell
  | stored {cell next : Cell} {name : String} {value : Value}
      (hcell : Reachable store roots cell) (hvalue : (store.contents cell).get? name = some value)
      (hnext : next ∈ value.cells) : Reachable store roots next

/-- Nothing outside of the cells is found by following the values that they hold. -/
def Closed (cells : Set Cell) (store : Store) : Prop :=
  ∀ cell ∈ cells, ∀ name value, (store.contents cell).get? name = some value → value.cells ⊆ cells

theorem reachable_subset {store : Store} {cells roots : Set Cell} (hclosed : store.Closed cells)
    (hroots : roots ⊆ cells) : { cell | store.Reachable roots cell } ⊆ cells := by
  intro cell hcell
  induction hcell with
  | root hcell => exact hroots hcell
  | stored _ hvalue hnext ih => exact hclosed _ ih _ _ hvalue hnext

end Store

end Script
