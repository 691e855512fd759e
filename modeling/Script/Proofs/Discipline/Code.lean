import Mathlib.Order.CompleteBooleanAlgebra
import Mathlib.Order.CompletePartialOrder
import Script.Proofs.Discipline.Moments
import Script.Proofs.Tables

/-!
# The code of a session

What a session executes is code that it has read: tasks, what is in them, and the bodies of functions that it has
made of it. What holds of all code that is read and passes from a task to what is in it holds of all code that is in
reach at any moment.
-/

namespace Script

/-- The property passes from a task to all code in it. -/
structure Hereditary (p : Task → Prop) : Prop where
  part {whole inner : Task} : p whole → inner ∈ whole.parts → p inner
  block {statements : List Stmt} : p (.exec (.block statements)) → ∀ statement ∈ statements, p (.exec statement)
  function {declaration : Declaration} :
    p (.exec (.function declaration)) → ∀ statement ∈ declaration.body, p (.exec statement)
  method {name : Token} {declarations : List Declaration} : p (.exec (.classDecl name declarations)) →
    ∀ declaration ∈ declarations, ∀ statement ∈ declaration.body, p (.exec statement)

/-- What is in the body of the function has the property. -/
def Function.Runs (p : Task → Prop) (f : Function) : Prop :=
  ∀ statement ∈ f.declaration.body, p (.exec statement)

/-- The value is the function, or a class with it as a method, or an object of such a class. -/
inductive Value.Has : Value → Function → Prop where
  | function (f : Function) : Has (.callable (.function f)) f
  | class {c : Class} {name : String} {f : Function} (h : c.methods.get? name = some f) :
      Has (.callable (.class c)) f
  | instance {object : Instance} {name : String} {f : Function} (h : object.cls.methods.get? name = some f) :
      Has (.instance object) f

/-- All code that the value leads to has the property. -/
def Value.Runs (p : Task → Prop) (value : Value) : Prop :=
  ∀ f, value.Has f → f.Runs p

/-- All code that values in the store lead to has the property. -/
def Machine.Runs (p : Task → Prop) (machine : Machine) : Prop :=
  ∀ value, machine.store.Stores value → value.Runs p

namespace Hereditary

variable {p : Task → Prop} (h : Hereditary p)

/-- All code has the property. -/
def discipline : Discipline Unit where
  state _ _ := True
  function _ := Function.Runs p
  method _ := Function.Runs p
  cls _ := Class.All (Function.Runs p)
  object _ object := object.cls.All (Function.Runs p)
  task _ _ := p
  function_mono _ h := h
  method_mono _ h := h
  cls_mono _ h := h
  object_mono _ h := h
  task_mono _ h := h
  method_of_cls h := h
  cls_of_object h := h
  elsewhere _ _ _ h := h
  written _ h := h
  part := h.part
  block htask _ := ⟨(), le_refl _, trivial, h.block htask⟩
  body _ hf _ := ⟨(), le_refl _, trivial, hf⟩
  declared htask _ := ⟨(), le_refl _, trivial, h.function htask⟩
  declaredClass htask _ := by
    refine ⟨(), le_refl _, trivial, fun other method hmethod => ?_⟩
    obtain ⟨i, hi, rfl⟩ := Store.exists_of_method_addClass hmethod
    exact h.method htask _ (List.getElem_mem hi)
  bound hf _ _ := ⟨(), le_refl _, trivial, hf⟩
  made hcls _ := ⟨(), le_refl _, trivial, hcls⟩
  defined _ _ _ _ := ⟨(), le_refl _, trivial⟩
  assigned _ _ _ _ := ⟨(), le_refl _, trivial⟩
  field _ _ _ _ := ⟨(), le_refl _, trivial⟩

theorem value_iff {value : Value} : h.discipline.value () value ↔ value.Runs p := by
  constructor
  · rintro hvalue f (_ | hmethod | hmethod)
    · exact hvalue
    · exact hvalue _ f hmethod
    · exact hvalue _ f hmethod
  · intro hvalue
    cases value with
    | callable c =>
        cases c with
        | function f => exact hvalue f (.function f)
        | «class» c => exact fun name f hmethod => hvalue f (.class hmethod)
        | native => trivial
    | «instance» object => exact fun name f hmethod => hvalue f (.instance hmethod)
    | _ => trivial

theorem good_iff {machine : Machine} : h.discipline.Good () machine ↔ machine.Runs p :=
  ⟨fun hgood value hstores => h.value_iff.mp (hgood.stored value hstores),
    fun hruns => ⟨trivial, fun value hstores => h.value_iff.mpr (hruns value hstores)⟩⟩

theorem admits {requests : List Request} (hrequests : ∀ request ∈ requests, ∀ task ∈ request.tasks, p task) :
    h.discipline.Admits () requests :=
  ⟨fun _ _ => trivial, hrequests⟩

include h

/-- In a session whose requests all have the property, so has all code that the store leads to. -/
theorem runs_of_session {requests : List Request} {results : List Value} {machine : Machine}
    (hrequests : ∀ request ∈ requests, ∀ task ∈ request.tasks, p task) (hsession : Session requests results machine) :
    machine.Runs p := by
  obtain ⟨_, -, hgood, -⟩ := (h.admits hrequests).session hsession
  exact h.good_iff.mp hgood

/-- A task that has the property leaves only code that has it. -/
theorem runs_of_ends {moment : Moment} (hmachine : moment.machine.Runs p) (htask : p moment.task)
    (hheld : ∀ value ∈ moment.held, value.Runs p) {values : List Value} {after : Machine}
    (hends : moment.Ends values after) : after.Runs p ∧ ∀ value ∈ values, value.Runs p := by
  have hfits : h.discipline.Fits () moment := ⟨htask, fun value hmem => h.value_iff.mpr (hheld value hmem)⟩
  obtain ⟨_, -, hafter, -, hvalues⟩ := (h.good_iff.mpr hmachine).ends hfits hends
  exact ⟨h.good_iff.mp hafter, fun value hmem => h.value_iff.mp (hvalues value hmem)⟩

end Hereditary

end Script
