import Script.Proofs.Receiver.This

/-!
# Numbers are given out once

Functions, classes and objects are numbered as they are made, and the numbers of all values that there are have
been given out before. So what is made next is new to every value of every earlier state.
-/

namespace Script

/-- How many functions, classes and objects have been made. -/
structure Numbers where
  functions : Nat
  classes : Nat
  objects : Nat

namespace Numbers

instance : Preorder Numbers where
  le before after :=
    before.functions ≤ after.functions ∧ before.classes ≤ after.classes ∧ before.objects ≤ after.objects
  le_refl _ := ⟨Nat.le_refl _, Nat.le_refl _, Nat.le_refl _⟩
  le_trans _ _ _ h h' :=
    ⟨Nat.le_trans h.1 h'.1, Nat.le_trans h.2.1 h'.2.1, Nat.le_trans h.2.2 h'.2.2⟩

def ofStore (store : Store) : Numbers :=
  { functions := store.functions, classes := store.classes, objects := store.objects.size }

variable {numbers later : Numbers}

/-- The numbers of the class and of its methods have been given out. -/
def GaveClass (numbers : Numbers) (c : Class) : Prop :=
  c.id < numbers.classes ∧ c.All (·.id < numbers.functions)

def GaveObject (numbers : Numbers) (o : Instance) : Prop :=
  o.id < numbers.objects ∧ numbers.GaveClass o.cls

theorem GaveClass.mono {c : Class} (hle : numbers ≤ later) (h : numbers.GaveClass c) : later.GaveClass c :=
  ⟨Nat.lt_of_lt_of_le h.1 hle.2.1, h.2.mono fun _ hid => Nat.lt_of_lt_of_le hid hle.1⟩

theorem GaveObject.mono {o : Instance} (hle : numbers ≤ later) (h : numbers.GaveObject o) :
    later.GaveObject o :=
  ⟨Nat.lt_of_lt_of_le h.1 hle.2.2, h.2.mono hle⟩

theorem ofStore_le_addFunction (store : Store) (declaration : Declaration) (closure : Environment) :
    ofStore store ≤ ofStore (store.addFunction declaration closure).2 :=
  ⟨Nat.le_succ _, Nat.le_refl _, Nat.le_refl _⟩

theorem ofStore_le_addClass (store : Store) (name : String) (declarations : List Declaration)
    (closure : Environment) : ofStore store ≤ ofStore (store.addClass name declarations closure).2 := by
  rw [Store.addClass_eq]
  exact ⟨Nat.le_add_right _ _, Nat.le_succ _, Nat.le_refl _⟩

theorem gaveClass_addClass (store : Store) (name : String) (declarations : List Declaration)
    (closure : Environment) :
    (ofStore (store.addClass name declarations closure).2).GaveClass
      (store.addClass name declarations closure).1 := by
  refine ⟨?_, fun other method hmethod => ?_⟩
  · rw [Store.addClass_eq]
    exact Nat.lt_succ_self _
  · obtain ⟨i, hi, rfl⟩ := Store.exists_of_method_addClass hmethod
    rw [Store.addClass_eq]
    exact Nat.add_lt_add_left hi _

theorem ofStore_le_addObject (store : Store) : ofStore store ≤ ofStore store.addObject.2 := by
  refine ⟨Nat.le_refl _, Nat.le_refl _, ?_⟩
  change _ ≤ (store.objects.push {}).size
  rw [Array.size_push]
  exact Nat.le_succ _

theorem lt_addObject (store : Store) : store.addObject.1 < (ofStore store.addObject.2).objects := by
  change _ < (store.objects.push {}).size
  rw [Array.size_push]
  exact Nat.lt_succ_self _

end Numbers

/-- The world is what has been given out. -/
def numberDiscipline : Discipline Numbers where
  state numbers machine := Numbers.ofStore machine.store = numbers
  function numbers f := f.id < numbers.functions
  method numbers f := f.id < numbers.functions
  cls := Numbers.GaveClass
  object := Numbers.GaveObject
  task _ _ _ := True
  function_mono hle h := Nat.lt_of_lt_of_le h hle.1
  method_mono hle h := Nat.lt_of_lt_of_le h hle.1
  cls_mono := Numbers.GaveClass.mono
  object_mono := Numbers.GaveObject.mono
  task_mono _ _ := trivial
  method_of_cls := And.right
  cls_of_object := And.right
  elsewhere _ _ _ h := h
  written _ h := h
  part _ _ := trivial
  block _ h := ⟨_, le_refl _, h, fun _ _ => trivial⟩
  body _ _ h := ⟨_, le_refl _, h, fun _ _ => trivial⟩
  declared {_ environment declaration machine} _ h := by
    subst h
    exact ⟨_, Numbers.ofStore_le_addFunction machine.store declaration environment, rfl, Nat.lt_succ_self _⟩
  declaredClass _ h := by
    subst h
    exact ⟨_, Numbers.ofStore_le_addClass _ _ _ _, rfl, Numbers.gaveClass_addClass _ _ _ _⟩
  bound {_ f _ machine} _ _ h := by
    subst h
    exact ⟨_, Numbers.ofStore_le_addFunction machine.store f.declaration f.closure, rfl, Nat.lt_succ_self _⟩
  made {_ _ machine} hcls h := by
    subst h
    have hle := Numbers.ofStore_le_addObject machine.store
    exact ⟨_, hle, rfl, Numbers.lt_addObject _, hcls.mono hle⟩
  defined _ _ _ h := ⟨_, le_refl _, h⟩
  assigned _ _ _ h := ⟨_, le_refl _, h⟩
  field id name value h := by
    refine ⟨_, le_refl _, ?_⟩
    rw [← h]
    simp [Numbers.ofStore, Store.setField]

theorem admits_numberDiscipline (requests : List Request) :
    numberDiscipline.Admits (Numbers.ofStore Store.initial) requests :=
  ⟨fun _ _ => rfl, fun _ _ _ _ => trivial⟩

theorem Precedes.numbers_le {before after : Machine} (h : Precedes before after) :
    Numbers.ofStore before.store ≤ Numbers.ofStore after.store := by
  induction h with
  | refl => exact le_refl _
  | tail _ hleads ih =>
      obtain ⟨requests, hleads⟩ := hleads
      have htold : ∀ numbers machine, numberDiscipline.state numbers machine →
          Numbers.ofStore machine.store = numbers :=
        fun _ _ => id
      exact le_trans ih ((admits_numberDiscipline requests).le_of_leads htold hleads)

end Script
