import Script.Proofs.Receiver.This

/-!
# What the numbers of classes and objects stand for

Each class is made by one declaration of a program, and each object by one call of its class. So the number of
a class tells its methods, and the number of an object tells its class.
-/

namespace Script

/-- The task is somewhere in the programs. -/
def Contained (programs : Set Task) (task : Task) : Prop :=
  ∃ layers, Occurs programs layers task

/-- The class was made in the environment, from a declaration with these methods. -/
def Class.MadeFrom (c : Class) (name : Token) (declarations : List Declaration) (closure : Environment) : Prop :=
  ∃ store : Store, c = (store.addClass name.lexeme declarations closure).1

/-- The class was made from a declaration in the programs. -/
def Class.Declared (programs : Set Task) (c : Class) : Prop :=
  ∃ name declarations closure, Contained programs (.exec (.classDecl name declarations)) ∧
    c.MadeFrom name declarations closure

/-- The function's body is somewhere in the programs. -/
def Function.Contained (programs : Set Task) (f : Function) : Prop :=
  ∀ statement ∈ f.declaration.body, Script.Contained programs (.exec statement)

namespace Contained

variable {programs : Set Task}

theorem part {whole inner : Task} (h : Contained programs whole) (hpart : inner ∈ whole.parts) :
    Contained programs inner := by
  obtain ⟨layers, hoccurs⟩ := h
  exact ⟨layers, hoccurs.part hpart⟩

theorem inside {layer : Layer} {whole statement : Stmt} {statements : List Stmt}
    (h : Contained programs (.exec whole)) (hlayer : (layer, statements) ∈ whole.layers)
    (hstatement : statement ∈ statements) : Contained programs (.exec statement) := by
  obtain ⟨layers, hoccurs⟩ := h
  exact ⟨layer :: layers, hoccurs.inside hlayer hstatement⟩

end Contained

theorem Class.Declared.all {programs : Set Task} {c : Class} (h : c.Declared programs) :
    c.All (Function.Contained programs) := by
  obtain ⟨name, declarations, closure, hcontained, store, rfl⟩ := h
  intro other method hmethod statement hstatement
  obtain ⟨i, hi, rfl⟩ := Store.exists_of_method_addClass hmethod
  exact hcontained.inside (List.mem_map.mpr ⟨_, List.getElem_mem hi, rfl⟩) hstatement

/-- All classes, and of each object its class, in the order of their numbers. -/
structure Registry where
  classes : List Class
  objects : List Class

namespace Registry

instance : Preorder Registry where
  le before after := before.classes <+: after.classes ∧ before.objects <+: after.objects
  le_refl _ := ⟨List.prefix_rfl, List.prefix_rfl⟩
  le_trans _ _ _ h h' := ⟨h.1.trans h'.1, h.2.trans h'.2⟩

structure Describes (registry : Registry) (machine : Machine) : Prop where
  classes : machine.store.classes = registry.classes.length
  objects : machine.store.objects.size = registry.objects.length

structure HasClass (programs : Set Task) (registry : Registry) (c : Class) : Prop where
  found : registry.classes[c.id]? = some c
  declared : c.Declared programs

structure HasObject (programs : Set Task) (registry : Registry) (o : Instance) : Prop where
  found : registry.objects[o.id]? = some o.cls
  cls : registry.HasClass programs o.cls

variable {programs : Set Task} {registry later : Registry} {machine : Machine}

theorem getElem?_of_le {before after : List Class} (h : before <+: after) {number : Nat} {c : Class}
    (hfound : before[number]? = some c) : after[number]? = some c := by
  obtain ⟨hnumber, rfl⟩ := List.getElem?_eq_some_iff.mp hfound
  exact List.prefix_iff_getElem?.mp h number hnumber

theorem HasClass.mono {c : Class} (hle : registry ≤ later) (h : registry.HasClass programs c) :
    later.HasClass programs c :=
  ⟨getElem?_of_le hle.1 h.found, h.declared⟩

theorem HasObject.mono {o : Instance} (hle : registry ≤ later) (h : registry.HasObject programs o) :
    later.HasObject programs o :=
  ⟨getElem?_of_le hle.2 h.found, h.cls.mono hle⟩

theorem Describes.addClass (h : registry.Describes machine) {name : Token} {declarations : List Declaration}
    (hcontained : Contained programs (.exec (.classDecl name declarations))) (closure : Environment) :
    let c := (machine.store.addClass name.lexeme declarations closure).1
    let store := (machine.store.addClass name.lexeme declarations closure).2
    ∃ later, registry ≤ later ∧ later.Describes { machine with store } ∧ later.HasClass programs c := by
  intro c store
  have hid : c.id = registry.classes.length := by
    rw [← h.classes]
    simp [c, Store.addClass_eq]
  refine ⟨⟨registry.classes ++ [c], registry.objects⟩, ⟨List.prefix_append _ _, List.prefix_rfl⟩, ?_, ?_⟩
  · constructor <;> simp [store, Store.addClass_eq, h.classes, h.objects]
  · refine ⟨?_, name, declarations, closure, hcontained, machine.store, rfl⟩
    rw [hid, List.getElem?_append_right (Nat.le_refl _), Nat.sub_self]
    rfl

theorem Describes.addObject (h : registry.Describes machine) {c : Class} (hcls : registry.HasClass programs c) :
    ∃ later, registry ≤ later ∧ later.Describes { machine with store := machine.store.addObject.2 } ∧
      later.HasObject programs ⟨c, machine.store.addObject.1⟩ := by
  have hid : machine.store.addObject.1 = registry.objects.length := h.objects
  have hle : registry ≤ ⟨registry.classes, registry.objects ++ [c]⟩ :=
    ⟨List.prefix_rfl, List.prefix_append _ _⟩
  refine ⟨_, hle, ⟨h.classes, ?_⟩, ?_, hcls.mono hle⟩
  · simp [Store.addObject, h.objects]
  · simp [hid]

end Registry

/-- The numbers of classes and objects stand for what the world says. -/
def registryDiscipline (programs : Set Task) : Discipline Registry where
  state := Registry.Describes
  function _ := Function.Contained programs
  method _ := Function.Contained programs
  cls := Registry.HasClass programs
  object := Registry.HasObject programs
  task _ _ := Contained programs
  function_mono _ h := h
  method_mono _ h := h
  cls_mono := Registry.HasClass.mono
  object_mono := Registry.HasObject.mono
  task_mono _ h := h
  method_of_cls h := h.declared.all
  cls_of_object := Registry.HasObject.cls
  elsewhere _ _ _ h := ⟨h.classes, h.objects⟩
  written _ h := ⟨h.classes, h.objects⟩
  part h hpart := h.part hpart
  block h hstate :=
    ⟨_, le_refl _, ⟨hstate.classes, hstate.objects⟩, fun _ hmem => h.inside List.mem_cons_self hmem⟩
  body _ h hstate := ⟨_, le_refl _, ⟨hstate.classes, hstate.objects⟩, h⟩
  declared h hstate :=
    ⟨_, le_refl _, ⟨hstate.classes, hstate.objects⟩, fun _ hmem => h.inside List.mem_cons_self hmem⟩
  declaredClass h hstate := hstate.addClass h _
  bound h _ hstate := ⟨_, le_refl _, ⟨hstate.classes, hstate.objects⟩, h⟩
  made hcls hstate := hstate.addObject hcls
  defined _ _ _ hstate := ⟨_, le_refl _, hstate.classes, hstate.objects⟩
  assigned _ _ _ hstate := ⟨_, le_refl _, hstate.classes, hstate.objects⟩
  field _ _ _ hstate := ⟨_, le_refl _, hstate.classes, Array.size_modify.trans hstate.objects⟩

theorem admits_registryDiscipline (requests : List Request) :
    (registryDiscipline (Request.programs requests)).Admits ⟨[], []⟩ requests :=
  ⟨fun _ _ => ⟨rfl, rfl⟩, fun request hrequest _ htask => ⟨[], .whole ⟨request, hrequest, htask⟩⟩⟩

end Script
