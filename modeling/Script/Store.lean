import Script.Value

/-!
The store: what scopes and objects hold, and the numbers given out so far. Nothing is ever taken out
of it.
-/

namespace Script

/-- The contents of scopes and the fields of objects, by number, and how many functions and classes
have been made. -/
structure Store where
  scopes : Array (Bindings Value) := #[]
  objects : Array (Bindings Value) := #[]
  functions : Nat := 0
  classes : Nat := 0

namespace Store

def scope (store : Store) (id : ScopeId) : Bindings Value :=
  store.scopes.getD id {}

def fields (store : Store) (id : Nat) : Bindings Value :=
  store.objects.getD id {}

def addScope (store : Store) (contents : Bindings Value) : ScopeId × Store :=
  (store.scopes.size, { store with scopes := store.scopes.push contents })

def addObject (store : Store) : Nat × Store :=
  (store.objects.size, { store with objects := store.objects.push {} })

def define (store : Store) (id : ScopeId) (name : String) (value : Value) : Store :=
  { store with scopes := store.scopes.modify id (·.set name value) }

def setField (store : Store) (id : Nat) (name : String) (value : Value) : Store :=
  { store with objects := store.objects.modify id (·.set name value) }

def addFunction (store : Store) (declaration : Declaration) (closure : Environment) :
    Function × Store :=
  ({ id := store.functions, declaration, closure },
    { store with functions := store.functions + 1 })

/-- A new class with a method for each declaration, the last one of its name. -/
def addClass (store : Store) (name : String) (declarations : List Declaration)
    (closure : Environment) : Class × Store :=
  let (methods, store) := declarations.foldl
    (fun (methods, store) declaration =>
      let (method, store) := store.addFunction declaration closure
      (methods.set method.name method, store))
    (({} : Bindings Function), store)
  ({ id := store.classes, name, methods }, { store with classes := store.classes + 1 })

/-- The innermost scope of the environment that has the name. -/
def resolve? (store : Store) (environment : Environment) (name : String) : Option ScopeId :=
  environment.chain.find? fun id => ((store.scope id).get? name).isSome

def lookup? (store : Store) (environment : Environment) (name : String) : Option Value :=
  environment.chain.findSome? fun id => (store.scope id).get? name

/-- Gives a new value to a name where it is defined. -/
def assign? (store : Store) (environment : Environment) (name : String) (value : Value) :
    Option Store :=
  (store.resolve? environment name).map fun id => store.define id name value

/-- The method for one object: a function of its own, with a scope around its body that holds `this`. -/
def bind (store : Store) (method : Function) (object : Instance) : Function × Store :=
  let (scope, store) := store.addScope (({} : Bindings Value).set "this" (.instance object))
  store.addFunction method.declaration (method.closure.push scope)

theorem scope_addScope (store : Store) (contents : Bindings Value) (id : ScopeId) :
    (store.addScope contents).2.scope id =
      if id = store.scopes.size then contents else store.scope id := by
  simp only [scope, addScope, Array.getD_eq_getD_getElem?, Array.getElem?_push]
  split <;> rfl

theorem scope_define (store : Store) (id : ScopeId) (name : String) (value : Value)
    (other : ScopeId) :
    (store.define id name value).scope other =
      if other = id ∧ id < store.scopes.size then (store.scope id).set name value
      else store.scope other := by
  simp only [scope, define, Array.getD_eq_getD_getElem?, Array.getElem?_modify]
  grind

theorem fields_addObject (store : Store) (id : Nat) :
    store.addObject.2.fields id = store.fields id := by
  simp only [fields, addObject, Array.getD_eq_getD_getElem?, Array.getElem?_push]
  grind

theorem fields_setField (store : Store) (id : Nat) (name : String) (value : Value) (other : Nat) :
    (store.setField id name value).fields other =
      if other = id ∧ id < store.objects.size then (store.fields id).set name value
      else store.fields other := by
  simp only [fields, setField, Array.getD_eq_getD_getElem?, Array.getElem?_modify]
  grind

theorem lookup?_eq_bind_resolve? (store : Store) (environment : Environment) (name : String) :
    store.lookup? environment name =
      (store.resolve? environment name).bind fun id => (store.scope id).get? name := by
  unfold lookup? resolve?
  induction environment.chain with
  | nil => rfl
  | cons id rest ih =>
    cases h : (store.scope id).get? name <;> simp [h, ih]

end Store

end Script
