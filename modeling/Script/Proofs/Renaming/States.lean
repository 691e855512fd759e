import Script.Proofs.Operators
import Script.Proofs.Renaming.Names
import Script.Proofs.Tables

/-!
# States with other names

Scopes, objects and classes have the renamed entries of one another, and functions have bodies in which all names
are renamed. The numbers of scopes, objects and functions are the same, and so are all plain values. What is found
under a name is found under the other one, because no two names are renamed alike and none becomes `this`.
-/

namespace Script

variable {α : Type}

/-- Related things under renamed names. -/
def Bindings.Renamed (r : Renaming) (V : α → α → Prop) (bindings bindings' : Bindings α) : Prop :=
  List.Forall₂ (fun entry entry' => r.Names entry.1 entry'.1 ∧ V entry.2 entry'.2) bindings.entries bindings'.entries

structure Function.Renamed (r : Renaming) (f f' : Function) : Prop where
  id : f'.id = f.id
  declaration : Declaration.Like r.matching f.declaration f'.declaration
  closure : f'.closure = f.closure

structure Class.Renamed (r : Renaming) (c c' : Class) : Prop where
  id : c'.id = c.id
  name : c'.name = r.rename c.name
  methods : Bindings.Renamed r (Function.Renamed r) c.methods c'.methods

inductive Callable.Renamed (r : Renaming) : Callable → Callable → Prop where
  | function {f f' : Function} (h : f.Renamed r f') : Renamed r (.function f) (.function f')
  | class {c c' : Class} (h : c.Renamed r c') : Renamed r (.class c) (.class c')
  | native (native : Native) : Renamed r (.native native) (.native native)

inductive Value.Renamed (r : Renaming) : Value → Value → Prop where
  | nil : Renamed r .nil .nil
  | bool (value : Bool) : Renamed r (.bool value) (.bool value)
  | number (value : Float) : Renamed r (.number value) (.number value)
  | string (text : String) : Renamed r (.string text) (.string text)
  | callable {c c' : Callable} (h : c.Renamed r c') : Renamed r (.callable c) (.callable c')
  | instance {c c' : Class} (id : Nat) (h : c.Renamed r c') : Renamed r (.instance ⟨c, id⟩) (.instance ⟨c', id⟩)

structure Store.Renamed (r : Renaming) (store store' : Store) : Prop where
  scopes : store'.scopes.size = store.scopes.size
  scope : ∀ id, Bindings.Renamed r (Value.Renamed r) (store.scope id) (store'.scope id)
  objects : store'.objects.size = store.objects.size
  fields : ∀ id, Bindings.Renamed r (Value.Renamed r) (store.fields id) (store'.fields id)
  functions : store'.functions = store.functions
  classes : store'.classes = store.classes

/-- How a value is displayed after the renaming. -/
def Value.renamedText (r : Renaming) : Value → String
  | .callable (.function f) => "<fn " ++ r.rename f.name ++ ">"
  | .callable (.class c) => r.rename c.name
  | .instance object => r.rename object.cls.name ++ " instance"
  | value => value.text

/-- Both sinks take everything, and are flushed alike. -/
structure Sink.Alike (sink sink' : Sink) : Prop where
  unlimited : sink.limit = none
  unlimited' : sink'.limit = none
  flushing : sink'.refusesFlush = sink.refusesFlush

/-- The states differ in the names of their stores, and in what has been written. -/
structure Machine.Renamed (r : Renaming) (machine machine' : Machine) : Prop where
  globals : machine'.globals = machine.globals
  environment : machine'.environment = machine.environment
  depth : machine'.depth = machine.depth
  store : machine.store.Renamed r machine'.store
  sink : machine.sink.Alike machine'.sink
  time : machine'.time = machine.time

/-- Both ends are of the same sort, in states of which one is renamed. -/
inductive Outcome.Renamed {ε α : Type} (r : Renaming) (E : ε → ε → Prop) (V : α → α → Prop) :
    Outcome ε α → Outcome ε α → Prop where
  | done {value value' : α} {machine machine' : Machine} (hvalue : V value value')
      (hmachine : machine.Renamed r machine') : Renamed r E V (.done value machine) (.done value' machine')
  | failed {error error' : ε} {machine machine' : Machine} (herror : E error error')
      (hmachine : machine.Renamed r machine') : Renamed r E V (.failed error machine) (.failed error' machine')
  | exhausted : Renamed r E V .exhausted .exhausted

variable {r : Renaming}

/-! ### Bindings -/

namespace Bindings

variable {V : α → α → Prop} {bindings bindings' : Bindings α} {name name' : String}

theorem renamed_empty : Renamed r V {} {} :=
  .nil

theorem Renamed.get? (h : Renamed r V bindings bindings') (hname : r.Names name name') :
    Option.Rel V (bindings.get? name) (bindings'.get? name') := by
  obtain ⟨entries⟩ := bindings
  obtain ⟨entries'⟩ := bindings'
  change List.Forall₂ _ entries entries' at h
  unfold Bindings.get?
  induction h with
  | nil => exact .none
  | @cons entry entry' _ _ hentry _ ih =>
      obtain ⟨key, value⟩ := entry
      obtain ⟨key', value'⟩ := entry'
      obtain ⟨hkey, hvalue⟩ := hentry
      have hsame : (name == key) = (name' == key') :=
        Bool.eq_iff_iff.mpr (by rw [beq_iff_eq, beq_iff_eq]; exact Renaming.eq_iff hname hkey)
      simp only [List.lookup_cons, hsame]
      split
      · exact .some hvalue
      · exact ih

theorem Renamed.set (h : Renamed r V bindings bindings') (hname : r.Names name name') {value value' : α}
    (hvalue : V value value') : Renamed r V (bindings.set name value) (bindings'.set name' value') := by
  obtain ⟨entries⟩ := bindings
  obtain ⟨entries'⟩ := bindings'
  change List.Forall₂ _ entries entries' at h
  change List.Forall₂ _ (setIn name value entries) (setIn name' value' entries')
  induction h with
  | nil => exact .cons ⟨hname, hvalue⟩ .nil
  | @cons entry entry' _ _ hentry hrest ih =>
      have hsame : entry.1 = name ↔ entry'.1 = name' := Renaming.eq_iff hentry.1 hname
      simp only [setIn, hsame]
      split
      · exact .cons ⟨hname, hvalue⟩ hrest
      · exact .cons hentry ih

theorem renamed_ofList {entries entries' : List (String × α)}
    (h : List.Forall₂ (fun entry entry' => r.Names entry.1 entry'.1 ∧ V entry.2 entry'.2) entries entries') :
    Renamed r V (ofList entries) (ofList entries') := by
  refine List.rel_foldl ?_ renamed_empty h
  rintro bindings bindings' hbindings entry entry' ⟨hname, hvalue⟩
  exact hbindings.set hname hvalue

theorem renamed_ofList_zip {names names' : List String} (hnames : List.Forall₂ r.Names names names')
    {values values' : List α} (hvalues : List.Forall₂ V values values') :
    Renamed r V (ofList (names.zip values)) (ofList (names'.zip values')) := by
  refine renamed_ofList ?_
  induction hnames generalizing values values' with
  | nil => exact .nil
  | cons hname _ ih =>
      cases hvalues with
      | nil => exact .nil
      | cons hvalue hvalues => exact .cons ⟨hname, hvalue⟩ (ih hvalues)

end Bindings

/-! ### What a program can see -/

theorem Function.Renamed.names {f f' : Function} (h : f.Renamed r f') : r.Names f.name f'.name := by
  obtain ⟨-, ⟨hname, -, -⟩, -⟩ := h
  exact Renaming.names_of_name hname

theorem Function.Renamed.name_eq {f f' : Function} (h : f.Renamed r f') : f'.name = r.rename f.name := by
  obtain ⟨-, ⟨hname, -, -⟩, -⟩ := h
  exact Renaming.lexeme_eq hname

theorem Function.Renamed.arity_eq {f f' : Function} (h : f.Renamed r f') : f'.arity = f.arity := by
  obtain ⟨-, ⟨-, hparams, -⟩, -⟩ := h
  exact hparams.length_eq.symm

theorem Class.Renamed.method? {c c' : Class} (h : c.Renamed r c') {name name' : String} (hname : r.Names name name') :
    Option.Rel (Function.Renamed r) (c.method? name) (c'.method? name') :=
  h.methods.get? hname

theorem Class.Renamed.arity_eq {c c' : Class} (h : c.Renamed r c') : c'.arity = c.arity := by
  have hmethod := h.method? Renaming.names_initializer
  unfold Class.arity
  generalize c.method? Class.initializer = method?, c'.method? Class.initializer = method?' at hmethod
  cases hmethod with
  | none => rfl
  | some hmethod => exact hmethod.arity_eq

namespace Callable

variable {c c' other other' : Callable}

theorem Renamed.arity_eq (h : c.Renamed r c') : c'.arity = c.arity := by
  cases h with
  | function h => exact h.arity_eq
  | «class» h => exact h.arity_eq
  | native => rfl

theorem Renamed.same_eq (h : c.Renamed r c') (hother : other.Renamed r other') : c'.same other' = c.same other := by
  cases h with
  | function h =>
      cases hother with
      | function h' => simp only [same, h.id, h'.id]
      | _ => rfl
  | «class» h =>
      cases hother with
      | «class» h' => simp only [same, h.id, h'.id]
      | _ => rfl
  | native => cases hother <;> rfl

end Callable

namespace Value

variable {value value' other other' : Value}

theorem renamed_of_isPlain (h : value.isPlain = true) : value.Renamed r value := by
  cases value with
  | nil => exact .nil
  | bool value => exact .bool value
  | number value => exact .number value
  | string text => exact .string text
  | callable | «instance» => cases h

theorem Renamed.text_eq (h : value.Renamed r value') : value'.text = value.renamedText r := by
  cases h with
  | nil | bool | number | string => rfl
  | callable h =>
      cases h with
      | function h => simp only [text, renamedText, Callable.text, h.name_eq]
      | «class» h => exact h.name
      | native => rfl
  | «instance» id h => simp only [text, renamedText, Instance.text, h.name]

theorem Renamed.truthy_eq (h : value.Renamed r value') : value'.truthy = value.truthy := by
  cases h <;> rfl

theorem Renamed.equal_eq (h : value.Renamed r value') (hother : other.Renamed r other') :
    value'.equal other' = value.equal other := by
  cases h with
  | callable h =>
      cases hother with
      | callable h' => exact h.same_eq h'
      | _ => rfl
  | _ => cases hother <;> rfl

end Value

theorem Kind.binary_renamed (kind : Kind) {left left' right right' : Value} (hleft : left.Renamed r left')
    (hright : right.Renamed r right') : kind.binary left' right' = kind.binary left right := by
  have hnumeric (compute : Float → Float → Value) :
      left'.numeric compute right' = left.numeric compute right := by
    cases hleft <;> cases hright <;> rfl
  have hadd : left'.add right' = left.add right := by
    cases hleft <;> cases hright <;> rfl
  simp only [binary, hnumeric, hadd, hleft.equal_eq hright]

theorem Kind.unary_renamed (kind : Kind) {right right' : Value} (hright : right.Renamed r right') :
    kind.unary right' = kind.unary right := by
  have hnegate : right'.negate = right.negate := by
    cases hright <;> rfl
  simp only [unary, hnegate, hright.truthy_eq]

theorem Kind.settledBy_renamed (kind : Kind) {left left' : Value} (hleft : left.Renamed r left') :
    kind.settledBy left' = kind.settledBy left := by
  simp only [settledBy, hleft.truthy_eq]

/-! ### Stores -/

namespace Store.Renamed

variable {store store' : Store} {name name' : String}

theorem addScope (h : store.Renamed r store') {contents contents' : Bindings Value}
    (hcontents : Bindings.Renamed r (Value.Renamed r) contents contents') :
    (store.addScope contents).1 = (store'.addScope contents').1 ∧
      (store.addScope contents).2.Renamed r (store'.addScope contents').2 := by
  refine ⟨h.scopes.symm, { h with scopes := ?_, scope := fun id => ?_, fields := h.fields }⟩
  · simp only [Store.addScope, Array.size_push, h.scopes]
  · rw [scope_addScope, scope_addScope, h.scopes]
    split
    · exact hcontents
    · exact h.scope id

theorem addObject (h : store.Renamed r store') :
    store.addObject.1 = store'.addObject.1 ∧ store.addObject.2.Renamed r store'.addObject.2 := by
  refine ⟨h.objects.symm, { h with scope := h.scope, objects := ?_, fields := fun id => ?_ }⟩
  · simp only [Store.addObject, Array.size_push, h.objects]
  · rw [fields_addObject, fields_addObject]
    exact h.fields id

theorem define (h : store.Renamed r store') (id : ScopeId) (hname : r.Names name name') {value value' : Value}
    (hvalue : value.Renamed r value') : (store.define id name value).Renamed r (store'.define id name' value') := by
  refine { h with scopes := ?_, scope := fun other => ?_, fields := h.fields }
  · simp only [Store.define, Array.size_modify, h.scopes]
  · rw [scope_define, scope_define, h.scopes]
    split
    · exact (h.scope id).set hname hvalue
    · exact h.scope other

theorem setField (h : store.Renamed r store') (id : Nat) (hname : r.Names name name') {value value' : Value}
    (hvalue : value.Renamed r value') :
    (store.setField id name value).Renamed r (store'.setField id name' value') := by
  refine { h with scope := h.scope, objects := ?_, fields := fun other => ?_ }
  · simp only [Store.setField, Array.size_modify, h.objects]
  · rw [fields_setField, fields_setField, h.objects]
    split
    · exact (h.fields id).set hname hvalue
    · exact h.fields other

theorem addFunction (h : store.Renamed r store') {declaration declaration' : Declaration}
    (hdeclaration : Declaration.Like r.matching declaration declaration') (closure : Environment) :
    (store.addFunction declaration closure).1.Renamed r (store'.addFunction declaration' closure).1 ∧
      (store.addFunction declaration closure).2.Renamed r (store'.addFunction declaration' closure).2 :=
  ⟨⟨h.functions, hdeclaration, rfl⟩,
    { h with
      scope := h.scope
      fields := h.fields
      functions := congrArg (· + 1) h.functions }⟩

theorem bind (h : store.Renamed r store') {method method' : Function} (hmethod : method.Renamed r method')
    {c c' : Class} (hcls : c.Renamed r c') (id : Nat) :
    (store.bind method ⟨c, id⟩).1.Renamed r (store'.bind method' ⟨c', id⟩).1 ∧
      (store.bind method ⟨c, id⟩).2.Renamed r (store'.bind method' ⟨c', id⟩).2 := by
  obtain ⟨hscope, hstore⟩ := h.addScope (Bindings.renamed_empty.set .receiver (.instance id hcls))
  unfold Store.bind
  simp only [← hscope, hmethod.closure]
  exact hstore.addFunction hmethod.declaration _

theorem renamed_methods {declarations declarations' : List Declaration}
    (hdeclarations : List.Forall₂ (Declaration.Like r.matching) declarations declarations') (first : Nat)
    (closure : Environment) :
    List.Forall₂ (fun entry entry' => r.Names entry.1 entry'.1 ∧ Function.Renamed r entry.2 entry'.2)
      (methods first declarations closure) (methods first declarations' closure) := by
  induction hdeclarations generalizing first with
  | nil => exact .nil
  | cons hdeclaration _ ih =>
      obtain ⟨hname, hparams, hbody⟩ := hdeclaration
      rw [methods_cons, methods_cons]
      exact .cons ⟨Renaming.names_of_name hname, rfl, ⟨hname, hparams, hbody⟩, rfl⟩ (ih (first + 1))

theorem addClass (h : store.Renamed r store') {name name' : Token} (hname : r.matching .name name name')
    {declarations declarations' : List Declaration}
    (hdeclarations : List.Forall₂ (Declaration.Like r.matching) declarations declarations') (closure : Environment) :
    (store.addClass name.lexeme declarations closure).1.Renamed r
        (store'.addClass name'.lexeme declarations' closure).1 ∧
      (store.addClass name.lexeme declarations closure).2.Renamed r
        (store'.addClass name'.lexeme declarations' closure).2 := by
  rw [addClass_eq, addClass_eq, h.functions]
  refine ⟨⟨h.classes, Renaming.lexeme_eq hname, Bindings.renamed_ofList (renamed_methods hdeclarations _ closure)⟩, ?_⟩
  exact { h with
    scope := h.scope
    fields := h.fields
    functions := congrArg (store.functions + ·) hdeclarations.length_eq.symm
    classes := congrArg (· + 1) h.classes }

/-- The renamed name is found in the same scope. -/
theorem resolve? (h : store.Renamed r store') (environment : Environment) (hname : r.Names name name') :
    store.resolve? environment name = store'.resolve? environment name' := by
  unfold Store.resolve?
  congr 1
  funext id
  have hfound := (h.scope id).get? hname
  generalize (store.scope id).get? name = found?, (store'.scope id).get? name' = found?' at hfound
  cases hfound <;> rfl

theorem lookup? (h : store.Renamed r store') (environment : Environment) (hname : r.Names name name') :
    Option.Rel (Value.Renamed r) (store.lookup? environment name) (store'.lookup? environment name') := by
  rw [lookup?_eq_bind_resolve?, lookup?_eq_bind_resolve?, ← h.resolve? environment hname]
  cases store.resolve? environment name with
  | none => exact .none
  | some id => exact (h.scope id).get? hname

end Store.Renamed

end Script
