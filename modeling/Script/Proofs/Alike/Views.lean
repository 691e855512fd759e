import Script.Proofs.Alike.Values
import Script.Proofs.Operators

/-!
# One state seen in another

A view says which tokens stand for which, and which scopes. A scope that is not seen is hollow: it holds
nothing, and environments are seen without it. All else is the same, so that a program cannot tell whether it
runs in a state or in what is seen of it.
-/

namespace Script

structure View where
  tokens : Matching
  scopes : ScopeId → Option ScopeId

/-- Tokens that correspond read the same, and no two scopes are seen as one. -/
structure View.Faithful (view : View) : Prop where
  tokens : view.tokens.Faithful
  injective : ∀ {id id' scope}, view.scopes id = some scope → view.scopes id' = some scope → id = id'

/-- The same environment, but for its hollow scopes. -/
def Environment.Seen (view : View) (environment environment' : Environment) : Prop :=
  environment'.chain = environment.chain.filterMap view.scopes

structure Function.Seen (view : View) (f f' : Function) : Prop where
  id : f'.id = f.id
  declaration : Declaration.Like view.tokens f.declaration f'.declaration
  closure : f.closure.Seen view f'.closure

structure Class.Seen (view : View) (c c' : Class) : Prop where
  id : c'.id = c.id
  name : c'.name = c.name
  methods : Bindings.Like (Function.Seen view) c.methods c'.methods

inductive Callable.Seen (view : View) : Callable → Callable → Prop where
  | function {f f' : Function} (h : f.Seen view f') : Seen view (.function f) (.function f')
  | class {c c' : Class} (h : c.Seen view c') : Seen view (.class c) (.class c')
  | native (native : Native) : Seen view (.native native) (.native native)

inductive Value.Seen (view : View) : Value → Value → Prop where
  | nil : Seen view .nil .nil
  | bool (value : Bool) : Seen view (.bool value) (.bool value)
  | number (value : Float) : Seen view (.number value) (.number value)
  | string (text : String) : Seen view (.string text) (.string text)
  | callable {c c' : Callable} (h : c.Seen view c') : Seen view (.callable c) (.callable c')
  | instance {c c' : Class} (id : Nat) (h : c.Seen view c') :
      Seen view (.instance ⟨c, id⟩) (.instance ⟨c', id⟩)

structure Store.Seen (view : View) (store store' : Store) : Prop where
  /-- The scopes that are made next are seen as those that are made next there. -/
  fresh : ∀ more, view.scopes (store.scopes.size + more) = some (store'.scopes.size + more)
  scope : ∀ id id', view.scopes id = some id' →
    Bindings.Like (Value.Seen view) (store.scope id) (store'.scope id')
  hollow : ∀ id, view.scopes id = none → store.scope id = {}
  objects : store'.objects.size = store.objects.size
  fields : ∀ id, Bindings.Like (Value.Seen view) (store.fields id) (store'.fields id)
  functions : store'.functions = store.functions
  classes : store'.classes = store.classes

/-- The states are in these environments, and differ only in them and in their stores. -/
structure Machine.Seen (view : View) (environment environment' : Environment) (machine machine' : Machine) :
    Prop where
  here : machine.environment = environment
  there : machine'.environment = environment'
  globals : machine'.globals = machine.globals
  depth : machine'.depth = machine.depth
  store : machine.store.Seen view machine'.store
  sink : machine'.sink = machine.sink
  time : machine'.time = machine.time

/-- Both ends are of the same sort, in states of which one is seen in the other. -/
inductive Outcome.Seen {ε α : Type} (view : View) (environment environment' : Environment) (E : ε → ε → Prop)
    (V : α → α → Prop) : Outcome ε α → Outcome ε α → Prop where
  | done {value value' : α} {machine machine' : Machine} (hvalue : V value value')
      (hmachine : machine.Seen view environment environment' machine') :
      Seen view environment environment' E V (.done value machine) (.done value' machine')
  | failed {error error' : ε} {machine machine' : Machine} (herror : E error error')
      (hmachine : machine.Seen view environment environment' machine') :
      Seen view environment environment' E V (.failed error machine) (.failed error' machine')
  | exhausted : Seen view environment environment' E V .exhausted .exhausted

variable {view : View}

/-! ### What a program can see -/

theorem Function.Seen.name_eq (hfaithful : view.tokens.Faithful) {f f' : Function} (h : f.Seen view f') :
    f'.name = f.name := by
  obtain ⟨-, ⟨hname, -, -⟩, -⟩ := h
  exact hfaithful.lexeme hname

theorem Function.Seen.arity_eq {f f' : Function} (h : f.Seen view f') : f'.arity = f.arity := by
  obtain ⟨-, ⟨-, hparams, -⟩, -⟩ := h
  exact hparams.length_eq.symm

theorem Class.Seen.method? {c c' : Class} (h : c.Seen view c') (name : String) :
    Option.Rel (Function.Seen view) (c.method? name) (c'.method? name) :=
  h.methods.get? name

theorem Class.Seen.arity_eq {c c' : Class} (h : c.Seen view c') : c'.arity = c.arity := by
  have hmethod := h.method? Class.initializer
  unfold Class.arity
  generalize c.method? Class.initializer = method?, c'.method? Class.initializer = method?' at hmethod
  cases hmethod with
  | none => rfl
  | some hmethod => exact hmethod.arity_eq

namespace Callable

variable {c c' other other' : Callable}

theorem Seen.arity_eq (h : c.Seen view c') : c'.arity = c.arity := by
  cases h with
  | function h => exact h.arity_eq
  | «class» h => exact h.arity_eq
  | native => rfl

theorem Seen.text_eq (hfaithful : view.tokens.Faithful) (h : c.Seen view c') : c'.text = c.text := by
  cases h with
  | function h => simp only [text, h.name_eq hfaithful]
  | «class» h => exact h.name
  | native => rfl

theorem Seen.same_eq (h : c.Seen view c') (hother : other.Seen view other') : c'.same other' = c.same other := by
  cases h with
  | function h =>
      cases hother with
      | function h' => simp only [same, h.id, h'.id]
      | _ => rfl
  | «class» h =>
      cases hother with
      | «class» h' => simp only [same, h.id, h'.id]
      | _ => rfl
  | native => cases hother <;> rfl

end Callable

namespace Value

variable {value value' other other' : Value}

theorem seen_of_isPlain (h : value.isPlain = true) : value.Seen view value := by
  cases value with
  | nil => exact .nil
  | bool value => exact .bool value
  | number value => exact .number value
  | string text => exact .string text
  | callable | «instance» => cases h

theorem Seen.text_eq (hfaithful : view.tokens.Faithful) (h : value.Seen view value') : value'.text = value.text := by
  cases h with
  | nil | bool | number | string => rfl
  | callable h => exact h.text_eq hfaithful
  | «instance» id h => simp only [text, Instance.text, h.name]

theorem Seen.truthy_eq (h : value.Seen view value') : value'.truthy = value.truthy := by
  cases h <;> rfl

theorem Seen.equal_eq (h : value.Seen view value') (hother : other.Seen view other') :
    value'.equal other' = value.equal other := by
  cases h with
  | callable h =>
      cases hother with
      | callable h' => exact h.same_eq h'
      | _ => rfl
  | _ => cases hother <;> rfl

end Value

theorem Kind.binary_eq (kind : Kind) {left left' right right' : Value} (hleft : left.Seen view left')
    (hright : right.Seen view right') : kind.binary left' right' = kind.binary left right := by
  have hnumeric (compute : Float → Float → Value) :
      left'.numeric compute right' = left.numeric compute right := by
    cases hleft <;> cases hright <;> rfl
  have hadd : left'.add right' = left.add right := by
    cases hleft <;> cases hright <;> rfl
  simp only [binary, hnumeric, hadd, hleft.equal_eq hright]

theorem Kind.unary_eq (kind : Kind) {right right' : Value} (hright : right.Seen view right') :
    kind.unary right' = kind.unary right := by
  have hnegate : right'.negate = right.negate := by
    cases hright <;> rfl
  simp only [unary, hnegate, hright.truthy_eq]

theorem Kind.settledBy_eq (kind : Kind) {left left' : Value} (hleft : left.Seen view left') :
    kind.settledBy left' = kind.settledBy left := by
  simp only [settledBy, hleft.truthy_eq]

/-! ### Environments -/

/-- In an inner scope that is seen, both environments are inside of one scope more. -/
theorem Environment.Seen.push {environment environment' : Environment} (h : environment.Seen view environment')
    {scope scope' : ScopeId} (hscope : view.scopes scope = some scope') :
    (environment.push scope).Seen view (environment'.push scope') := by
  unfold Environment.Seen at h ⊢
  rw [chain_push, chain_push, List.filterMap_cons, hscope, h]

/-! ### Stores -/

namespace Store.Seen

variable {store store' : Store} {environment environment' : Environment}

theorem lt_size_iff (h : store.Seen view store') (hfaithful : view.Faithful) {id id' : ScopeId}
    (hid : view.scopes id = some id') : id < store.scopes.size ↔ id' < store'.scopes.size := by
  constructor
  · intro hlt
    by_contra hnot
    obtain ⟨more, rfl⟩ := Nat.exists_eq_add_of_le (Nat.le_of_not_lt hnot)
    rw [hfaithful.injective hid (h.fresh more)] at hlt
    exact Nat.not_lt.mpr (Nat.le_add_right _ _) hlt
  · intro hlt
    by_contra hnot
    obtain ⟨more, rfl⟩ := Nat.exists_eq_add_of_le (Nat.le_of_not_lt hnot)
    rw [← Option.some.inj ((h.fresh more).symm.trans hid)] at hlt
    exact Nat.not_lt.mpr (Nat.le_add_right _ _) hlt

theorem eq_iff (hfaithful : view.Faithful) {id id' other other' : ScopeId} (hid : view.scopes id = some id')
    (hother : view.scopes other = some other') : other = id ↔ other' = id' := by
  constructor
  · rintro rfl
    exact Option.some.inj (hother.symm.trans hid)
  · rintro rfl
    exact hfaithful.injective hother hid

theorem addScope (h : store.Seen view store') (hfaithful : view.Faithful) {contents contents' : Bindings Value}
    (hcontents : Bindings.Like (Value.Seen view) contents contents') :
    view.scopes (store.addScope contents).1 = some (store'.addScope contents').1 ∧
      (store.addScope contents).2.Seen view (store'.addScope contents').2 := by
  have hnew : view.scopes store.scopes.size = some store'.scopes.size := h.fresh 0
  refine ⟨hnew,
    { h with
      fresh := fun more => ?_
      scope := fun id id' hid => ?_
      hollow := fun id hid => ?_
      fields := h.fields }⟩
  · have hmore := h.fresh (1 + more)
    simpa only [Store.addScope, Array.size_push, Nat.add_assoc] using hmore
  · rw [scope_addScope, scope_addScope]
    simp only [eq_iff hfaithful hnew hid]
    split
    · exact hcontents
    · exact h.scope id id' hid
  · rw [scope_addScope, if_neg, h.hollow id hid]
    rintro rfl
    cases hnew.symm.trans hid

theorem addObject (h : store.Seen view store') :
    store'.addObject.1 = store.addObject.1 ∧ store.addObject.2.Seen view store'.addObject.2 := by
  refine ⟨h.objects,
    { h with
      fresh := h.fresh
      scope := h.scope
      hollow := h.hollow
      objects := ?_
      fields := fun id => ?_ }⟩
  · simp only [Store.addObject, Array.size_push, h.objects]
  · rw [fields_addObject, fields_addObject]
    exact h.fields id

theorem define (h : store.Seen view store') (hfaithful : view.Faithful) {id id' : ScopeId}
    (hid : view.scopes id = some id') (name : String) {value value' : Value} (hvalue : value.Seen view value') :
    (store.define id name value).Seen view (store'.define id' name value') := by
  refine
    { h with
      fresh := fun more => ?_
      scope := fun other other' hother => ?_
      hollow := fun other hother => ?_
      fields := h.fields }
  · simpa only [Store.define, Array.size_modify] using h.fresh more
  · rw [scope_define, scope_define]
    simp only [eq_iff hfaithful hid hother, h.lt_size_iff hfaithful hid]
    split
    · exact (h.scope id id' hid).set name hvalue
    · exact h.scope other other' hother
  · rw [scope_define, if_neg, h.hollow other hother]
    rintro ⟨rfl, -⟩
    cases hid.symm.trans hother

theorem setField (h : store.Seen view store') (id : Nat) (name : String) {value value' : Value}
    (hvalue : value.Seen view value') :
    (store.setField id name value).Seen view (store'.setField id name value') := by
  refine
    { h with
      fresh := h.fresh
      scope := h.scope
      hollow := h.hollow
      objects := ?_
      fields := fun other => ?_ }
  · simp only [Store.setField, Array.size_modify, h.objects]
  · rw [fields_setField, fields_setField, h.objects]
    split
    · exact (h.fields id).set name hvalue
    · exact h.fields other

theorem addFunction (h : store.Seen view store') {declaration declaration' : Declaration}
    (hdeclaration : Declaration.Like view.tokens declaration declaration')
    (hclosure : environment.Seen view environment') :
    (store.addFunction declaration environment).1.Seen view (store'.addFunction declaration' environment').1 ∧
      (store.addFunction declaration environment).2.Seen view (store'.addFunction declaration' environment').2 :=
  ⟨⟨h.functions, hdeclaration, hclosure⟩,
    { h with
      fresh := h.fresh
      scope := h.scope
      hollow := h.hollow
      fields := h.fields
      functions := congrArg (· + 1) h.functions }⟩

theorem bind (h : store.Seen view store') (hfaithful : view.Faithful) {method method' : Function}
    (hmethod : method.Seen view method') {c c' : Class} (hcls : c.Seen view c') (id : Nat) :
    (store.bind method ⟨c, id⟩).1.Seen view (store'.bind method' ⟨c', id⟩).1 ∧
      (store.bind method ⟨c, id⟩).2.Seen view (store'.bind method' ⟨c', id⟩).2 := by
  have hempty : Bindings.Like (Value.Seen view) {} {} := .nil
  obtain ⟨hscope, hstore⟩ := h.addScope hfaithful (hempty.set "this" (.instance id hcls))
  exact hstore.addFunction hmethod.declaration (hmethod.closure.push hscope)

theorem addClass (h : store.Seen view store') (hfaithful : view.tokens.Faithful) (name : String)
    {declarations declarations' : List Declaration}
    (hdeclarations : List.Forall₂ (Declaration.Like view.tokens) declarations declarations')
    (hclosure : environment.Seen view environment') :
    (store.addClass name declarations environment).1.Seen view (store'.addClass name declarations' environment').1 ∧
      (store.addClass name declarations environment).2.Seen view
        (store'.addClass name declarations' environment').2 := by
  let step (closure : Environment) (made : Bindings Function × Store) (declaration : Declaration) :
      Bindings Function × Store :=
    (made.1.set (made.2.addFunction declaration closure).1.name (made.2.addFunction declaration closure).1,
      (made.2.addFunction declaration closure).2)
  let S (made made' : Bindings Function × Store) : Prop :=
    Bindings.Like (Function.Seen view) made.1 made'.1 ∧ made.2.Seen view made'.2
  have hstep : Relator.LiftFun S (Relator.LiftFun (Declaration.Like view.tokens) S) (step environment)
      (step environment') := by
    intro made made' hmade declaration declaration' hdeclaration
    obtain ⟨hmethod, hstore⟩ := hmade.2.addFunction hdeclaration hclosure
    refine ⟨?_, hstore⟩
    simp only [step, hmethod.name_eq hfaithful]
    exact hmade.1.set _ hmethod
  have hempty : S ({}, store) ({}, store') := ⟨.nil, h⟩
  obtain ⟨hmethods, hstore⟩ := List.rel_foldl hstep hempty hdeclarations
  exact ⟨⟨hstore.classes, rfl, hmethods⟩,
    { hstore with
      fresh := hstore.fresh
      scope := hstore.scope
      hollow := hstore.hollow
      fields := hstore.fields
      classes := congrArg (· + 1) hstore.classes }⟩

/-- A name is found in scopes that are seen as one another, if at all. -/
theorem resolve? (h : store.Seen view store') (henvironment : environment.Seen view environment')
    (name : String) : Option.Rel (fun id id' => view.scopes id = some id') (store.resolve? environment name)
      (store'.resolve? environment' name) := by
  unfold Store.resolve?
  rw [henvironment]
  induction environment.chain with
  | nil => exact .none
  | cons id rest ih =>
      rw [List.find?_cons, List.filterMap_cons]
      cases hid : view.scopes id with
      | none =>
          rw [h.hollow id hid]
          exact ih
      | some id' =>
          have hfound := (h.scope id id' hid).get? name
          simp only [List.find?_cons]
          generalize (store.scope id).get? name = found?, (store'.scope id').get? name = found?' at hfound
          cases hfound with
          | none => exact ih
          | some => exact .some hid

theorem lookup? (h : store.Seen view store') (henvironment : environment.Seen view environment')
    (name : String) :
    Option.Rel (Value.Seen view) (store.lookup? environment name) (store'.lookup? environment' name) := by
  rw [lookup?_eq_bind_resolve?, lookup?_eq_bind_resolve?]
  have hscope := h.resolve? henvironment name
  generalize store.resolve? environment name = scope?, store'.resolve? environment' name = scope?' at hscope
  cases hscope with
  | none => exact .none
  | some hid => exact (h.scope _ _ hid).get? name

end Store.Seen

end Script
