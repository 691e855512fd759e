import Script.Proofs.Discipline.Basic
import Script.Proofs.Moments.Operands

/-!
# Operations keep a discipline

What the operations on the store add to the values in it, and that lookups, definitions, objects and calls
keep a discipline as long as the execution of a function's body does.
-/

namespace Script

namespace Store

variable {store : Store} {found : Value}

theorem stores_of_addScope {contents : Bindings Value} (h : (store.addScope contents).2.Stores found) :
    store.Stores found ∨ ∃ name, contents.get? name = some found := by
  obtain ⟨cell, name, hfound⟩ := h
  cases cell with
  | fields id => exact Or.inl ⟨.fields id, name, hfound⟩
  | scope id =>
      rw [Store.contents, scope_addScope] at hfound
      split at hfound
      · exact Or.inr ⟨name, hfound⟩
      · exact Or.inl ⟨.scope id, name, hfound⟩

theorem stores_of_define {scope : ScopeId} {name : String} {value : Value}
    (h : (store.define scope name value).Stores found) : store.Stores found ∨ found = value := by
  obtain ⟨cell, other, hfound⟩ := h
  cases cell with
  | fields id => exact Or.inl ⟨.fields id, other, hfound⟩
  | scope id =>
      rw [Store.contents, scope_define] at hfound
      split at hfound
      · rw [Bindings.get?_set] at hfound
        split at hfound
        · exact Or.inr (Option.some.inj hfound).symm
        · exact Or.inl ⟨.scope scope, other, hfound⟩
      · exact Or.inl ⟨.scope id, other, hfound⟩

theorem stores_of_setField {id : Nat} {name : String} {value : Value}
    (h : (store.setField id name value).Stores found) : store.Stores found ∨ found = value := by
  obtain ⟨cell, other, hfound⟩ := h
  cases cell with
  | scope scope => exact Or.inl ⟨.scope scope, other, hfound⟩
  | fields object =>
      rw [Store.contents, fields_setField] at hfound
      split at hfound
      · rw [Bindings.get?_set] at hfound
        split at hfound
        · exact Or.inr (Option.some.inj hfound).symm
        · exact Or.inl ⟨.fields id, other, hfound⟩
      · exact Or.inl ⟨.fields object, other, hfound⟩

theorem stores_of_addObject (h : store.addObject.2.Stores found) : store.Stores found := by
  obtain ⟨cell, name, hfound⟩ := h
  cases cell with
  | scope id => exact ⟨.scope id, name, hfound⟩
  | fields id =>
      rw [Store.contents, fields_addObject] at hfound
      exact ⟨.fields id, name, hfound⟩

theorem stores_of_lookup? {environment : Environment} {name : String}
    (h : store.lookup? environment name = some found) : store.Stores found := by
  obtain ⟨scope, -, hvalue⟩ := List.exists_of_findSome?_eq_some h
  exact ⟨.scope scope, name, hvalue⟩

end Store

theorem Machine.eq_clock_of_start {sink : Sink} {time : Clock} {value : Value}
    (h : (Machine.start sink time).store.Stores value) : value = .callable (.native .clock) := by
  obtain ⟨cell, name, hvalue⟩ := h
  cases cell with
  | fields id => cases hvalue
  | scope id =>
      rw [Store.contents, Machine.start, Store.scope_addScope] at hvalue
      split at hvalue
      · rw [Bindings.get?_set] at hvalue
        split at hvalue
        · exact (Option.some.inj hvalue).symm
        · cases hvalue
      · cases hvalue

namespace Discipline

variable {α W : Type} [Preorder W] {d : Discipline W} {world : W} {environment : Environment}

/-! ### Names -/

theorem keeps_lookup (name : Token) :
    d.Keeps world environment (Eval.lookup name) fun later value => d.value later value := by
  unfold Eval.lookup
  refine keeps_bind keeps_environment fun later found hle hfound => ?_
  have hread : d.Keeps later environment (Eval.read (·.lookup? found name.lexeme))
      fun later value? => ∀ value ∈ value?, d.value later value :=
    keeps_read fun machine hgood value hvalue => hgood.stored value (Store.stores_of_lookup? hvalue)
  refine keeps_bind hread fun later value? _ hvalue => ?_
  cases value? with
  | some value => exact keeps_pure (hvalue value rfl)
  | none => exact keeps_fail _

theorem keeps_define {statement : Stmt} {name : String} {value : Value}
    (htask : d.task world environment (.exec statement)) (hname : statement.defines = some name)
    (hvalue : d.value world value) :
    d.Keeps world environment (Eval.define name value) fun _ _ => True := by
  unfold Eval.define
  refine keeps_bind keeps_environment fun later found hle hfound => ?_
  subst hfound
  refine keeps_change fun machine hgood => ?_
  obtain ⟨last, hle', hstate⟩ := d.defined value (d.task_mono hle htask) hname hgood.state
  refine ⟨last, hle', hgood.of_stored hle' hstate fun stored hstored => ?_, trivial⟩
  rcases Store.stores_of_define hstored with hbefore | rfl
  · exact Or.inl hbefore
  · exact Or.inr (value_mono (le_trans hle hle') hvalue)

theorem keeps_assign {name : Token} {expression : Expr} {value : Value}
    (htask : d.task world environment (.eval (.assign name expression)))
    (hvalue : d.value world value) :
    d.Keeps world environment (Eval.assign name value) fun _ _ => True := by
  intro machine value? after hgood henvironment hends
  rw [Eval.assign_apply] at hends
  unfold Store.assign? at hends
  cases hscope : machine.store.resolve? machine.environment name.lexeme with
  | none =>
      rw [hscope] at hends
      cases hends
      exact ⟨world, le_refl world, hgood, henvironment, fun _ _ => trivial⟩
  | some scope =>
      rw [hscope] at hends
      cases hends
      rw [henvironment] at hscope
      obtain ⟨later, hle, hstate⟩ := d.assigned value htask hscope hgood.state
      refine ⟨later, hle, hgood.of_stored hle hstate fun stored hstored => ?_, henvironment,
        fun _ _ => trivial⟩
      rcases Store.stores_of_define hstored with hbefore | rfl
      · exact Or.inl hbefore
      · exact Or.inr (value_mono hle hvalue)

/-! ### Functions and classes -/

theorem keeps_addFunction {declaration : Declaration}
    (htask : d.task world environment (.exec (.function declaration))) :
    d.Keeps world environment (Eval.change fun store => store.addFunction declaration environment)
      fun later f => f.declaration = declaration ∧ d.function later f := by
  refine keeps_change fun machine hgood => ?_
  obtain ⟨later, hle, hstate, hfunction⟩ := d.declared htask hgood.state
  exact ⟨later, hle, hgood.of_stored hle hstate fun stored hstored => Or.inl hstored, rfl, hfunction⟩

theorem keeps_addClass {name : Token} {declarations : List Declaration}
    (htask : d.task world environment (.exec (.classDecl name declarations))) :
    d.Keeps world environment
      (Eval.change fun store => store.addClass name.lexeme declarations environment) d.cls := by
  refine keeps_change fun machine hgood => ?_
  obtain ⟨later, hle, hstate, hcls⟩ := d.declaredClass htask hgood.state
  refine ⟨later, hle, hgood.of_stored hle hstate fun stored hstored => Or.inl ?_, hcls⟩
  rwa [Store.addClass_eq] at hstored

/-! ### Objects -/

theorem keeps_bind_method {method : Function} {object : Instance} (hmethod : d.method world method)
    (hobject : d.object world object) :
    d.Keeps world environment (method.bind object) d.function := by
  refine keeps_change fun machine hgood => ?_
  obtain ⟨later, hle, hstate, hfunction⟩ := d.bound hmethod hobject hgood.state
  refine ⟨later, hle, hgood.of_stored hle hstate fun stored hstored => ?_, hfunction⟩
  -- binding makes a scope with the object in it, and then takes a number
  rcases Store.stores_of_addScope hstored with hbefore | ⟨name, hfound⟩
  · exact Or.inl hbefore
  · rw [Bindings.get?_set] at hfound
    split at hfound
    · cases hfound
      exact Or.inr (d.object_mono hle hobject)
    · cases hfound

theorem keeps_get {object : Instance} (name : Token) (hobject : d.object world object) :
    d.Keeps world environment (object.get name) fun later value => d.value later value := by
  unfold Instance.get
  have hread : d.Keeps world environment
      (Eval.read fun store => (store.fields object.id).get? name.lexeme)
      fun later value? => ∀ value ∈ value?, d.value later value :=
    keeps_read fun machine hgood value hvalue =>
      hgood.stored value ⟨.fields object.id, name.lexeme, hvalue⟩
  refine keeps_bind hread fun later value? hle hvalue => ?_
  cases value? with
  | some value => exact keeps_pure (hvalue value rfl)
  | none =>
      simp only
      cases hmethod : object.cls.method? name.lexeme with
      | none => exact keeps_fail _
      | some method =>
          have hobject := d.object_mono hle hobject
          have hfound := d.method_of_cls (d.cls_of_object hobject) _ method hmethod
          refine keeps_bind (keeps_bind_method hfound hobject) ?_
          exact fun last f _ hf => keeps_pure hf

theorem keeps_set {object : Instance} {value : Value} (name : Token) (hvalue : d.value world value) :
    d.Keeps world environment (object.set name value) fun _ _ => True := by
  refine keeps_change fun machine hgood => ?_
  obtain ⟨later, hle, hstate⟩ := d.field object.id name.lexeme value hgood.state
  refine ⟨later, hle, hgood.of_stored hle hstate fun stored hstored => ?_, trivial⟩
  rcases Store.stores_of_setField hstored with hbefore | rfl
  · exact Or.inl hbefore
  · exact Or.inr (value_mono hle hvalue)

theorem keeps_instantiate {c : Class} (hcls : d.cls world c) :
    d.Keeps world environment c.instantiate fun later object => d.object later object ∧ object.cls = c := by
  have hobject : d.Keeps world environment (Eval.change Store.addObject)
      fun later id => d.object later ⟨c, id⟩ := by
    refine keeps_change fun machine hgood => ?_
    obtain ⟨later, hle, hstate, hmade⟩ := d.made hcls hgood.state
    refine ⟨later, hle, hgood.of_stored hle hstate fun stored hstored => ?_, hmade⟩
    exact Or.inl (Store.stores_of_addObject hstored)
  exact keeps_bind hobject fun later id _ hmade => keeps_pure ⟨hmade, rfl⟩

/-! ### Blocks and calls -/

variable {machine : Machine}

theorem Good.enterBlock {statements : List Stmt} (hgood : d.Good world machine)
    (htask : d.task world machine.environment (.exec (.block statements))) :
    ∃ later, world ≤ later ∧ d.Good later machine.enterBlock ∧
      ∀ statement ∈ statements, d.task later machine.enterBlock.environment (.exec statement) := by
  obtain ⟨later, hle, hstate, htasks⟩ := d.block htask hgood.state
  have hinner := d.elsewhere machine.enterBlock.environment machine.depth machine.time hstate
  refine ⟨later, hle, hgood.of_stored hle hinner fun stored hstored => ?_, htasks⟩
  rcases Store.stores_of_addScope hstored with hbefore | ⟨name, hfound⟩
  · exact Or.inl hbefore
  · cases hfound

theorem Good.enterBody {f : Function} {arguments : List Value} (hgood : d.Good world machine)
    (hfunction : d.function world f) (harguments : ∀ value ∈ arguments, d.value world value) :
    ∃ later, world ≤ later ∧ d.Good later (machine.enterBody f arguments) ∧
      ∀ statement ∈ f.declaration.body,
        d.task later (machine.enterBody f arguments).environment (.exec statement) := by
  obtain ⟨later, hle, hstate, htasks⟩ := d.body arguments hfunction hgood.state
  have hinner :=
    d.elsewhere (machine.enterBody f arguments).environment machine.depth machine.time hstate
  refine ⟨later, hle, hgood.of_stored hle hinner fun stored hstored => ?_, htasks⟩
  rcases Store.stores_of_addScope hstored with hbefore | ⟨name, hfound⟩
  · exact Or.inl hbefore
  · have hmem := (List.of_mem_zip (Bindings.get?_ofList hfound)).2
    exact Or.inr (value_mono hle (harguments _ hmem))

/-- The value of a statement that returns is as it should be. -/
def flow (d : Discipline W) (world : W) : Flow → Prop
  | .next => True
  | .returned value => d.value world value

theorem keeps_next : d.Keeps world environment (pure Flow.next) d.flow :=
  keeps_pure trivial

/-- Whatever is executed keeps the discipline, wherever it stands. -/
def KeepsFlow (d : Discipline W) (exec : Stmt → Eval Flow) : Prop :=
  ∀ world environment statement, d.task world environment (.exec statement) →
    d.Keeps world environment (exec statement) d.flow

/-- Whatever is evaluated keeps the discipline, wherever it stands. -/
def KeepsValue (d : Discipline W) (eval : Expr → Eval Value) : Prop :=
  ∀ world environment expression, d.task world environment (.eval expression) →
    d.Keeps world environment (eval expression) d.value

theorem keeps_entered {enter : Machine → Machine} {body : Eval α} {post : W → α → Prop}
    (henter : ∀ machine, d.Good world machine → machine.environment = environment →
      ∃ later, world ≤ later ∧ d.Good later (enter machine) ∧
        d.Keeps later (enter machine).environment body post) :
    d.Keeps world environment (Eval.entered enter body) post := by
  intro machine value? after hgood henvironment hends
  obtain ⟨last, hlast, rfl⟩ := Outcome.ends_mapMachine_iff.mp hends
  obtain ⟨later, hle, hinner, hbody⟩ := henter machine hgood henvironment
  obtain ⟨final, hle', hafter, -, hvalue⟩ := hbody _ value? last hinner rfl hlast
  exact ⟨final, le_trans hle hle', hafter.elsewhere _ last.depth last.time, henvironment, hvalue⟩

section Calls

variable {exec : Stmt → Eval Flow} (hexec : d.KeepsFlow exec)

include hexec

theorem keeps_sequence {statements : List Stmt}
    (htasks : ∀ statement ∈ statements, d.task world environment (.exec statement)) :
    d.Keeps world environment (Eval.sequence exec statements) d.flow := by
  induction statements generalizing world with
  | nil => exact keeps_next
  | cons statement rest ih =>
      rw [List.forall_mem_cons] at htasks
      refine keeps_bind (hexec world environment statement htasks.1) fun later flow hle hflow => ?_
      cases flow with
      | next => exact ih fun statement hmem => d.task_mono hle (htasks.2 statement hmem)
      | returned value => exact keeps_pure hflow

theorem keeps_block {statements : List Stmt}
    (htask : d.task world environment (.exec (.block statements))) :
    d.Keeps world environment (Eval.entered Machine.enterBlock (Eval.sequence exec statements)) d.flow := by
  refine keeps_entered fun machine hgood henvironment => ?_
  subst henvironment
  obtain ⟨later, hle, hinner, htasks⟩ := hgood.enterBlock htask
  exact ⟨later, hle, hinner, keeps_sequence hexec htasks⟩

theorem keeps_call_function {f : Function} {arguments : List Value} (hfunction : d.function world f)
    (harguments : ∀ value ∈ arguments, d.value world value) :
    d.Keeps world environment (f.call exec arguments) d.value := by
  have hbody : d.Keeps world environment
      (Eval.entered (·.enterBody f arguments) (Eval.sequence exec f.declaration.body)) d.flow := by
    refine keeps_entered fun machine hgood _ => ?_
    obtain ⟨later, hle, hinner, htasks⟩ := hgood.enterBody hfunction harguments
    exact ⟨later, hle, hinner, keeps_sequence hexec htasks⟩
  rw [Function.call_eq]
  refine keeps_bind hbody fun later flow _ hflow => ?_
  cases flow with
  | next => exact keeps_pure trivial
  | returned value => exact keeps_pure hflow

theorem keeps_call_class {c : Class} {arguments : List Value} (hcls : d.cls world c)
    (harguments : ∀ value ∈ arguments, d.value world value) :
    d.Keeps world environment (c.call exec arguments) d.value := by
  unfold Class.call
  refine keeps_bind (keeps_instantiate hcls) fun made object hle ⟨hobject, _⟩ => ?_
  cases hmethod : c.method? Class.initializer with
  | none => exact keeps_pure hobject
  | some method =>
      have hmade : d.method made method := d.method_mono hle (d.method_of_cls hcls _ method hmethod)
      refine keeps_bind (keeps_bind_method hmade hobject) fun bound f hle' hf => ?_
      have hbound : ∀ value ∈ arguments, d.value bound value :=
        fun value hmem => value_mono (le_trans hle hle') (harguments value hmem)
      refine keeps_bind (keeps_call_function hexec hf hbound) fun later _ hle'' _ => ?_
      exact keeps_pure (d.object_mono (le_trans hle' hle'') hobject)

theorem keeps_call_callable {callable : Callable} {arguments : List Value}
    (hcallable : d.value world (.callable callable))
    (harguments : ∀ value ∈ arguments, d.value world value) :
    d.Keeps world environment (callable.call exec arguments) d.value := by
  cases callable with
  | function f => exact keeps_call_function hexec hcallable harguments
  | «class» c => exact keeps_call_class hexec hcallable harguments
  | native n =>
      cases n with
      | clock =>
          intro machine value? after hgood henvironment hends
          cases hends
          refine ⟨world, le_refl world, hgood.elsewhere _ _ _, henvironment, ?_⟩
          rintro _ ⟨⟩
          trivial

theorem keeps_call {callee : Value} (paren : Token) {arguments : List Value}
    (hcallee : d.value world callee) (harguments : ∀ value ∈ arguments, d.value world value) :
    d.Keeps world environment (callee.call exec paren arguments) d.value := by
  cases callee with
  | callable c =>
      intro machine value? after hgood henvironment hends
      by_cases harity : arguments.length = c.arity
      · by_cases hdepth : machine.depth < maxCallDepth
        · rw [Value.call_counted paren harity hdepth] at hends
          exact keeps_counted (keeps_call_callable hexec hcallee harguments) machine value? after hgood
            henvironment hends
        · rw [Value.call_of_overflow paren harity hdepth] at hends
          exact keeps_fail (.stackOverflow paren) machine value? after hgood henvironment hends
      · rw [Value.call_of_arity paren harity] at hends
        exact keeps_fail (.arity paren _ _) machine value? after hgood henvironment hends
  | _ => exact keeps_fail _

end Calls

end Discipline

end Script
