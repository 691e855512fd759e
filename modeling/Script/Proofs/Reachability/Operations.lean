import Script.Proofs.Reachability.Confinement
import Script.Proofs.Tables

/-!
# Confined operations

What the operations on the store do to its cells, and that lookups, definitions, objects and calls are
confined as long as the execution of a function's body is.
-/

namespace Script

variable {α : Type}

namespace Store

variable {cells : Set Cell} {before after : Store}

/-- It is enough to look at the one cell that an operation changes. -/
theorem within_of_target (hclosed : before.Closed cells) {target : Cell} (htarget : target ∈ cells)
    (hothers : ∀ cell ≠ target, after.contents cell = before.contents cell)
    (hvalues : ∀ name value, (after.contents target).get? name = some value → value.cells ⊆ cells) :
    before.Within cells after := by
  constructor
  · intro cell hcell name value hvalue
    by_cases heq : cell = target
    · exact hvalues name value (heq ▸ hvalue)
    · rw [hothers cell heq] at hvalue
      exact hclosed cell hcell name value hvalue
  · intro cell hcell
    apply hothers cell
    rintro rfl
    exact hcell htarget

theorem within_of_contents (hclosed : before.Closed cells)
    (hcontents : ∀ cell, after.contents cell = before.contents cell) : before.Within cells after := by
  refine ⟨fun cell hcell name value hvalue => ?_, fun cell _ => hcontents cell⟩
  rw [hcontents cell] at hvalue
  exact hclosed cell hcell name value hvalue

/-! ### Scopes and fields -/

theorem has_addScope_iff (store : Store) (contents : Bindings Value) (cell : Cell) :
    (store.addScope contents).2.Has cell ↔
      store.Has cell ∨ cell = .scope (store.addScope contents).1 := by
  cases cell with
  | scope id =>
      simp only [Has, addScope, Array.size_push, Cell.scope.injEq]
      exact Nat.lt_succ_iff_lt_or_eq
  | fields id => simp [Has, addScope]

theorem within_addScope {store : Store} {contents : Bindings Value} (hclosed : store.Closed cells)
    (hnew : store.NewIn cells (store.addScope contents).2)
    (hvalues : ∀ name value, contents.get? name = some value → value.cells ⊆ cells) :
    store.Within cells (store.addScope contents).2 ∧ .scope (store.addScope contents).1 ∈ cells := by
  have hscope : Cell.scope (store.addScope contents).1 ∈ cells := by
    apply (hnew _ ((has_addScope_iff store contents _).mpr (Or.inr rfl))).resolve_left
    exact Nat.lt_irrefl store.scopes.size
  refine ⟨within_of_target hclosed hscope (fun cell hcell => ?_) fun name value hvalue => ?_, hscope⟩
  · cases cell with
    | fields id => rfl
    | scope id =>
        refine (scope_addScope store contents id).trans (if_neg ?_)
        rintro rfl
        exact hcell rfl
  · rw [Store.contents, scope_addScope,
      if_pos (show (store.addScope contents).1 = store.scopes.size from rfl)] at hvalue
    exact hvalues name value hvalue

theorem has_define_iff (store : Store) (scope : ScopeId) (name : String) (value : Value) (cell : Cell) :
    (store.define scope name value).Has cell ↔ store.Has cell := by
  cases cell <;> simp [Has, define]

theorem within_define {store : Store} {scope : ScopeId} {name : String} {value : Value}
    (hclosed : store.Closed cells) (hscope : .scope scope ∈ cells) (hvalue : value.cells ⊆ cells) :
    store.Within cells (store.define scope name value) := by
  refine within_of_target hclosed hscope (fun cell hcell => ?_) fun other found hfound => ?_
  · cases cell with
    | fields id => rfl
    | scope id =>
        refine (scope_define store scope name value id).trans (if_neg ?_)
        rintro ⟨rfl, -⟩
        exact hcell rfl
  · rw [contents, scope_define] at hfound
    split at hfound
    · rw [Bindings.get?_set] at hfound
      split at hfound
      · cases hfound
        exact hvalue
      · exact hclosed _ hscope other found hfound
    · exact hclosed _ hscope other found hfound

theorem has_addObject_iff (store : Store) (cell : Cell) :
    store.addObject.2.Has cell ↔ store.Has cell ∨ cell = .fields store.addObject.1 := by
  cases cell with
  | scope id => simp [Has, addObject]
  | fields id =>
      simp only [Has, addObject, Array.size_push, Cell.fields.injEq]
      omega

theorem within_addObject {store : Store} (hclosed : store.Closed cells)
    (hnew : store.NewIn cells store.addObject.2) :
    store.Within cells store.addObject.2 ∧ .fields store.addObject.1 ∈ cells := by
  have hfields : Cell.fields store.addObject.1 ∈ cells := by
    apply (hnew _ ((has_addObject_iff store _).mpr (Or.inr rfl))).resolve_left
    exact Nat.lt_irrefl store.objects.size
  refine ⟨within_of_contents hclosed fun cell => ?_, hfields⟩
  cases cell with
  | scope id => rfl
  | fields id => exact fields_addObject store id

theorem has_setField_iff (store : Store) (id : Nat) (name : String) (value : Value) (cell : Cell) :
    (store.setField id name value).Has cell ↔ store.Has cell := by
  cases cell <;> simp [Has, setField]

theorem within_setField {store : Store} {id : Nat} {name : String} {value : Value}
    (hclosed : store.Closed cells) (hfields : .fields id ∈ cells) (hvalue : value.cells ⊆ cells) :
    store.Within cells (store.setField id name value) := by
  refine within_of_target hclosed hfields (fun cell hcell => ?_) fun other found hfound => ?_
  · cases cell with
    | scope scope => rfl
    | fields object =>
        refine (fields_setField store id name value object).trans (if_neg ?_)
        rintro ⟨rfl, -⟩
        exact hcell rfl
  · rw [contents, fields_setField] at hfound
    split at hfound
    · rw [Bindings.get?_set] at hfound
      split at hfound
      · cases hfound
        exact hvalue
      · exact hclosed _ hfields other found hfound
    · exact hclosed _ hfields other found hfound

/-! ### Names -/

theorem scope_mem_of_resolve? {store : Store} {environment : Environment} {name : String}
    {scope : ScopeId} (henvironment : environment.cells ⊆ cells)
    (h : store.resolve? environment name = some scope) : Cell.scope scope ∈ cells :=
  Environment.cells_subset_iff.mp henvironment scope (List.mem_of_find?_eq_some h)

theorem cells_subset_of_lookup? {store : Store} {environment : Environment} {name : String}
    {value : Value} (henvironment : environment.cells ⊆ cells) (hclosed : store.Closed cells)
    (h : store.lookup? environment name = some value) : value.cells ⊆ cells := by
  obtain ⟨scope, hscope, hvalue⟩ := List.exists_of_findSome?_eq_some h
  exact hclosed _ (Environment.cells_subset_iff.mp henvironment scope hscope) name value hvalue

/-! ### Functions and classes -/

/-- Making functions and classes takes numbers only. -/
def SameCells (before after : Store) : Prop :=
  after.scopes = before.scopes ∧ after.objects = before.objects

theorem SameCells.has_iff (h : before.SameCells after) (cell : Cell) :
    after.Has cell ↔ before.Has cell := by
  cases cell <;> simp [Has, h.1, h.2]

theorem SameCells.contents (h : before.SameCells after) (cell : Cell) :
    after.contents cell = before.contents cell := by
  cases cell <;> simp [Store.contents, scope, fields, h.1, h.2]

theorem sameCells_addFunction (store : Store) (declaration : Declaration) (closure : Environment) :
    store.SameCells (store.addFunction declaration closure).2 :=
  ⟨rfl, rfl⟩

theorem sameCells_addClass (store : Store) (name : String) (declarations : List Declaration)
    (closure : Environment) : store.SameCells (store.addClass name declarations closure).2 := by
  rw [addClass_eq]
  exact ⟨rfl, rfl⟩

theorem cells_addClass (store : Store) (name : String) (declarations : List Declaration)
    {closure : Environment} (hclosure : closure.cells ⊆ cells) :
    (store.addClass name declarations closure).1.cells ⊆ cells := by
  refine Class.cells_subset_iff.mpr fun other method hmethod => ?_
  obtain ⟨_, _, rfl⟩ := exists_of_method_addClass hmethod
  exact hclosure

end Store

/-! ### Computations -/

namespace Eval

variable {cells : Set Cell} {pre : Prop}

theorem confined_lookup (name : Token) :
    Confined cells pre (lookup name) fun value => value.cells ⊆ cells := by
  unfold lookup
  refine confined_bind confined_environment fun environment => ?_
  have hread : Confined cells (pre ∧ environment.cells ⊆ cells)
      (read (·.lookup? environment name.lexeme)) fun value? => ∀ value ∈ value?, value.cells ⊆ cells :=
    confined_read fun h store hclosed _ hvalue =>
      Store.cells_subset_of_lookup? h.2 hclosed hvalue
  refine confined_bind hread fun value? => ?_
  cases value? with
  | some value => exact confined_pure fun h => h.2 value rfl
  | none => exact confined_fail _

theorem confined_defineIn {scope : ScopeId} {value : Value} (name : String)
    (h : pre → .scope scope ∈ cells ∧ value.cells ⊆ cells) :
    Confined cells pre (defineIn scope name value) fun _ => True :=
  confined_change (fun store cell => (store.has_define_iff scope name value cell).mpr)
    fun hpre _ hclosed _ => ⟨Store.within_define hclosed (h hpre).1 (h hpre).2, trivial⟩

theorem confined_assign {value : Value} (name : Token) (hvalue : pre → value.cells ⊆ cells) :
    Confined cells pre (assign name value) fun _ => True := by
  unfold assign
  refine confined_bind confined_environment fun environment => ?_
  have hread : Confined cells (pre ∧ environment.cells ⊆ cells)
      (read (·.resolve? environment name.lexeme)) fun scope? =>
        ∀ scope ∈ scope?, Cell.scope scope ∈ cells :=
    confined_read fun h _ _ _ hscope => Store.scope_mem_of_resolve? h.2 hscope
  refine confined_bind hread fun scope? => ?_
  cases scope? with
  | some scope => exact confined_defineIn _ fun h => ⟨h.2 scope rfl, hvalue h.1.1⟩
  | none => exact confined_fail _

theorem confined_define {value : Value} (name : String) (hvalue : pre → value.cells ⊆ cells) :
    Confined cells pre (define name value) fun _ => True := by
  unfold define
  refine confined_bind confined_environment fun environment => ?_
  refine confined_defineIn name fun h => ⟨?_, hvalue h.1⟩
  exact Environment.cells_subset_iff.mp h.2 _ List.mem_cons_self

theorem confined_addScope {contents : Bindings Value}
    (hvalues : pre → ∀ name value, contents.get? name = some value → value.cells ⊆ cells) :
    Confined cells pre (change fun store => store.addScope contents)
      fun scope => Cell.scope scope ∈ cells :=
  confined_change (fun store cell hcell => (store.has_addScope_iff contents cell).mpr (Or.inl hcell))
    fun hpre _ hclosed hnew => Store.within_addScope hclosed hnew (hvalues hpre)

theorem confined_addFunction {closure : Environment} (declaration : Declaration)
    (hclosure : pre → closure.cells ⊆ cells) :
    Confined cells pre (change fun store => store.addFunction declaration closure)
      fun function => function.cells ⊆ cells :=
  confined_change
    (fun store cell => ((store.sameCells_addFunction declaration closure).has_iff cell).mpr)
    fun hpre store hclosed _ =>
      ⟨Store.within_of_contents hclosed (store.sameCells_addFunction declaration closure).contents,
        hclosure hpre⟩

theorem confined_addClass {closure : Environment} (name : String) (declarations : List Declaration)
    (hclosure : pre → closure.cells ⊆ cells) :
    Confined cells pre (change fun store => store.addClass name declarations closure)
      fun cls => cls.cells ⊆ cells :=
  confined_change
    (fun store cell => ((store.sameCells_addClass name declarations closure).has_iff cell).mpr)
    fun hpre store hclosed _ =>
      ⟨Store.within_of_contents hclosed (store.sameCells_addClass name declarations closure).contents,
        store.cells_addClass name declarations (hclosure hpre)⟩

/-- The statements after one that returns are not executed, so each part is confined or the last. -/
theorem confined_sequence {exec : Stmt → Eval Flow}
    (hexec : ∀ statement, Confined cells pre (exec statement) fun flow => flow.cells ⊆ cells)
    (statements : List Stmt) :
    Confined cells pre (sequence exec statements) fun flow => flow.cells ⊆ cells := by
  induction statements with
  | nil => exact confined_pure fun _ => Set.empty_subset _
  | cons statement rest ih =>
      refine confined_bind (hexec statement) fun flow => ?_
      cases flow with
      | next => exact ih.mono And.left fun _ => id
      | returned value => exact confined_pure And.right

end Eval

/-! ### Calls and objects -/

section Calls

variable {cells : Set Cell} {pre : Prop} {exec : Stmt → Eval Flow}
  (hexec : ∀ pre statement, Eval.Confined cells pre (exec statement) fun flow => flow.cells ⊆ cells)

open Eval

theorem Function.confined_bind {method : Function} {object : Instance}
    (h : pre → method.cells ⊆ cells ∧ object.cells ⊆ cells) :
    Confined cells pre (method.bind object) fun function => function.cells ⊆ cells := by
  have hsplit : method.bind object = (do
      let scope ← change fun store => store.addScope (({} : Bindings Value).set "this" (.instance object))
      change fun store => store.addFunction method.declaration (method.closure.push scope)) := by
    funext machine
    rfl
  rw [hsplit]
  refine Eval.confined_bind (confined_addScope fun hpre name value hvalue => ?_) fun scope => ?_
  · rw [Bindings.get?_set] at hvalue
    split at hvalue
    · cases hvalue
      exact (h hpre).2
    · cases hvalue
  · refine confined_addFunction _ fun hpre => ?_
    exact Environment.cells_push_subset_iff.mpr ⟨hpre.2, (h hpre.1).1⟩

theorem Instance.confined_get {object : Instance} (name : Token)
    (hobject : pre → object.cells ⊆ cells) :
    Confined cells pre (object.get name) fun value => value.cells ⊆ cells := by
  unfold Instance.get
  have hread : Confined cells pre
      (read fun store => (store.fields object.id).get? name.lexeme)
      fun value? => ∀ value ∈ value?, value.cells ⊆ cells :=
    confined_read fun hpre _ hclosed value hvalue =>
      hclosed _ (Instance.cells_subset_iff.mp (hobject hpre)).1 name.lexeme value hvalue
  refine Eval.confined_bind hread fun value? => ?_
  cases value? with
  | some value => exact confined_pure fun h => h.2 value rfl
  | none =>
      simp only
      cases hmethod : object.cls.method? name.lexeme with
      | none => exact confined_fail _
      | some method =>
          refine Eval.confined_bind (Function.confined_bind fun h => ⟨?_, hobject h.1⟩) fun function => ?_
          · have hcls := (Instance.cells_subset_iff.mp (hobject h.1)).2
            exact Class.cells_subset_iff.mp hcls _ method hmethod
          · exact confined_pure And.right

theorem Instance.confined_set {object : Instance} {value : Value} (name : Token)
    (h : pre → object.cells ⊆ cells ∧ value.cells ⊆ cells) :
    Confined cells pre (object.set name value) fun _ => True :=
  confined_change (fun store cell => (store.has_setField_iff object.id name.lexeme value cell).mpr)
    fun hpre _ hclosed _ => ⟨Store.within_setField hclosed
      (Instance.cells_subset_iff.mp (h hpre).1).1 (h hpre).2, trivial⟩

theorem Class.confined_instantiate {cls : Class} (hcls : pre → cls.cells ⊆ cells) :
    Confined cells pre cls.instantiate fun object => object.cells ⊆ cells := by
  have hobject : Confined cells pre (change Store.addObject) fun id => Cell.fields id ∈ cells :=
    confined_change (fun store cell hcell => (store.has_addObject_iff cell).mpr (Or.inl hcell))
      fun _ _ hclosed hnew => Store.within_addObject hclosed hnew
  refine Eval.confined_bind hobject fun id => ?_
  exact confined_pure fun h => Instance.cells_subset_iff.mpr ⟨h.2, hcls h.1⟩

include hexec

theorem Function.confined_call {function : Function} {arguments : List Value}
    (h : pre → function.cells ⊆ cells ∧ ∀ argument ∈ arguments, argument.cells ⊆ cells) :
    Confined cells pre (function.call exec arguments) fun value => value.cells ⊆ cells := by
  unfold Function.call
  refine Eval.confined_bind (confined_addScope fun hpre name value hvalue => ?_) fun scope => ?_
  · exact (h hpre).2 value (List.of_mem_zip (Bindings.get?_ofList hvalue)).2
  · have hbody := confined_sequence
      (hexec (pre ∧ Cell.scope scope ∈ cells)) function.declaration.body
    refine Eval.confined_bind (confined_within (fun hpre => ?_) hbody) fun flow => ?_
    · exact Environment.cells_push_subset_iff.mpr ⟨hpre.2, (h hpre.1).1⟩
    · cases flow with
      | next => exact confined_pure fun _ => Set.empty_subset _
      | returned value => exact confined_pure And.right

theorem Class.confined_call {cls : Class} {arguments : List Value}
    (h : pre → cls.cells ⊆ cells ∧ ∀ argument ∈ arguments, argument.cells ⊆ cells) :
    Confined cells pre (cls.call exec arguments) fun value => value.cells ⊆ cells := by
  unfold Class.call
  refine Eval.confined_bind (Class.confined_instantiate fun hpre => (h hpre).1) fun object => ?_
  cases hmethod : cls.method? Class.initializer with
  | none => exact confined_pure And.right
  | some method =>
      refine Eval.confined_bind (Function.confined_bind fun hpre => ⟨?_, hpre.2⟩) fun bound => ?_
      · exact Class.cells_subset_iff.mp (h hpre.1).1 _ method hmethod
      · refine Eval.confined_bind (Function.confined_call hexec fun hpre =>
          ⟨hpre.2, (h hpre.1.1).2⟩) fun _ => ?_
        exact confined_pure fun hpre => hpre.1.1.2

theorem Callable.confined_call {callable : Callable} {arguments : List Value}
    (h : pre → callable.cells ⊆ cells ∧ ∀ argument ∈ arguments, argument.cells ⊆ cells) :
    Confined cells pre (callable.call exec arguments) fun value => value.cells ⊆ cells := by
  cases callable with
  | function f => exact Function.confined_call hexec h
  | «class» c => exact Class.confined_call hexec h
  | native n =>
      cases n with
      | clock =>
          intro machine value? after hends
          cases hends
          refine ⟨⟨rfl, rfl, rfl, fun _ => id⟩, fun _ _ hclosed _ => ⟨.refl hclosed, ?_⟩⟩
          rintro _ ⟨⟩
          exact Set.empty_subset _

theorem Value.confined_call {callee : Value} (paren : Token) {arguments : List Value}
    (h : pre → callee.cells ⊆ cells ∧ ∀ argument ∈ arguments, argument.cells ⊆ cells) :
    Confined cells pre (callee.call exec paren arguments) fun value => value.cells ⊆ cells := by
  cases callee with
  | callable c =>
      intro machine value? after hends
      by_cases harity : arguments.length = c.arity
      · by_cases hdepth : machine.depth < maxCallDepth
        · rw [Value.call_counted paren harity hdepth] at hends
          exact confined_counted (Callable.confined_call hexec h) machine value? after hends
        · rw [Value.call_of_overflow paren harity hdepth] at hends
          exact confined_fail (.stackOverflow paren) machine value? after hends
      · rw [Value.call_of_arity paren harity] at hends
        exact confined_fail (.arity paren _ _) machine value? after hends
  | _ => exact confined_fail _

end Calls

end Script
