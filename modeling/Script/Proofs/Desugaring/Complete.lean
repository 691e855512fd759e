import Script.Proofs.Discipline.Moments
import Script.Proofs.Tables

/-!
# States with all their scopes

Whatever a state leads to is there: an environment, be it the current one or that of a function, consists of
scopes that have been made. Besides, no scope, object or class has a name twice. So it is in every state of a
session, and runs keep it so.
-/

namespace Script

variable {α : Type}

/-! ### Scopes that have been made -/

/-- All scopes of the environment are among the first ones. -/
def Environment.Made (count : Nat) (environment : Environment) : Prop :=
  ∀ scope ∈ environment.chain, scope < count

def Function.Made (count : Nat) (f : Function) : Prop :=
  f.closure.Made count

structure Class.Made (count : Nat) (c : Class) : Prop where
  distinct : c.methods.Distinct
  methods : c.All (Function.Made count)

theorem Environment.Made.mono {count more : Nat} {environment : Environment} (h : environment.Made count)
    (hle : count ≤ more) : environment.Made more :=
  fun scope hscope => Nat.lt_of_lt_of_le (h scope hscope) hle

theorem Environment.Made.push {count : Nat} {environment : Environment} (h : environment.Made count) :
    (environment.push count).Made (count + 1) := by
  intro scope hscope
  rcases List.mem_cons.mp hscope with rfl | houter
  · exact Nat.lt_succ_self _
  · exact Nat.lt_succ_of_lt (h scope houter)

theorem Class.Made.mono {count more : Nat} {c : Class} (h : c.Made count) (hle : count ≤ more) : c.Made more :=
  ⟨h.distinct, h.methods.mono fun _ hmethod => hmethod.mono hle⟩

/-- So many scopes have been made, and none of them, nor any object, has a name twice. -/
structure Machine.Has (count : Nat) (machine : Machine) : Prop where
  size : machine.store.scopes.size = count
  distinct : ∀ cell, (machine.store.contents cell).Distinct

namespace Machine.Has

variable {count : Nat} {machine : Machine}

theorem addScope (h : machine.Has count) {contents : Bindings Value} (hcontents : contents.Distinct) :
    { machine with store := (machine.store.addScope contents).2 }.Has (count + 1) := by
  refine ⟨?_, fun cell => ?_⟩
  · rw [← h.size]
    exact Array.size_push _
  · cases cell with
    | fields id => exact h.distinct (.fields id)
    | scope id =>
        simp only [Store.contents, Store.scope_addScope]
        split
        · exact hcontents
        · exact h.distinct (.scope id)

theorem define (h : machine.Has count) (scope : ScopeId) (name : String) (value : Value) :
    { machine with store := machine.store.define scope name value }.Has count := by
  refine ⟨Array.size_modify.trans h.size, fun cell => ?_⟩
  cases cell with
  | fields id => exact h.distinct (.fields id)
  | scope id =>
      simp only [Store.contents, Store.scope_define]
      split
      · exact (h.distinct (.scope scope)).set name value
      · exact h.distinct (.scope id)

theorem addObject (h : machine.Has count) : { machine with store := machine.store.addObject.2 }.Has count := by
  refine ⟨h.size, fun cell => ?_⟩
  cases cell with
  | scope id => exact h.distinct (.scope id)
  | fields id =>
      simp only [Store.contents, Store.fields_addObject]
      exact h.distinct (.fields id)

theorem setField (h : machine.Has count) (id : Nat) (name : String) (value : Value) :
    { machine with store := machine.store.setField id name value }.Has count := by
  refine ⟨h.size, fun cell => ?_⟩
  cases cell with
  | scope id => exact h.distinct (.scope id)
  | fields other =>
      simp only [Store.contents, Store.fields_setField]
      split
      · exact (h.distinct (.fields id)).set name value
      · exact h.distinct (.fields other)

end Machine.Has

/-- The world is the number of scopes. -/
def scopeDiscipline : Discipline Nat where
  state := Machine.Has
  function := Function.Made
  method := Function.Made
  cls := Class.Made
  object count o := o.cls.Made count
  task count environment _ := environment.Made count
  function_mono hle h := Environment.Made.mono h hle
  method_mono hle h := Environment.Made.mono h hle
  cls_mono hle h := h.mono hle
  object_mono hle h := h.mono hle
  task_mono hle h := h.mono hle
  method_of_cls h := h.methods
  cls_of_object h := h
  elsewhere _ _ _ h := ⟨h.size, h.distinct⟩
  written _ h := ⟨h.size, h.distinct⟩
  part h _ := h
  block {count environment _ machine} htask hstate := by
    refine ⟨count + 1, Nat.le_succ count, hstate.addScope Bindings.distinct_empty, fun _ _ => ?_⟩
    rw [← hstate.size] at htask ⊢
    exact htask.push
  body {count f machine} arguments hfunction hstate := by
    refine ⟨count + 1, Nat.le_succ count, hstate.addScope (Bindings.distinct_ofList _), fun _ _ => ?_⟩
    unfold Function.Made at hfunction
    rw [← hstate.size] at hfunction ⊢
    exact hfunction.push
  declared {count _ _ _} htask hstate := ⟨count, le_refl count, ⟨hstate.size, hstate.distinct⟩, htask⟩
  declaredClass {count environment _ declarations machine} htask hstate := by
    refine ⟨count, le_refl count, ?_, ?_, fun name method hmethod => ?_⟩
    · rw [Store.addClass_eq]
      exact ⟨hstate.size, hstate.distinct⟩
    · rw [Store.addClass_eq]
      exact Bindings.distinct_ofList _
    · obtain ⟨_, _, rfl⟩ := Store.exists_of_method_addClass hmethod
      exact htask
  bound {count f o machine} hmethod _ hstate := by
    have hthis := hstate.addScope (Bindings.distinct_empty.set "this" (.instance o))
    refine ⟨count + 1, Nat.le_succ count, ⟨hthis.size, hthis.distinct⟩, ?_⟩
    unfold Function.Made at hmethod ⊢
    rw [← hstate.size] at hmethod ⊢
    exact hmethod.push
  made {count _ _} hcls hstate := ⟨count, le_refl count, hstate.addObject, hcls⟩
  defined value _ _ hstate := ⟨_, le_refl _, hstate.define _ _ value⟩
  assigned value _ _ hstate := ⟨_, le_refl _, hstate.define _ _ value⟩
  field id name value hstate := ⟨_, le_refl _, hstate.setField id name value⟩

/-- The scopes that the state leads to have been made, and no name is there twice. -/
structure Machine.Complete (machine : Machine) : Prop where
  environment : machine.environment.Made machine.store.scopes.size
  good : scopeDiscipline.Good machine.store.scopes.size machine

theorem Machine.Complete.of_good {count : Nat} {machine : Machine} (hgood : scopeDiscipline.Good count machine)
    (henvironment : machine.environment.Made count) : machine.Complete := by
  obtain rfl := hgood.state.size
  exact ⟨henvironment, hgood⟩

/-- What ends well, ends in a complete state, with scopes added if at all. -/
theorem Discipline.Keeps.complete {body : Eval α} {machine after : Machine} {post : Nat → α → Prop}
    (h : scopeDiscipline.Keeps machine.store.scopes.size machine.environment body post)
    (hmachine : machine.Complete) {value? : Option α} (hends : (body machine).Ends value? after) :
    after.Complete ∧ machine.store.scopes.size ≤ after.store.scopes.size := by
  obtain ⟨later, hle, hgood, hback, -⟩ := h machine value? after hmachine.good rfl hends
  obtain rfl := hgood.state.size
  exact ⟨⟨hback ▸ hmachine.environment.mono hle, hgood⟩, hle⟩

theorem Machine.le_size_enterBlock (machine : Machine) :
    machine.store.scopes.size ≤ machine.enterBlock.store.scopes.size :=
  Nat.le_of_lt (Nat.lt_of_lt_of_eq (Nat.lt_succ_self _) (Array.size_push _).symm)

theorem Machine.Complete.enterBlock {machine : Machine} (h : machine.Complete) : machine.enterBlock.Complete := by
  have htask : scopeDiscipline.task machine.store.scopes.size machine.environment (.exec (.block [])) :=
    h.environment
  obtain ⟨later, -, hgood, -⟩ := h.good.enterBlock htask
  refine .of_good hgood ?_
  rw [← hgood.state.size, Machine.enterBlock, Store.addScope, Array.size_push]
  exact h.environment.push

/-- In every state of a session, all scopes that it leads to have been made. -/
theorem Situation.complete {requests : List Request} {machine : Machine} {environments : List Environment}
    {values : List Value} (h : Situation requests machine environments values) : machine.Complete := by
  have htop : Discipline.top.Made 1 := by
    intro scope hscope
    rw [List.mem_singleton.mp hscope]
    exact Nat.zero_lt_one
  have hadmits : scopeDiscipline.Admits 1 requests := by
    refine ⟨fun sink time => ?_, fun _ _ _ _ => htop⟩
    have hempty : ({ Machine.start sink time with store := {} } : Machine).Has 0 :=
      ⟨rfl, fun cell => by cases cell <;> exact Bindings.distinct_empty⟩
    exact hempty.addScope (Bindings.distinct_empty.set _ _)
  obtain ⟨later, hle, hgood, hcurrent, hinUse, -⟩ := hadmits.situation h
  refine .of_good hgood ?_
  rcases hinUse _ (List.mem_of_mem_head? hcurrent) with hglobals | ⟨task, htask⟩
  · rw [hglobals]
    exact htop.mono hle
  · exact htask

end Script
