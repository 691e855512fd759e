import Mathlib.Logic.Relation
import Script.Proofs.Discipline.Moments

/-!
# Scopes that hold `this`

A run changes the store step by step. Of these steps only the binding of a method makes a scope that holds
`this`, and no step puts anything into such a scope, so it holds the object of the binding for ever.
-/

namespace Script

/-- The contents of the scope that a binding makes. -/
def Bindings.receiver (object : Instance) : Bindings Value :=
  ({} : Bindings Value).set "this" (.instance object)

theorem Bindings.get?_receiver (object : Instance) (name : String) :
    (receiver object).get? name = if name = "this" then some (.instance object) else none :=
  get?_set _ _ _ _

theorem Bindings.get?_ofList_of_forall_ne {α : Type} {entries : List (String × α)} {name : String}
    (h : ∀ entry ∈ entries, entry.1 ≠ name) : (ofList entries).get? name = none := by
  cases hfound : (ofList entries).get? name with
  | none => rfl
  | some value => exact absurd rfl (h _ (get?_ofList hfound))

namespace Store

variable {store after : Store} {scope : ScopeId}

/-- A scope that there is, and that does not hold `this`. -/
structure Plain (store : Store) (scope : ScopeId) : Prop where
  lt_size : scope < store.scopes.size
  free : (store.scope scope).get? "this" = none

/-- What a run does to the store. -/
inductive Step (store : Store) : Store → Prop where
  | scope {contents : Bindings Value} (hfree : contents.get? "this" = none) :
      Step store (store.addScope contents).2
  | bind (method : Function) (object : Instance) : Step store (store.bind method object).2
  | define {scope : ScopeId} {name : String} (value : Value) (hname : name ≠ "this")
      (hfree : (store.scope scope).get? "this" = none) : Step store (store.define scope name value)
  | numbers (functions classes : Nat) : Step store { store with functions, classes }
  | object : Step store store.addObject.2
  | field (id : Nat) (name : String) (value : Value) : Step store (store.setField id name value)

theorem scope_bind (store : Store) (method : Function) (object : Instance) (scope : ScopeId) :
    (store.bind method object).2.scope scope =
      if scope = store.scopes.size then .receiver object else store.scope scope :=
  scope_addScope store _ scope

theorem scope_eq_empty (h : ¬ scope < store.scopes.size) : store.scope scope = {} := by
  rw [Store.scope, Array.getD_eq_getD_getElem?, Array.getElem?_eq_none (Nat.le_of_not_lt h)]
  rfl

theorem lt_size_of_get? {name : String} {value : Value} (h : (store.scope scope).get? name = some value) :
    scope < store.scopes.size := by
  by_contra hlt
  rw [scope_eq_empty hlt] at h
  cases h

theorem Step.size_le (h : Step store after) : store.scopes.size ≤ after.scopes.size := by
  cases h with
  | scope | bind =>
      change _ ≤ (store.scopes.push _).size
      rw [Array.size_push]
      exact Nat.le_succ _
  | define => exact Nat.le_of_eq Array.size_modify.symm
  | numbers | object | field => exact Nat.le_refl _

/-- A step changes at most what a scope without `this` holds, and does not put it there. -/
theorem Step.scope_eq (h : Step store after) (hscope : scope < store.scopes.size) :
    after.scope scope = store.scope scope ∨
      (after.scope scope).get? "this" = none ∧ (store.scope scope).get? "this" = none := by
  have hold : scope ≠ store.scopes.size := Nat.ne_of_lt hscope
  cases h with
  | scope hfree => exact .inl ((scope_addScope _ _ _).trans (if_neg hold))
  | bind method object => exact .inl ((scope_bind _ _ _ _).trans (if_neg hold))
  | define value hname hfree =>
      rw [scope_define]
      split
      · next heq =>
          rw [heq.1, Bindings.get?_set, if_neg hname.symm]
          exact .inr ⟨hfree, hfree⟩
      · exact .inl rfl
  | numbers | object | field => exact .inl rfl

/-- A new scope that holds `this` is that of a binding. -/
theorem Step.exists_bind (h : Step store after) (hnew : ¬ scope < store.scopes.size) {value : Value}
    (hthis : (after.scope scope).get? "this" = some value) :
    ∃ method object, after = (store.bind method object).2 ∧ scope = store.scopes.size := by
  have hempty : (store.scope scope).get? "this" ≠ some value := by
    rw [scope_eq_empty hnew]
    exact fun h => nomatch h
  cases h with
  | bind method object =>
      rw [scope_bind] at hthis
      split at hthis
      · next heq => exact ⟨method, object, rfl, heq⟩
      · exact absurd hthis hempty
  | scope hfree =>
      rw [scope_addScope] at hthis
      split at hthis
      · rw [hfree] at hthis
        cases hthis
      · exact absurd hthis hempty
  | define value hname =>
      rw [scope_define] at hthis
      split at hthis
      · next heq => exact absurd (heq.1 ▸ heq.2) hnew
      · exact absurd hthis hempty
  | numbers | object | field => exact absurd hthis hempty

/-- Stores in the order in which a run goes through them. -/
instance : Preorder Store where
  le := Relation.ReflTransGen Step
  le_refl _ := .refl
  le_trans _ _ _ := .trans

theorem Step.le (h : Step store after) : store ≤ after :=
  .single h

theorem size_le_of_le (h : store ≤ after) : store.scopes.size ≤ after.scopes.size := by
  induction h with
  | refl => exact Nat.le_refl _
  | tail _ hstep ih => exact Nat.le_trans ih hstep.size_le

theorem scope_eq_of_le (h : store ≤ after) (hscope : scope < store.scopes.size) :
    after.scope scope = store.scope scope ∨
      (after.scope scope).get? "this" = none ∧ (store.scope scope).get? "this" = none := by
  induction h with
  | refl => exact .inl rfl
  | tail hbefore hstep ih =>
      have hthere := Nat.lt_of_lt_of_le hscope (size_le_of_le hbefore)
      rcases hstep.scope_eq hthere with hsame | ⟨hlast, hmiddle⟩
      · rwa [hsame]
      · rcases ih with hsame | ⟨-, hfirst⟩
        · exact .inr ⟨hlast, hsame ▸ hmiddle⟩
        · exact .inr ⟨hlast, hfirst⟩

/-- A scope that holds `this` stays as it is. -/
theorem scope_eq_of_this (h : store ≤ after) {value : Value}
    (hthis : (store.scope scope).get? "this" = some value) : after.scope scope = store.scope scope := by
  rcases scope_eq_of_le h (lt_size_of_get? hthis) with hsame | ⟨-, hfree⟩
  · exact hsame
  · rw [hfree] at hthis
    cases hthis

theorem Plain.mono (hplain : store.Plain scope) (h : store ≤ after) : after.Plain scope := by
  refine ⟨Nat.lt_of_lt_of_le hplain.lt_size (size_le_of_le h), ?_⟩
  rcases scope_eq_of_le h hplain.lt_size with hsame | ⟨hfree, -⟩
  · rw [hsame]
    exact hplain.free
  · exact hfree

/-- The store of a machine that has just started. -/
def initial : Store :=
  (Machine.start {} 0).store

/-- The binding of the method to the object gave the function, at some time before. -/
def Bound (store : Store) (method : Function) (object : Instance) (bound : Function) : Prop :=
  ∃ before, initial ≤ before ∧ (before.bind method object).1 = bound ∧ (before.bind method object).2 ≤ store

theorem Bound.mono {method bound : Function} {object : Instance} (hbound : store.Bound method object bound)
    (h : store ≤ after) : after.Bound method object bound := by
  obtain ⟨before, hstart, hfunction, hle⟩ := hbound
  exact ⟨before, hstart, hfunction, le_trans hle h⟩

/-- The scope around the body of a bound method still holds the object that it was bound to. -/
theorem Bound.scope_eq {method bound : Function} {object : Instance}
    (h : store.Bound method object bound) :
    bound.declaration = method.declaration ∧
      bound.closure.chain = bound.closure.innermost :: method.closure.chain ∧
      store.scope bound.closure.innermost = .receiver object := by
  obtain ⟨before, -, rfl, hle⟩ := h
  refine ⟨rfl, rfl, ?_⟩
  have hmade : (before.bind method object).2.scope before.scopes.size = .receiver object := by
    rw [scope_bind, if_pos rfl]
  have hthis : ((before.bind method object).2.scope before.scopes.size).get? "this" =
      some (.instance object) := by
    rw [hmade]
    rfl
  exact (scope_eq_of_this hle hthis).trans hmade

/-- Every scope that holds `this` was made by a binding. -/
theorem exists_bound (h : initial ≤ store) {value : Value}
    (hthis : (store.scope scope).get? "this" = some value) :
    ∃ method object bound, store.Bound method object bound ∧ bound.closure.innermost = scope := by
  induction h with
  | refl =>
      exfalso
      rw [initial, Machine.start, scope_addScope] at hthis
      split at hthis <;> cases hthis
  | @tail middle store hbefore hstep ih =>
      by_cases hold : scope < middle.scopes.size
      · have hsame : store.scope scope = middle.scope scope := by
          rcases hstep.scope_eq hold with hsame | ⟨hfree, -⟩
          · exact hsame
          · rw [hfree] at hthis
            cases hthis
        obtain ⟨method, object, bound, hbound, hscope⟩ := ih (hsame ▸ hthis)
        exact ⟨method, object, bound, hbound.mono hstep.le, hscope⟩
      · obtain ⟨method, object, rfl, rfl⟩ := hstep.exists_bind hold hthis
        exact ⟨method, object, _, ⟨middle, hbefore, rfl, le_refl _⟩, rfl⟩

end Store

end Script
