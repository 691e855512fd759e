import Script.Proofs.Alike.Tokens
import Script.Proofs.Desugaring.Complete

/-!
# Views that lose scopes

While two computations run side by side, the first one may open scopes that the second one does without. So the
view of the one state in the other changes in the course of time, but never of the scopes that were there at
first: what was in use or in hand then is seen as itself to the end.
-/

namespace Script

variable {α β : Type}

theorem Matching.faithful_same : Matching.same.Faithful where
  refl _ _ := rfl
  kind h := congrArg Token.kind (Eq.symm h)
  lexeme h := congrArg Token.lexeme (Eq.symm h)

theorem RuntimeError.eq_of_like {error error' : RuntimeError} (h : RuntimeError.Like .same error error') :
    error = error' := by
  cases h with
  | output => rfl
  | _ h =>
      obtain rfl := show _ = _ from h
      rfl

/-! ### Views that agree -/

/-- Both views see the same of tokens and of the first scopes. -/
structure View.Agree (count : Nat) (view view' : View) : Prop where
  tokens : view'.tokens = view.tokens
  scopes : ∀ id, id < count → view'.scopes id = view.scopes id

section Agree

variable {count : Nat} {view view' : View} (hagree : view.Agree count view')

theorem Bindings.Like.imp_of_get? {V U : α → α → Prop} {bindings bindings' : Bindings α}
    (h : Like V bindings bindings') (hdistinct : bindings.Distinct)
    (himp : ∀ name value value', bindings.get? name = some value → V value value' → U value value') :
    Like U bindings bindings' := by
  have hmem : ∀ entry ∈ bindings.entries, entry ∈ bindings.entries := fun _ => id
  refine ((List.forall₂_and_left _ _).mpr ⟨hmem, h⟩).imp ?_
  rintro ⟨name, value⟩ ⟨name', value'⟩ ⟨hentry, hname, hvalue⟩
  exact ⟨hname, himp name value value' (hdistinct.get?_of_mem hentry) hvalue⟩

include hagree

theorem Environment.Seen.of_agree {environment environment' : Environment} (h : environment.Seen view environment')
    (hmade : environment.Made count) : environment.Seen view' environment' :=
  Eq.trans h (List.filterMap_congr fun id hid => (hagree.scopes id (hmade id hid)).symm)

theorem Function.Seen.of_agree {f f' : Function} (h : f.Seen view f') (hmade : f.Made count) : f.Seen view' f' :=
  ⟨h.id, hagree.tokens ▸ h.declaration, h.closure.of_agree hagree hmade⟩

theorem Class.Seen.of_agree {c c' : Class} (h : c.Seen view c') (hmade : c.Made count) : c.Seen view' c' :=
  ⟨h.id, h.name, h.methods.imp_of_get? hmade.distinct fun name _ _ hmethod hseen =>
    hseen.of_agree hagree (hmade.methods name _ hmethod)⟩

theorem Value.Seen.of_agree {value value' : Value} (h : value.Seen view value')
    (hmade : scopeDiscipline.value count value) : value.Seen view' value' := by
  cases h with
  | nil => exact .nil
  | bool value => exact .bool value
  | number value => exact .number value
  | string text => exact .string text
  | callable h =>
      cases h with
      | function h => exact .callable (.function (h.of_agree hagree hmade))
      | «class» h => exact .callable (.class (h.of_agree hagree hmade))
      | native n => exact .callable (.native n)
  | «instance» id h => exact .instance id (h.of_agree hagree hmade)

end Agree

/-! ### A scope that is not seen -/

/-- The view with a scope in between that is not seen. -/
def View.hide (view : View) (hidden : ScopeId) : View where
  tokens := view.tokens
  scopes id := if id < hidden then view.scopes id else if id = hidden then none else view.scopes (id - 1)

namespace View

variable {view : View} {hidden : ScopeId}

theorem scopes_hide_self : (view.hide hidden).scopes hidden = none := by
  simp [hide]

theorem scopes_hide_of_lt {id : ScopeId} (h : id < hidden) : (view.hide hidden).scopes id = view.scopes id :=
  if_pos h

theorem scopes_hide_succ {id : ScopeId} (h : hidden ≤ id) : (view.hide hidden).scopes (id + 1) = view.scopes id := by
  have hlater : hidden < id + 1 := Nat.lt_succ_of_le h
  simp [hide, Nat.not_lt_of_lt hlater, Nat.ne_of_gt hlater]

theorem agree_hide : view.Agree hidden (view.hide hidden) :=
  ⟨rfl, fun _ => scopes_hide_of_lt⟩

/-- A scope that is still seen was seen before, maybe under the number before. -/
theorem exists_of_scopes_hide {id scope : ScopeId} (h : (view.hide hidden).scopes id = some scope) :
    (id < hidden ∧ view.scopes id = some scope) ∨
      ∃ prior, hidden ≤ prior ∧ id = prior + 1 ∧ view.scopes prior = some scope := by
  rcases Nat.lt_trichotomy id hidden with hlt | rfl | hgt
  · exact .inl ⟨hlt, (scopes_hide_of_lt hlt).symm.trans h⟩
  · cases scopes_hide_self.symm.trans h
  · obtain ⟨prior, rfl⟩ := Nat.exists_eq_add_one_of_ne_zero (Nat.ne_zero_of_lt hgt)
    have hle := Nat.le_of_lt_succ hgt
    exact .inr ⟨prior, hle, rfl, (scopes_hide_succ hle).symm.trans h⟩

theorem Faithful.hide (h : view.Faithful) : (view.hide hidden).Faithful where
  tokens := h.tokens
  injective {id id' scope} hid hid' := by
    rcases exists_of_scopes_hide hid with ⟨hlt, hseen⟩ | ⟨prior, hle, rfl, hseen⟩ <;>
      rcases exists_of_scopes_hide hid' with ⟨hlt', hseen'⟩ | ⟨prior', hle', rfl, hseen'⟩ <;>
        obtain rfl := h.injective hseen hseen'
    · rfl
    · exact absurd hlt (Nat.not_lt.mpr hle')
    · exact absurd hlt' (Nat.not_lt.mpr hle)
    · rfl

end View

section Hide

variable {view : View} {environment environment' : Environment} {machine machine' : Machine}

/-- A scope that the second state does without holds nothing when it is made. -/
theorem Store.Seen.hide {store store' : Store} (h : store.Seen view store')
    (hstored : ∀ value, store.Stores value → scopeDiscipline.value store.scopes.size value)
    (hdistinct : ∀ cell, (store.contents cell).Distinct) :
    (store.addScope {}).2.Seen (view.hide store.scopes.size) store' := by
  have hcontents (cell : Cell) {contents : Bindings Value}
      (hcontents : Bindings.Like (Value.Seen view) (store.contents cell) contents) :
      Bindings.Like (Value.Seen (view.hide store.scopes.size)) (store.contents cell) contents :=
    hcontents.imp_of_get? (hdistinct cell) fun name _ _ hvalue hseen =>
      hseen.of_agree View.agree_hide (hstored _ ⟨cell, name, hvalue⟩)
  -- beyond its end, the first store has nothing in any scope
  have hbeyond (id : ScopeId) (hle : store.scopes.size ≤ id) : store.scope id = {} :=
    @Store.contents_of_not_has store (.scope id) (Nat.not_lt.mpr hle)
  refine
    { h with
      fresh := fun more => ?_
      scope := fun id id' hid => ?_
      hollow := fun id hid => ?_
      fields := fun id => hcontents (.fields id) (h.fields id) }
  · have hsize : (store.addScope {}).2.scopes.size = store.scopes.size + 1 := Array.size_push _
    rw [hsize, Nat.add_right_comm, View.scopes_hide_succ (Nat.le_add_right _ _)]
    exact h.fresh more
  · rw [Store.scope_addScope]
    rcases View.exists_of_scopes_hide hid with ⟨hlt, hseen⟩ | ⟨prior, hle, rfl, hseen⟩
    · rw [if_neg (Nat.ne_of_lt hlt)]
      exact hcontents (.scope id) (h.scope id id' hseen)
    · have hlike := h.scope prior id' hseen
      rw [hbeyond prior hle] at hlike
      rw [if_neg (Nat.ne_of_gt (Nat.lt_succ_of_le hle)), hbeyond _ (Nat.le_succ_of_le hle),
        show store'.scope id' = {} from congrArg Bindings.mk (List.forall₂_nil_left_iff.mp hlike)]
      exact .nil
  · rw [Store.scope_addScope]
    split
    · rfl
    · next hne =>
        rcases Nat.lt_or_gt_of_ne hne with hlt | hgt
        · exact h.hollow id ((View.scopes_hide_of_lt hlt).symm.trans hid)
        · exact hbeyond id (Nat.le_of_lt hgt)

theorem Machine.Seen.hide (h : machine.Seen view environment environment' machine') (hcomplete : machine.Complete) :
    machine.enterBlock.Seen (view.hide machine.store.scopes.size) (environment.push machine.store.scopes.size)
      environment' machine' where
  here := by
    rw [← h.here]
    rfl
  there := h.there
  globals := h.globals
  depth := h.depth
  store := h.store.hide hcomplete.good.stored hcomplete.good.state.distinct
  sink := h.sink
  time := h.time

theorem Environment.Seen.hide {count : Nat} (h : environment.Seen view environment')
    (hmade : environment.Made count) : (environment.push count).Seen (view.hide count) environment' := by
  unfold Environment.Seen
  rw [Environment.chain_push, List.filterMap_cons, View.scopes_hide_self]
  exact h.of_agree View.agree_hide hmade

end Hide

end Script
