import Script.Proofs.Discipline.Evaluation

/-!
# A stock of functions

A stock says which functions there are to call, and which methods to bind. Where the store holds no others, no operation
gives or leaves others, as the binding of a method adds nothing that is not of the stock.
-/

namespace Script

variable {α β : Type}

/-- Functions to call, and methods to bind. -/
structure Stock where
  function : Function → Prop
  method : Function → Prop
  bound {f : Function} (object : Instance) (store : Store) : method f → function (store.bind f object).1

namespace Stock

variable (s : Stock)

/-- The functions and methods of the value are of the stock. -/
def value : Value → Prop
  | .callable (.function f) => s.function f
  | .callable (.class c) => c.All s.method
  | .instance object => object.cls.All s.method
  | _ => True

/-- All values in the store are of the stock. -/
def Has (machine : Machine) : Prop :=
  ∀ value, machine.store.Stores value → s.value value

def flow : Flow → Prop
  | .next => True
  | .returned value => s.value value

/-- However it ends, what it leaves in the store is of the stock. -/
def Leaves (outcome : Outcome RuntimeError α) (post : α → Prop) : Prop :=
  ∀ value? after, outcome.Ends value? after → s.Has after ∧ ∀ value ∈ value?, post value

variable {s} {machine middle : Machine} {post : α → Prop}

theorem value_of_isPlain {value : Value} (h : value.isPlain = true) : s.value value := by
  cases value with
  | callable | «instance» => cases h
  | _ => trivial

/-- All values that come into the store are of the stock. -/
theorem Has.of_stored (h : s.Has machine) {after : Machine}
    (hstored : ∀ value, after.store.Stores value → machine.store.Stores value ∨ s.value value) : s.Has after :=
  fun value hvalue => (hstored value hvalue).elim (h value) id

/-! ### Computations in general -/

theorem leaves_done {value : α} (h : s.Has machine) (hvalue : post value) : s.Leaves (.done value machine) post := by
  intro value? after hends
  cases hends
  refine ⟨h, ?_⟩
  rintro _ ⟨⟩
  exact hvalue

theorem leaves_failed {error : RuntimeError} (h : s.Has machine) : s.Leaves (.failed error machine) post := by
  intro value? after hends
  cases hends
  exact ⟨h, fun _ hmem => nomatch hmem⟩

theorem leaves_exhausted : s.Leaves .exhausted post := by
  intro value? after hends
  cases hends

theorem Leaves.of_done {outcome : Outcome RuntimeError α} (h : s.Leaves outcome post) {value : α}
    (hrun : outcome = .done value middle) : s.Has middle ∧ post value := by
  obtain ⟨hmiddle, hvalue⟩ := h (some value) middle (.of_done hrun)
  exact ⟨hmiddle, hvalue value rfl⟩

theorem leaves_bind {first : Eval α} {next : α → Eval β} {last : β → Prop}
    (hfirst : s.Leaves (first machine) post)
    (hnext : ∀ value middle, first machine = .done value middle → s.Has middle → post value →
      s.Leaves (next value middle) last) : s.Leaves ((first >>= next) machine) last := by
  rw [Eval.bind_apply]
  cases hrun : first machine with
  | done value middle =>
      obtain ⟨hmiddle, hvalue⟩ := hfirst.of_done hrun
      exact hnext value middle hrun hmiddle hvalue
  | failed error middle => exact leaves_failed (hfirst none middle (hrun ▸ .failed error middle)).1
  | exhausted => exact leaves_exhausted

/-- Entering and leaving changes nothing in the store. -/
theorem Leaves.mapMachine {outcome : Outcome RuntimeError α} (h : s.Leaves outcome post) {change : Machine → Machine}
    (hchange : ∀ machine, (change machine).store = machine.store) : s.Leaves (outcome.mapMachine change) post := by
  intro value? after hends
  obtain ⟨last, hlast, rfl⟩ := Outcome.ends_mapMachine_iff.mp hends
  obtain ⟨hhas, hvalue⟩ := h value? last hlast
  refine ⟨fun value hstored => hhas value ?_, hvalue⟩
  rwa [hchange] at hstored

/-! ### Operations -/

section Operations

variable (h : s.Has machine)

include h

theorem Has.lookup (name : Token) : s.Leaves (Eval.lookup name machine) s.value := by
  rw [Eval.lookup_apply]
  cases hfound : machine.store.lookup? machine.environment name.lexeme with
  | some value => exact leaves_done h (h value (Store.stores_of_lookup? hfound))
  | none => exact leaves_failed h

theorem Has.define (name : String) {value : Value} (hvalue : s.value value) :
    s.Leaves (Eval.define name value machine) fun _ => True := by
  refine leaves_done (h.of_stored fun stored hstored => ?_) trivial
  rcases Store.stores_of_define hstored with hbefore | rfl
  · exact .inl hbefore
  · exact .inr hvalue

theorem Has.assign (name : Token) {value : Value} (hvalue : s.value value) :
    s.Leaves (Eval.assign name value machine) fun _ => True := by
  rw [Eval.assign_apply]
  unfold Store.assign?
  cases machine.store.resolve? machine.environment name.lexeme with
  | none => exact leaves_failed h
  | some scope =>
      refine leaves_done (h.of_stored fun stored hstored => ?_) trivial
      rcases Store.stores_of_define hstored with hbefore | rfl
      · exact .inl hbefore
      · exact .inr hvalue

theorem Has.ofOperator (operator : Token) {result : Except OperandFault Value}
    (hresult : ∀ value, result = .ok value → value.isPlain = true) :
    s.Leaves (Eval.ofOperator operator result machine) s.value := by
  cases result with
  | error fault => exact leaves_failed h
  | ok value => exact leaves_done h (value_of_isPlain (hresult value rfl))

theorem Has.print (value : Value) : s.Leaves (Eval.print value machine) fun _ => True := by
  unfold Eval.print
  cases hwrite : machine.sink.write (value.text ++ "\n") with
  | mk result sink =>
      simp only [hwrite]
      cases result with
      | ok => exact leaves_done h trivial
      | error => exact leaves_failed h

theorem Has.flush : s.Leaves (Eval.flush machine) fun _ => True := by
  unfold Eval.flush
  cases machine.sink.flush with
  | ok => exact leaves_done h trivial
  | error => exact leaves_failed h

theorem Has.instantiate {c : Class} (hcls : c.All s.method) :
    s.Leaves (c.instantiate machine) fun object => object.cls.All s.method :=
  leaves_done (h.of_stored fun _ hstored => .inl (Store.stores_of_addObject hstored)) hcls

theorem Has.bind {f : Function} {object : Instance} (hf : s.method f) (hobject : object.cls.All s.method) :
    s.Leaves (f.bind object machine) s.function := by
  refine leaves_done (h.of_stored fun stored hstored => ?_) (s.bound object machine.store hf)
  -- binding makes a scope with the object in it, and then takes a number
  refine (Store.stores_of_addScope hstored).imp_right fun ⟨name, hfound⟩ => ?_
  rw [Bindings.get?_set] at hfound
  split at hfound
  · cases hfound
    exact hobject
  · cases hfound

theorem Has.get {object : Instance} (name : Token) (hobject : object.cls.All s.method) :
    s.Leaves (object.get name machine) s.value := by
  unfold Instance.get
  simp only [Eval.bind_apply, Eval.read]
  cases hfield : (machine.store.fields object.id).get? name.lexeme with
  | some value => exact leaves_done h (h value ⟨.fields object.id, name.lexeme, hfield⟩)
  | none =>
      cases hmethod : object.cls.method? name.lexeme with
      | none => exact leaves_failed h
      | some method =>
          exact leaves_bind (h.bind (hobject _ method hmethod) hobject) fun f middle _ hmiddle hf =>
            leaves_done hmiddle hf

theorem Has.set (object : Instance) (name : Token) {value : Value} (hvalue : s.value value) :
    s.Leaves (object.set name value machine) fun _ => True := by
  refine leaves_done (h.of_stored fun stored hstored => ?_) trivial
  rcases Store.stores_of_setField hstored with hbefore | rfl
  · exact .inl hbefore
  · exact .inr hvalue

theorem Has.enterBlock : s.Has machine.enterBlock := by
  refine h.of_stored fun stored hstored => ?_
  refine (Store.stores_of_addScope hstored).imp_right fun ⟨name, hfound⟩ => ?_
  cases hfound

theorem Has.enterBody (f : Function) {arguments : List Value} (harguments : ∀ value ∈ arguments, s.value value) :
    s.Has (machine.enterBody f arguments) := by
  refine h.of_stored fun stored hstored => ?_
  refine (Store.stores_of_addScope hstored).imp_right fun ⟨name, hfound⟩ => ?_
  exact harguments _ (List.of_mem_zip (Bindings.get?_ofList hfound)).2

end Operations

end Stock

end Script
