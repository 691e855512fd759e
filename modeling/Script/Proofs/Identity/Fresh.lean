import Script.Proofs.Identity.Numbers
import Script.Proofs.Identity.Registry

/-!
# New objects and new functions

The call of a class makes an object, and reading a method makes a function, that no value of any state before
is equal to. Objects are compared by number, and those of one number have one class.
-/

namespace Script

/-- The value is in hand or in the store. -/
def Machine.Holds (machine : Machine) (hand : List Value) (value : Value) : Prop :=
  value ∈ hand ∨ machine.store.Stores value

/-- The value was held in a state of a session that comes no later than this one. -/
def Machine.HeldSoFar (machine : Machine) (value : Value) : Prop :=
  ∃ requests before inUse hand, Situation requests before inUse hand ∧ Precedes before machine ∧
    before.Holds hand value

/-- The functions of a value: itself, or the methods of its class. -/
def Value.functions : Value → Set Function
  | .callable (.function f) => {f}
  | .callable (.class c) => { f | ∃ name, c.methods.get? name = some f }
  | .instance object => { f | ∃ name, object.cls.methods.get? name = some f }
  | _ => ∅

theorem Situation.heldSoFar {requests : List Request} {machine : Machine} {inUse : List Environment}
    {hand : List Value} (h : Situation requests machine inUse hand) {value : Value}
    (hvalue : machine.Holds hand value) : machine.HeldSoFar value :=
  ⟨requests, machine, inUse, hand, h, .refl, hvalue⟩

/-- In the state in which a call is made, its callee and arguments are held with all else that is in hand. -/
theorem InProgress.heldSoFar_of_call {requests : List Request} {results held values : List Value}
    {around : List Moment} {level : Nat} {machine called : Machine} {callee : Expr} {paren : Token}
    {arguments : List Expr}
    (h : InProgress requests results (⟨level + 1, .eval (.call callee paren arguments), machine, held⟩ :: around))
    (hvalues : Eval.values (eval level) (callee :: arguments) machine = .done values called) {value : Value}
    (hvalue : called.Holds (values ++ (held ++ around.flatMap Moment.held) ++ results) value) :
    called.HeldSoFar value := by
  obtain ⟨before, last, hsplit⟩ : ∃ before last, callee :: arguments = before ++ [last] :=
    ⟨_, _, (List.dropLast_concat_getLast (List.cons_ne_nil callee arguments)).symm⟩
  rw [hsplit] at hvalues
  obtain ⟨earlier, middle, final, hbefore, hlast, rfl⟩ := Eval.values_concat_eq_done_iff.mp hvalues
  have hparts : (Expr.call callee paren arguments).parts = before ++ last :: [] := hsplit
  have hstarts : Moment.Starts ⟨level + 1, .eval (.call callee paren arguments), machine, held⟩
      ⟨level, .eval last, middle, earlier⟩ :=
    .operand hparts hbefore rfl
  have hgives : (eval level last middle).Ends (some final) called := hlast ▸ .done final called
  have hends : Moment.Ends ⟨level, .eval last, middle, earlier⟩ [final] called :=
    .eval hgives
  refine (Situation.stop (h.deeper hstarts) hends).heldSoFar (hvalue.imp_left fun hmem => ?_)
  simp only [List.mem_append, List.mem_singleton, List.flatMap_cons] at hmem ⊢
  tauto

/-! ### Numbers of what is held -/

theorem Discipline.value_of_holds {W : Type} [Preorder W] {d : Discipline W} {world : W} {machine : Machine}
    {hand : List Value} {value : Value} (hgood : d.Good world machine)
    (hhand : ∀ value ∈ hand, d.value world value) (h : machine.Holds hand value) : d.value world value := by
  rcases h with hmem | hstored
  · exact hhand value hmem
  · exact hgood.stored value hstored

theorem Machine.HeldSoFar.numbered {machine : Machine} {value : Value} (h : machine.HeldSoFar value) :
    numberDiscipline.value (Numbers.ofStore machine.store) value := by
  obtain ⟨requests, before, inUse, hand, hsituation, hprecedes, hholds⟩ := h
  obtain ⟨numbers, -, hgood, -, -, hhand⟩ := (admits_numberDiscipline requests).situation hsituation
  have hle : numbers ≤ Numbers.ofStore machine.store := hgood.state ▸ hprecedes.numbers_le
  exact Discipline.value_mono hle (Discipline.value_of_holds hgood hhand hholds)

theorem Value.lt_functions {numbers : Numbers} {value : Value} (h : numberDiscipline.value numbers value)
    {f : Function} (hf : f ∈ value.functions) : f.id < numbers.functions := by
  cases value with
  | callable c =>
      cases c with
      | function g => exact (Set.mem_singleton_iff.mp hf) ▸ h
      | «class» c =>
          obtain ⟨name, hmethod⟩ := hf
          exact h.2 name f hmethod
      | native => exact hf.elim
  | «instance» object =>
      obtain ⟨name, hmethod⟩ := hf
      exact h.2.2 name f hmethod
  | _ => exact hf.elim

theorem Value.distinct_function {value : Value} {f : Function} (h : ∀ g ∈ value.functions, g.id ≠ f.id) :
    value.equal (.callable (.function f)) = false ∧ (Value.callable (.function f)).equal value = false := by
  cases value with
  | callable c =>
      cases c with
      | function g => exact ⟨beq_false_of_ne (h g rfl), beq_false_of_ne (h g rfl).symm⟩
      | _ => exact ⟨rfl, rfl⟩
  | _ => exact ⟨rfl, rfl⟩

theorem Value.distinct_instance {numbers : Numbers} {value : Value} (h : numberDiscipline.value numbers value)
    {object : Instance} (hnew : numbers.objects ≤ object.id) :
    value.equal (.instance object) = false ∧ (Value.instance object).equal value = false := by
  cases value with
  | «instance» other =>
      have hne : other.id ≠ object.id := Nat.ne_of_lt (Nat.lt_of_lt_of_le h.1 hnew)
      exact ⟨beq_false_of_ne hne, beq_false_of_ne hne.symm⟩
  | _ => exact ⟨rfl, rfl⟩

/-! ### Calls of classes -/

/-- The object that the next call of the class makes. -/
def Class.nextObject (c : Class) (store : Store) : Instance :=
  { cls := c, id := store.addObject.1 }

/-- A class makes its object first; then the initializer runs for it, if there is one. -/
theorem Class.call_apply (c : Class) (exec : Stmt → Eval Flow) (arguments : List Value) (machine : Machine) :
    let object := c.nextObject machine.store
    let made := { machine with store := machine.store.addObject.2 }
    c.call exec arguments machine =
      match c.method? initializer with
      | none => .done (.instance object) made
      | some method => (do
          let _ ← (made.store.bind method object).1.call exec arguments
          return Value.instance object) { made with store := (made.store.bind method object).2 } := by
  unfold Class.call
  rw [Eval.bind_apply]
  cases c.method? initializer <;> rfl

theorem Class.eq_of_call {c : Class} {exec : Stmt → Eval Flow} {arguments : List Value}
    {machine after : Machine} {value : Value} (h : c.call exec arguments machine = .done value after) :
    value = .instance (c.nextObject machine.store) := by
  rw [Class.call_apply] at h
  cases hmethod : c.method? initializer with
  | none =>
      rw [hmethod] at h
      cases h
      rfl
  | some method =>
      rw [hmethod] at h
      simp only [Eval.bind_apply] at h
      split at h
      · cases h
        rfl
      · cases h
      · cases h

/-- What the call of a class does in the state in which its arguments have these values, and what is new about
its object. -/
structure Constructs (level : Nat) (c : Class) (arguments : List Value) (called : Machine)
    (call : Outcome RuntimeError Value) (object : Instance) : Prop where
  cls : object.cls = c
  absent : ¬ called.store.Has (.fields object.id)
  distinct : ∀ earlier, called.HeldSoFar earlier →
    earlier.equal (.instance object) = false ∧ (Value.instance object).equal earlier = false
  gives : ∀ value after, call = .done value after → value = .instance object
  /-- What the initializer returns does not matter, and its errors are those of the call. -/
  initializes : ∀ f bound, arguments.length = c.arity → called.depth < maxCallDepth →
    (Callable.class c).Calls { called with depth := called.depth + 1 } f bound →
      call = ((do
        let _ ← f.call (exec level) arguments
        return Value.instance object) bound).mapMachine ({ · with depth := called.depth })

theorem constructs (level : Nat) (c : Class) (paren : Token) (arguments : List Value) (called : Machine) :
    Constructs level c arguments called
      ((Value.callable (.class c)).call (exec level) paren arguments called) (c.nextObject called.store) where
  cls := rfl
  absent := Nat.lt_irrefl _
  distinct earlier h := Value.distinct_instance h.numbered (Nat.le_refl _)
  gives value after h := by
    by_cases harity : arguments.length = (Callable.class c).arity
    · by_cases hdepth : called.depth < maxCallDepth
      · rw [Value.call_counted paren harity hdepth] at h
        have hends : ((c.call (exec level) arguments).counted called).Ends (some value) after :=
          h ▸ .done value after
        obtain ⟨last, hlast, -⟩ := Outcome.ends_mapMachine_iff.mp hends
        generalize hcall : c.call (exec level) arguments { called with depth := called.depth + 1 } = outcome
          at hlast
        cases hlast
        have hobject := Class.eq_of_call hcall
        exact hobject
      · simp [Value.call, harity, hdepth] at h
    · simp [Value.call, harity, Eval.fail] at h
  initializes f bound harity hdepth hcalls := by
    rw [Value.call_counted paren harity hdepth]
    cases hcalls with
    | «class» hobject hmethod hbound =>
        cases hobject
        cases hbound
        rw [Eval.counted, Callable.call, Class.call_apply, hmethod]
        rfl

/-! ### Reading methods -/

theorem Instance.get_method {object : Instance} {name : Token} {method : Function} {machine : Machine}
    (hfield : (machine.store.fields object.id).get? name.lexeme = none)
    (hmethod : object.cls.method? name.lexeme = some method) :
    object.get name machine =
      .done (.callable (.function (machine.store.bind method object).1))
        { machine with store := (machine.store.bind method object).2 } := by
  unfold Instance.get
  rw [Eval.bind_apply]
  simp only [Eval.read, hfield, hmethod]
  rfl

/-- Objects that are equal have the same class, in all states of a session. The call of a class gives a new
object of just that class, whatever its initializer does, unless that fails. Reading a method of an object gives
a new function. The new ones are equal to no value, and no method, of any state before. -/
theorem identities_areNew :
    (∀ requests machine inUse hand, Situation requests machine inUse hand →
      ∀ o o', machine.Holds hand (.instance o) → machine.Holds hand (.instance o') →
        (Value.instance o).equal (.instance o') = true → o.cls = o'.cls) ∧
    (∀ level machine callee paren arguments c values called,
      Eval.values (eval level) (callee :: arguments) machine = .done (.callable (.class c) :: values) called →
        (∃ object, Constructs level c values called
          (eval (level + 1) (.call callee paren arguments) machine) object) ∧
        ∀ requests results held around, InProgress requests results
            (⟨level + 1, .eval (.call callee paren arguments), machine, held⟩ :: around) →
          ∀ value, called.Holds
              (.callable (.class c) :: values ++ (held ++ around.flatMap Moment.held) ++ results) value →
            called.HeldSoFar value) ∧
    ∀ level machine expression name object middle method,
      eval level expression machine = .done (.instance object) middle →
      (middle.store.fields object.id).get? name.lexeme = none →
      object.cls.method? name.lexeme = some method →
        ∃ f after, eval (level + 1) (.get expression name) machine = .done (.callable (.function f)) after ∧
          f.declaration = method.declaration ∧
          ∀ earlier, middle.HeldSoFar earlier →
            (earlier.equal (.callable (.function f)) = false ∧
              (Value.callable (.function f)).equal earlier = false) ∧
            ∀ g ∈ earlier.functions, g.id ≠ f.id := by
  refine ⟨?_, ?_, ?_⟩
  · intro requests machine inUse hand h o o' ho ho' hequal
    obtain ⟨registry, -, hgood, -, -, hhand⟩ := (admits_registryDiscipline requests).situation h
    have hfound := (Discipline.value_of_holds hgood hhand ho).found
    have hfound' := (Discipline.value_of_holds hgood hhand ho').found
    have hid : o.id = o'.id := beq_iff_eq.mp hequal
    rw [hid, hfound'] at hfound
    exact (Option.some.inj hfound).symm
  · intro level machine callee paren arguments c values called hvalues
    refine ⟨⟨c.nextObject called.store, ?_⟩, fun requests results held around h value hvalue => ?_⟩
    · rw [eval_call hvalues]
      exact constructs level c paren values called
    · exact h.heldSoFar_of_call hvalues hvalue
  · intro level machine expression name object middle method hobject hfield hmethod
    have hget : eval (level + 1) (.get expression name) machine = object.get name middle := by
      change (eval level expression >>= _) machine = _
      rw [Eval.bind_apply, hobject]
    rw [hget, Instance.get_method hfield hmethod]
    refine ⟨_, _, rfl, rfl, fun earlier h => ?_⟩
    have hnew : ∀ g ∈ earlier.functions, g.id ≠ middle.store.functions :=
      fun g hg => Nat.ne_of_lt (Value.lt_functions h.numbered hg)
    exact ⟨Value.distinct_function hnew, hnew⟩

theorem eval_variable_of_lookup? {level : Nat} {name : Token} {machine : Machine} {value : Value}
    (h : machine.store.lookup? machine.environment name.lexeme = some value) :
    eval (level + 1) (.variable name) machine = .done value machine := by
  change Eval.lookup name machine = _
  rw [Eval.lookup_apply, h]

/-- Two globals that stand for the same object, whose class has a method `m`. -/
def Machine.aliases? (machine : Machine) : Option (Class × Instance × Instance × Function) :=
  match machine.store.lookup? machine.environment "C", machine.store.lookup? machine.environment "a",
    machine.store.lookup? machine.environment "b" with
  | some (.callable (.class c)), some (.instance o), some (.instance o') =>
    if o.id = o'.id ∧ ((machine.store.fields o.id).get? "m").isNone then
      (o.cls.method? "m").map (c, o, o', ·)
    else none
  | _, _, _ => none

theorem Machine.exists_of_aliases? {machine : Machine} {c : Class} {o o' : Instance} {method : Function}
    (h : machine.aliases? = some (c, o, o', method)) :
    machine.store.lookup? machine.environment "C" = some (.callable (.class c)) ∧
      machine.store.lookup? machine.environment "a" = some (.instance o) ∧
      machine.store.lookup? machine.environment "b" = some (.instance o') ∧ o.id = o'.id ∧
      (machine.store.fields o.id).get? "m" = none ∧ o.cls.method? "m" = some method := by
  unfold aliases? at h
  split at h
  · next hc ho ho' =>
      split at h
      · next hsame =>
          obtain ⟨found, hmethod, heq⟩ := Option.map_eq_some_iff.mp h
          obtain ⟨rfl, rfl, rfl, rfl⟩ : _ ∧ _ ∧ _ ∧ _ := by simpa using heq
          exact ⟨hc, ho, ho', hsame.1, Option.isNone_iff_eq_none.mp hsame.2, hmethod⟩
      · cases h
  · cases h

/-- After a run there are two names for one object. Another call of its class gives an object that is another
one, although the initializer returns early, and reading its method gives a new function. -/
theorem identities_areNew_after_run :
    let source := "class C \x7b init() \x7b this.self = this; return; \x7d m() \x7b\x7d \x7d var a = C(); var b = a;"
    let name (text : String) : Token := { kind := .identifier, lexeme := text, literal := .none, line := 1 }
    let call : Expr := .call (.variable (name "C")) (name ")") []
    ∃ machine o o', Situation [.run source] machine [machine.environment] [] ∧
      machine.Holds [] (.instance o) ∧ machine.Holds [] (.instance o') ∧ o.cls = o'.cls ∧
      (∃ object after, eval 6 call machine = .done (.instance object) after ∧
        (Value.instance o).equal (.instance object) = false) ∧
      ∃ f after, eval 2 (.get (.variable (name "a")) (name "m")) machine =
          .done (.callable (.function f)) after ∧
        ∀ g ∈ (Value.instance o).functions, g.id ≠ f.id := by
  intro source name call
  have hrun : (((Machine.run 20 source (.start {} 0)).machine?.filter fun machine =>
      (eval 6 call machine).machine?.isSome).bind Machine.aliases?).isSome = true := by
    decide +kernel
  obtain ⟨⟨c, o, o', method⟩, hfound⟩ := Option.isSome_iff_exists.mp hrun
  obtain ⟨machine, hmachine, haliases⟩ := Option.bind_eq_some_iff.mp hfound
  obtain ⟨hmachine, hcall⟩ := Option.filter_eq_some_iff.mp hmachine
  obtain ⟨after, hafter⟩ := Option.isSome_iff_exists.mp hcall
  obtain ⟨value, hcall⟩ := Outcome.exists_of_machine? hafter
  obtain ⟨_, hdone⟩ := Outcome.exists_of_machine? hmachine
  obtain ⟨hc, ho, ho', hid, hfield, hmethod⟩ := Machine.exists_of_aliases? haliases
  have hends : (Machine.run 20 source (.start {} 0)).Ends (some ()) machine := hdone ▸ .done () machine
  have hsituation : Situation [.run source] machine [machine.environment] [] :=
    .between (.run (.start {} 0) 20 source hends)
  have hholds : machine.Holds [] (.instance o) := .inr (Store.stores_of_lookup? ho)
  have hholds' : machine.Holds [] (.instance o') := .inr (Store.stores_of_lookup? ho')
  have hearlier := hsituation.heldSoFar hholds
  have hvalues : Eval.values (eval 5) [.variable (name "C")] machine = .done [.callable (.class c)] machine := by
    rw [Eval.values, Eval.bind_apply, eval_variable_of_lookup? hc]
    rfl
  have hvariable : eval 1 (.variable (name "a")) machine = .done (.instance o) machine :=
    eval_variable_of_lookup? ho
  obtain ⟨hsame, hnew, hread⟩ := identities_areNew
  obtain ⟨⟨object, hobject⟩, -⟩ := hnew 5 machine _ (name ")") [] c [] machine hvalues
  obtain ⟨f, last, hget, -, hfresh⟩ := hread 1 machine _ (name "m") o machine method
    hvariable hfield hmethod
  refine ⟨machine, o, o', hsituation, hholds, hholds', ?_, ⟨object, after, ?_, (hobject.distinct _ hearlier).1⟩,
    f, last, hget, (hfresh _ hearlier).2⟩
  · exact hsame _ machine _ [] hsituation o o' hholds hholds' (beq_iff_eq.mpr hid)
  · rw [hcall, hobject.gives value after hcall]

end Script
