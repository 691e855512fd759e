import Script.Proofs.Identity.Fresh
import Script.Proofs.Properties.Host

/-!
# What reading a property gives

It depends on what has been written to the object before and on how its class was declared, and on nothing
else. This holds for all objects that have ever been seen, between the actions of a host as well as in the
middle of them.
-/

namespace Script

/-! ### Declared methods -/

/-- The last one of the name counts. -/
def lastDeclared? (declarations : List Declaration) (name : String) : Option Declaration :=
  declarations.reverse.find? (·.name.lexeme == name)

theorem Store.lookup_methods (first : Nat) (declarations : List Declaration) (closure : Environment)
    (name : String) :
    ((methods first declarations closure).reverse.lookup name).map Function.declaration =
      lastDeclared? declarations name := by
  unfold lastDeclared?
  induction declarations generalizing first with
  | nil => rfl
  | cons declaration rest ih =>
      rw [methods_cons, List.reverse_cons, List.lookup_append, List.reverse_cons, List.find?_append,
        ← ih (first + 1), Option.map_or]
      congr 1
      by_cases hname : name = declaration.name.lexeme
      · rw [hname, List.lookup_cons_self, List.find?_singleton, beq_self_eq_true]
        rfl
      · rw [List.lookup_cons, beq_false_of_ne hname, List.find?_singleton, beq_false_of_ne (Ne.symm hname)]
        rfl

theorem Class.MadeFrom.method?_eq {c : Class} {name : Token} {declarations : List Declaration}
    {closure : Environment} (h : c.MadeFrom name declarations closure) (other : String) :
    (c.method? other).map Function.declaration = lastDeclared? declarations other := by
  obtain ⟨store, rfl⟩ := h
  rw [method?, Store.addClass_eq, Bindings.get?_ofList_eq, Store.lookup_methods]

/-! ### Binding -/

/-- The function is the method for one object: around its body there is one more scope, a new one, and it
holds nothing but `this`. -/
structure Function.IsBound (f method : Function) (object : Instance) (before after : Machine) : Prop where
  declaration : f.declaration = method.declaration
  closure : ∃ scope, f.closure = method.closure.push scope ∧ ¬ before.store.Has (.scope scope) ∧
    after.store.scope scope = { entries := [("this", .instance object)] }
  others : ∀ cell, before.store.Has cell → after.store.contents cell = before.store.contents cell

theorem Function.isBound (method : Function) (object : Instance) (machine : Machine) :
    (machine.store.bind method object).1.IsBound method object machine
      { machine with store := (machine.store.bind method object).2 } where
  declaration := rfl
  closure := ⟨machine.store.scopes.size, rfl, Nat.lt_irrefl _, (Store.scope_addScope _ _ _).trans (if_pos rfl)⟩
  others cell hcell := by
    cases cell with
    | scope id => exact (Store.scope_addScope _ _ _).trans (if_neg (Nat.ne_of_lt hcell))
    | fields id => rfl

namespace Instance

variable {object : Instance} {name : Token} {machine : Machine}

theorem get_field {value : Value} (h : (machine.store.fields object.id).get? name.lexeme = some value) :
    object.get name machine = .done value machine := by
  unfold get
  rw [Eval.bind_apply]
  simp only [Eval.read, h]
  rfl

theorem get_undefined (hfield : (machine.store.fields object.id).get? name.lexeme = none)
    (hmethod : object.cls.method? name.lexeme = none) :
    object.get name machine = .failed (.undefinedProperty name) machine := by
  unfold get
  rw [Eval.bind_apply]
  simp only [Eval.read, hfield, hmethod]
  rfl

/-- What reading the property gives, by what has been written and by the declarations of the class. -/
def Answers (object : Instance) (declarations : List Declaration) (written : List Event) (name : Token)
    (machine : Machine) : Prop :=
  match lastWritten? written object.id name.lexeme, lastDeclared? declarations name.lexeme with
  | some value, _ => object.get name machine = .done value machine
  | none, some declaration =>
    ∃ method f after, object.cls.method? name.lexeme = some method ∧ method.declaration = declaration ∧
      object.get name machine = .done (.callable (.function f)) after ∧ f.IsBound method object machine after
  | none, none => object.get name machine = .failed (.undefinedProperty name) machine

/-- All properties of the object are as they should be after these events, by a class in the programs. -/
def Obeys (object : Instance) (programs : Set Task) (written : List Event) (machine : Machine) : Prop :=
  ∃ name declarations closure, Contained programs (.exec (.classDecl name declarations)) ∧
    object.cls.MadeFrom name declarations closure ∧
    ∀ property, object.Answers declarations written property machine

theorem answers {declarations : List Declaration} {written : List Event}
    (hfield : (machine.store.fields object.id).get? name.lexeme = lastWritten? written object.id name.lexeme)
    (hmethod : (object.cls.method? name.lexeme).map Function.declaration = lastDeclared? declarations name.lexeme) :
    object.Answers declarations written name machine := by
  unfold Answers
  rw [← hfield, ← hmethod]
  cases hvalue : (machine.store.fields object.id).get? name.lexeme with
  | some value => exact get_field hvalue
  | none =>
      cases hfound : object.cls.method? name.lexeme with
      | some method => exact ⟨method, _, _, rfl, rfl, get_method hvalue hfound, method.isBound object machine⟩
      | none => exact get_undefined hvalue hfound

/-- What is written to one object changes nothing for others, nor for other names. -/
theorem get_withField {id : Nat} {field : String} (hother : ¬ (object.id = id ∧ name.lexeme = field))
    (value : Value) (machine : Machine) : object.get name (machine.withField id field value) =
      (object.get name machine).mapMachine (·.withField id field value) := by
  have hfields : ((machine.withField id field value).store.fields object.id).get? name.lexeme =
      (machine.store.fields object.id).get? name.lexeme := by
    rw [Machine.withField, Store.fields_setField]
    split
    · next hsame =>
        rw [Bindings.get?_set, if_neg fun hname => hother ⟨hsame.1, hname⟩, hsame.1]
    · rfl
  cases hvalue : (machine.store.fields object.id).get? name.lexeme with
  | some found =>
      rw [get_field hvalue, get_field (hfields.trans hvalue)]
      rfl
  | none =>
      cases hmethod : object.cls.method? name.lexeme with
      | some method =>
          rw [get_method hvalue hmethod, get_method (hfields.trans hvalue) hmethod]
          rfl
      | none =>
          rw [get_undefined hvalue hmethod, get_undefined (hfields.trans hvalue) hmethod]
          rfl

end Instance

/-! ### Whole histories -/

/-- The value has been in hand or in the store, now or when something was done to a property. -/
def Host.Seen (host : Host) (value : Value) : Prop :=
  host.machine.Holds host.hand value ∨
    ∃ event ∈ host.history, event.machine.Holds [.instance event.object] value

/-- The class itself has been seen, or an object of it. -/
def Host.SeenClass (host : Host) (c : Class) : Prop :=
  host.Seen (.callable (.class c)) ∨ ∃ object, host.Seen (.instance object) ∧ object.cls = c

theorem Discipline.Known.value_of_holds {W : Type} [Preorder W] {d : Discipline W} {world : W} {event : Event}
    (h : d.Known world event) {value : Value} (hvalue : event.machine.Holds [.instance event.object] value) :
    d.value world value := by
  obtain ⟨earlier, hle, hgood, hobject⟩ := h
  have hhand : ∀ value ∈ [Value.instance event.object], d.value earlier value :=
    List.forall_mem_singleton.mpr hobject
  exact value_mono hle (Discipline.value_of_holds hgood hhand hvalue)

theorem Discipline.Hosts.value_of_seen {W : Type} [Preorder W] {d : Discipline W} {world : W} {host : Host}
    (h : d.Hosts world host) {value : Value} (hvalue : host.Seen value) : d.value world value := by
  rcases hvalue with hnow | ⟨event, hevent, hthen⟩
  · exact Discipline.value_of_holds h.good h.hand hnow
  · obtain ⟨sink, time, hcourse⟩ := h.course
    exact (hcourse.forall_mem event hevent).value_of_holds hthen

section Registry

variable {programs : Set Task} {registry : Registry}

theorem Registry.HasObject.lt_size {machine : Machine} {object : Instance} (hstate : registry.Describes machine)
    (h : registry.HasObject programs object) : object.id < machine.store.objects.size := by
  rw [hstate.objects]
  exact (List.getElem?_eq_some_iff.mp h.found).1

theorem Discipline.Known.lt_size {event : Event} (h : (registryDiscipline programs).Known registry event) :
    event.object.id < event.machine.store.objects.size := by
  obtain ⟨earlier, -, hgood, hobject⟩ := h
  exact Registry.HasObject.lt_size hgood.state hobject

/-- An object of the registry obeys what has been done since the start. -/
theorem Registry.HasObject.obeys {object : Instance} (h : registry.HasObject programs object) {sink : Sink}
    {time : Clock} {written : List Event} {machine : Machine}
    (hcourse : Course ((registryDiscipline programs).Known registry) (.start sink time) written machine) :
    object.Obeys programs written machine := by
  obtain ⟨name, declarations, closure, hcontained, hmade⟩ := h.cls.declared
  refine ⟨name, declarations, closure, hcontained, hmade, fun property => ?_⟩
  refine Instance.answers ?_ (hmade.method?_eq _)
  rw [hcourse.get?_eq fun _ => Discipline.Known.lt_size]
  exact Option.or_none

theorem Registry.HasClass.unique {c c' : Class} (h : registry.HasClass programs c)
    (h' : registry.HasClass programs c') (hid : c'.id = c.id) : c' = c := by
  have hfound := h'.found
  rw [hid, h.found] at hfound
  exact (Option.some.inj hfound).symm

theorem Discipline.Hosts.hasClass {host : Host} (h : (registryDiscipline programs).Hosts registry host) {c : Class}
    (hseen : host.SeenClass c) : registry.HasClass programs c := by
  rcases hseen with hcls | ⟨object, hobject, rfl⟩
  · exact h.value_of_seen hcls
  · exact (h.value_of_seen hobject).cls

end Registry

/-- Whatever programs a reached host has served, or serves later, tell of all classes and objects. -/
theorem Host.Reached.hosts {host : Host} (h : host.Reached) {requests : List Request}
    (hsubset : host.requests ⊆ requests) :
    ∃ registry, (registryDiscipline (Request.programs requests)).Hosts registry host := by
  obtain ⟨sink, time, hbecomes⟩ := h
  have hadmits := admits_registryDiscipline requests
  obtain ⟨registry, -, hhosts⟩ := hadmits.hosts.becomes hbecomes (fun _ _ => id)
    fun request hmem => hadmits.tasks request (hsubset hmem)
  exact ⟨registry, hhosts⟩

/-- Whenever something is done to a property, and between the actions of a host, each property of each object
that there is reads as the one value written last to it by any name, or as the last method of its name that
the class declares, newly bound, or not at all. Writing to an object changes only what that property of the
object itself reads as. A class always has the same methods and takes the same number of arguments. -/
theorem properties_obeyHistory :
    (∀ host : Host, host.Reached →
      (∀ level action before event after object, host.Can action →
        host.history ++ action.log level host.machine = before ++ event :: after →
        event.machine.Holds [.instance event.object] (.instance object) →
          object.Obeys (Request.programs (action.requests ++ host.requests)) before event.machine) ∧
      (∀ object, host.Seen (.instance object) →
        object.Obeys (Request.programs host.requests) host.history host.machine) ∧
      ∀ later c c', host.Becomes later → host.SeenClass c → later.SeenClass c' → c'.id = c.id →
        (∀ name, c'.method? name = c.method? name) ∧ c'.arity = c.arity) ∧
    ∀ (object other : Instance) (name asked : Token) value machine,
      let written := machine.withField object.id name.lexeme value
      object.set name value machine = .done () written ∧
        (¬ (other.id = object.id ∧ asked.lexeme = name.lexeme) →
          other.get asked written = (other.get asked machine).mapMachine (·.withField object.id name.lexeme value)) := by
  refine ⟨fun host hreached => ⟨?_, ?_, ?_⟩, ?_⟩
  · intro level action before event after object hcan hsplit hobject
    have hadmits := admits_registryDiscipline (action.requests ++ host.requests)
    obtain ⟨registry, hhosts⟩ := hreached.hosts (List.subset_append_right action.requests host.requests)
    obtain ⟨sink, time, hcourse⟩ := hhosts.course
    obtain ⟨later, last, hle, hmore, -⟩ := hhosts.tracks hcan
      (fun request hmem => hadmits.tasks request (List.mem_append_left _ hmem)) level
    have hall := (hcourse.mono fun _ => Discipline.Known.mono hle).append hmore
    rw [hsplit] at hall
    obtain ⟨hbefore, hknown, -⟩ := hall.of_append_cons
    exact Registry.HasObject.obeys (hknown.value_of_holds hobject) hbefore
  · intro object hseen
    obtain ⟨registry, hhosts⟩ := hreached.hosts (List.Subset.refl host.requests)
    obtain ⟨sink, time, hcourse⟩ := hhosts.course
    exact Registry.HasObject.obeys (hhosts.value_of_seen hseen) hcourse
  · intro later c c' hbecomes hseen hseen' hid
    have hadmits := admits_registryDiscipline later.requests
    obtain ⟨registry, hhosts⟩ := hreached.hosts hbecomes.requests_subset
    obtain ⟨final, hle, hlater⟩ := hhosts.becomes hbecomes (fun _ _ => id) hadmits.tasks
    have hsame := Registry.HasClass.unique ((hhosts.hasClass hseen).mono hle) (hlater.hasClass hseen') hid
    rw [hsame]
    exact ⟨fun _ => rfl, rfl⟩
  · exact fun object other name asked value machine => ⟨rfl, fun hother => Instance.get_withField hother value machine⟩

/-- The object that a global stands for. -/
def Machine.global? (machine : Machine) (name : String) : Option Instance :=
  match machine.store.lookup? machine.globals name with
  | some (.instance object) => some object
  | _ => none

theorem Machine.lookup?_of_global? {machine : Machine} {name : String} {object : Instance}
    (h : machine.global? name = some object) :
    machine.store.lookup? machine.globals name = some (.instance object) := by
  unfold global? at h
  split at h
  · next hvalue => rw [hvalue, Option.some.inj h]
  · cases h

/-- A field that is set by another name for the object, a method that is declared twice, and a property that
there is not. -/
theorem properties_obeyHistory_after_run :
    let source := "class C { m() {} m(k) {} } var o = C(); var p = o; p.f = \"s\";"
    let name (text : String) : Token := { kind := .identifier, lexeme := text, literal := .none, line := 1 }
    ∃ (host : Host) (object : Instance), host.Reached ∧ host.requests = [.run source] ∧
      host.hand = [.instance object] ∧
      (∃ value, object.get (name "f") host.machine = .done value host.machine ∧ value.text = "s") ∧
      (∃ f after, object.get (name "m") host.machine = .done (.callable (.function f)) after ∧ f.arity = 1) ∧
      object.get (name "g") host.machine = .failed (.undefinedProperty (name "g")) host.machine := by
  intro source name
  let history := (Request.run source).log 20 (.start {} 0)
  have hrun : (((Machine.run 20 source (.start {} 0)).machine?.bind (·.global? "o")).filter fun object =>
      (lastWritten? history object.id "f").map Value.text = some "s" ∧
        (lastWritten? history object.id "m").isNone ∧ (lastWritten? history object.id "g").isNone ∧
        (object.cls.method? "m").map Function.arity = some 1 ∧ (object.cls.method? "g").isNone).isSome = true := by
    decide +kernel
  obtain ⟨object, hfound⟩ := Option.isSome_iff_exists.mp hrun
  obtain ⟨hobject, hfacts⟩ := Option.filter_eq_some_iff.mp hfound
  obtain ⟨hf, hm, hg, hmethod, hnone⟩ := of_decide_eq_true hfacts
  obtain ⟨machine, hmachine, hglobal⟩ := Option.bind_eq_some_iff.mp hobject
  obtain ⟨value, hdone⟩ := Outcome.exists_of_machine? hmachine
  let ran := (Host.start {} 0).next 20 (.serve (.run source)) (some []) machine
  have hhistory : ran.history = history := List.nil_append _
  have hends : (Action.perform 20 (.start {} 0) (.serve (.run source))).Ends (some []) machine := by
    rw [Action.perform, hdone]
    exact .done [] machine
  have hran : (Host.start {} 0).Step ran := .act (List.forall_mem_nil _) hends
  have hobserved : ran.Step { ran with hand := [.instance object] } :=
    .observe (.global (Machine.lookup?_of_global? hglobal))
  have hreached : Host.Reached { ran with hand := [.instance object] } :=
    ⟨{}, 0, (Relation.ReflTransGen.single hran).tail hobserved⟩
  clear_value history
  obtain ⟨-, hseen, -⟩ := properties_obeyHistory.1 _ hreached
  obtain ⟨_, declarations, _, _, hmade, hanswers⟩ := hseen object (.inl (.inl List.mem_cons_self))
  refine ⟨_, object, hreached, rfl, rfl, ?_, ?_, ?_⟩
  · obtain ⟨value, hvalue, htext⟩ := Option.map_eq_some_iff.mp hf
    have hwritten : lastWritten? ran.history object.id (name "f").lexeme = some value := hhistory ▸ hvalue
    have hanswer := hanswers (name "f")
    rw [Instance.Answers, hwritten] at hanswer
    exact ⟨value, hanswer, htext⟩
  · obtain ⟨method, hmethod, harity⟩ := Option.map_eq_some_iff.mp hmethod
    have hwritten : lastWritten? ran.history object.id (name "m").lexeme = none :=
      hhistory ▸ Option.isNone_iff_eq_none.mp hm
    have hdeclared : lastDeclared? declarations (name "m").lexeme = some method.declaration :=
      (hmade.method?_eq _).symm.trans (congrArg (Option.map Function.declaration) hmethod)
    have hanswer := hanswers (name "m")
    rw [Instance.Answers, hwritten, hdeclared] at hanswer
    obtain ⟨found, f, after, -, hfound, hget, hbound⟩ := hanswer
    refine ⟨f, after, hget, ?_⟩
    rw [Function.arity, hbound.declaration, hfound]
    exact harity
  · have hwritten : lastWritten? ran.history object.id (name "g").lexeme = none :=
      hhistory ▸ Option.isNone_iff_eq_none.mp hg
    have hdeclared : lastDeclared? declarations (name "g").lexeme = none :=
      (hmade.method?_eq _).symm.trans
        (congrArg (Option.map Function.declaration) (Option.isNone_iff_eq_none.mp hnone))
    have hanswer := hanswers (name "g")
    rwa [Instance.Answers, hwritten, hdeclared] at hanswer

end Script
