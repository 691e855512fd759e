import Mathlib.Logic.Relation
import Script.Proofs.Properties.Evaluation

/-!
# Hosts

A host has a machine serve requests, and with the values that it gets hold of it does more: it calls what can be
called, makes objects, looks for methods, and reads and writes properties. All of that is in one history, with
what its programs do to properties.
-/

namespace Script

variable {ε α β : Type}

def Outcome.mapValue (f : α → β) : Outcome ε α → Outcome ε β
  | .done value machine => .done (f value) machine
  | .failed error machine => .failed error machine
  | .exhausted => .exhausted

theorem Outcome.exists_of_ends_mapValue {f : α → β} {outcome : Outcome ε α} {other? : Option β} {after : Machine}
    (h : (outcome.mapValue f).Ends other? after) : ∃ value?, outcome.Ends value? after ∧ other? = value?.map f := by
  cases outcome with
  | done value machine =>
      cases h
      exact ⟨some value, .done value after, rfl⟩
  | failed error machine =>
      cases h
      exact ⟨none, .failed error after, rfl⟩
  | exhausted => cases h

/-- What a host has a machine do. -/
inductive Action where
  | serve (request : Request)
  | call (callable : Callable) (arguments : List Value)
  | make (cls : Class)
  | get (object : Instance) (name : Token)
  | set (object : Instance) (name : Token) (value : Value)

namespace Action

def requests : Action → List Request
  | .serve request => [request]
  | .call _ _ | .make _ | .get _ _ | .set _ _ _ => []

/-- The values that the host needs for the action. -/
def operands : Action → List Value
  | .serve _ => []
  | .call callable arguments => .callable callable :: arguments
  | .make c => [.callable (.class c)]
  | .get object _ => [.instance object]
  | .set object _ value => [.instance object, value]

/-- What is done to properties by the action. -/
def log (level : Nat) : Action → Log
  | .serve request => request.log level
  | .call callable arguments => callable.callLog (exec level) (Stmt.log level) arguments
  | .make _ => .none
  | .get object name => fun machine => [{ machine, object, name, written? := none }]
  | .set object name value => fun machine => [{ machine, object, name, written? := some value }]

/-- What the action comes to, with the values that the host gets from it. -/
def perform (level : Nat) (machine : Machine) : Action → Outcome RunError (List Value)
  | .serve (.run source) => (machine.run level source).mapValue fun _ => []
  | .serve (.evaluate source) => (machine.evaluate level source).mapValue ([·])
  | .call callable arguments => (callable.call (exec level) arguments machine).mapError .runtime |>.mapValue ([·])
  | .make c => (c.instantiate machine).mapError .runtime |>.mapValue ([.instance ·])
  | .get object name => (object.get name machine).mapError .runtime |>.mapValue ([·])
  | .set object name value => (object.set name value machine).mapError .runtime |>.mapValue fun _ => []

end Action

/-- A machine and its host: the requests served so far, the last one first, what has been done to properties
since the start, and the values that the host has in hand. -/
structure Host where
  requests : List Request
  history : List Event
  hand : List Value
  machine : Machine

namespace Host

def start (sink : Sink) (time : Clock) : Host :=
  { requests := [], history := [], hand := [], machine := .start sink time }

/-- The host has all that the action needs; plain values it makes itself. -/
def Can (host : Host) (action : Action) : Prop :=
  ∀ value ∈ action.operands, value ∈ host.hand ∨ value.isPlain = true

/-- What a host can see without having the machine do anything: globals, classes of objects, and methods. -/
inductive Observes (host : Host) : Value → Prop where
  | global {name : String} {value : Value}
      (hvalue : host.machine.store.lookup? host.machine.globals name = some value) : Observes host value
  | class {object : Instance} (hobject : .instance object ∈ host.hand) :
      Observes host (.callable (.class object.cls))
  | method {c : Class} {name : String} {method : Function} (hclass : .callable (.class c) ∈ host.hand)
      (hmethod : c.method? name = some method) : Observes host (.callable (.function method))

/-- The host after an action, which gives values unless it fails. -/
def next (host : Host) (level : Nat) (action : Action) (values? : Option (List Value)) (after : Machine) : Host where
  requests := action.requests ++ host.requests
  history := host.history ++ action.log level host.machine
  hand := values?.getD [] ++ host.hand
  machine := after

inductive Step (host : Host) : Host → Prop where
  | act {level : Nat} {action : Action} {values? : Option (List Value)} {after : Machine} (hcan : host.Can action)
      (hends : (action.perform level host.machine).Ends values? after) :
      Step host (host.next level action values? after)
  | observe {value : Value} (hobserves : host.Observes value) : Step host { host with hand := value :: host.hand }
  | clock (time : Clock) : Step host { host with machine := { host.machine with time } }

/-- The first host becomes the second one. -/
def Becomes : Host → Host → Prop :=
  Relation.ReflTransGen Step

def Reached (host : Host) : Prop :=
  ∃ sink time, (start sink time).Becomes host

theorem Step.requests_subset {host later : Host} (h : host.Step later) : host.requests ⊆ later.requests := by
  cases h with
  | act => exact List.subset_append_right _ _
  | observe | clock => exact List.Subset.refl _

theorem Becomes.requests_subset {host later : Host} (h : host.Becomes later) :
    host.requests ⊆ later.requests := by
  induction h with
  | refl => exact List.Subset.refl _
  | tail _ hstep ih => exact List.Subset.trans ih hstep.requests_subset

end Host

/-! ### Hosts keep a discipline -/

namespace Discipline

variable {W : Type} [Preorder W] {d : Discipline W} {world : W} {environment : Environment}

/-- The machine is good, the values in hand are as they should be, and the history leads to the machine. -/
structure Hosts (d : Discipline W) (world : W) (host : Host) : Prop where
  good : d.Good world host.machine
  top : host.machine.environment = top
  hand : ∀ value ∈ host.hand, d.value world value
  course : ∃ sink time, Course (d.Known world) (.start sink time) host.history host.machine

variable {host : Host}

theorem Tracks.mapValue {machine : Machine} {outcome : Outcome ε α} {events : List Event} {post : W → α → Prop}
    {last : W → β → Prop} {f : α → β} (h : d.Tracks world environment machine outcome events post)
    (hpost : ∀ later value, post later value → last later (f value)) :
    d.Tracks world environment machine (outcome.mapValue f) events last := by
  obtain ⟨later, after, hle, hcourse, hends⟩ := h
  refine ⟨later, after, hle, hcourse, fun other? last hlast => ?_⟩
  obtain ⟨value?, hvalue, rfl⟩ := Outcome.exists_of_ends_mapValue hlast
  obtain ⟨rfl, hafter, hback, hkept⟩ := hends value? last hvalue
  refine ⟨rfl, hafter, hback, fun other hother => ?_⟩
  obtain ⟨value, hmem, rfl⟩ := Option.map_eq_some_iff.mp hother
  exact hpost later value (hkept value hmem)

/-- What is done to properties while a host's action is under way, and where it ends if it does. -/
theorem Hosts.tracks (h : d.Hosts world host) {action : Action} (hcan : host.Can action)
    (htasks : ∀ request ∈ action.requests, ∀ task ∈ request.tasks, d.task world Discipline.top task) (level : Nat) :
    d.Tracks world Discipline.top host.machine (action.perform level host.machine)
      (action.log level host.machine) fun later values => ∀ value ∈ values, d.value later value := by
  have hoperands : ∀ value ∈ action.operands, d.value world value := fun value hmem =>
    (hcan value hmem).elim (h.hand value) value_of_isPlain
  have hsingle {later : W} {value : Value} (hvalue : d.value later value) : ∀ v ∈ [value], d.value later v :=
    List.forall_mem_singleton.mpr hvalue
  cases action with
  | serve request =>
      have htasks := htasks request List.mem_cons_self
      rw [← h.top] at htasks ⊢
      cases request with
      | run source => exact (h.good.tracks_run level htasks).mapValue fun _ _ _ => List.forall_mem_nil _
      | evaluate source => exact (h.good.tracks_evaluate level htasks).mapValue fun _ _ => hsingle
  | call callable arguments =>
      obtain ⟨hcallable, harguments⟩ := List.forall_mem_cons.mp hoperands
      have hcall := follows_call_callable (d.follows_exec level) hcallable harguments host.machine h.good h.top
      exact (hcall.mapError RunError.runtime).mapValue fun _ _ => hsingle
  | make c =>
      have hmade := (keeps_instantiate (hoperands _ List.mem_cons_self)).follows c.silent_instantiate
        host.machine h.good h.top
      exact (hmade.mapError RunError.runtime).mapValue (f := ([Value.instance ·])) fun _ _ hobject =>
        @hsingle _ (.instance _) hobject.1
  | get object name =>
      have hget := follows_get name (hoperands _ List.mem_cons_self) host.machine h.good h.top
      exact (hget.mapError RunError.runtime).mapValue fun _ _ => hsingle
  | set object name value =>
      have hvalue := hoperands value (List.mem_cons_of_mem _ List.mem_cons_self)
      have hset := follows_set name (hoperands _ List.mem_cons_self) hvalue host.machine h.good h.top
      exact (hset.mapError RunError.runtime).mapValue (f := fun _ => []) fun _ _ _ => List.forall_mem_nil _

theorem Hosts.observes (h : d.Hosts world host) {value : Value} (hobserves : host.Observes value)
    (hmethods : ∀ f, d.method world f → d.function world f) : d.value world value := by
  cases hobserves with
  | global hvalue => exact h.good.stored value (Store.stores_of_lookup? hvalue)
  | «class» hobject => exact d.cls_of_object (h.hand _ hobject)
  | method hclass hmethod => exact hmethods _ (d.method_of_cls (h.hand _ hclass) _ _ hmethod)

/-- It must be all the same to the discipline whether a method is bound, because a host may call it as it is. -/
theorem Hosts.step (h : d.Hosts world host) {next : Host} (hstep : host.Step next)
    (hmethods : ∀ world f, d.method world f → d.function world f)
    (htasks : ∀ request ∈ next.requests, ∀ task ∈ request.tasks, d.task world Discipline.top task) :
    ∃ later, world ≤ later ∧ d.Hosts later next := by
  obtain ⟨sink, time, hcourse⟩ := h.course
  cases hstep with
  | @act _ _ values? _ hcan hends =>
      obtain ⟨later, after, hle, hmore, hall⟩ :=
        h.tracks hcan (fun request hmem => htasks request (List.mem_append_left _ hmem)) _
      obtain ⟨rfl, hafter, hback, hvalues⟩ := hall _ _ hends
      have hcourse := (hcourse.mono fun _ => Known.mono hle).append hmore
      refine ⟨later, hle, hafter, hback, fun value hmem => ?_, sink, time, hcourse⟩
      rcases List.mem_append.mp hmem with hnew | hbefore
      · cases values? with
        | some values => exact hvalues values rfl value hnew
        | none => cases hnew
      · exact value_mono hle (h.hand value hbefore)
  | observe hobserves =>
      have hvalue := h.observes hobserves (hmethods world)
      exact ⟨world, le_refl world, h.good, h.top, List.forall_mem_cons.mpr ⟨hvalue, h.hand⟩, sink, time, hcourse⟩
  | clock now =>
      refine ⟨world, le_refl world, h.good.elsewhere _ _ now, h.top, h.hand, sink, time, ?_⟩
      exact hcourse.to_sameFields fun _ => rfl

theorem Hosts.becomes (h : d.Hosts world host) {later : Host} (hbecomes : host.Becomes later)
    (hmethods : ∀ world f, d.method world f → d.function world f)
    (htasks : ∀ request ∈ later.requests, ∀ task ∈ request.tasks, d.task world Discipline.top task) :
    ∃ final, world ≤ final ∧ d.Hosts final later := by
  induction hbecomes with
  | refl => exact ⟨world, le_refl world, h⟩
  | tail _ hstep ih =>
      have hsubset := Host.Step.requests_subset hstep
      obtain ⟨middle, hle, hmiddle⟩ := ih fun request hmem => htasks request (hsubset hmem)
      obtain ⟨final, hle', hfinal⟩ := hmiddle.step hstep hmethods
        fun request hmem task htask => d.task_mono hle (htasks request hmem task htask)
      exact ⟨final, le_trans hle hle', hfinal⟩

theorem Admits.hosts {sink : Sink} {time : Clock} {requests : List Request} (hadmits : d.Admits world requests) :
    d.Hosts world (.start sink time) :=
  ⟨good_start (hadmits.start sink time), rfl, List.forall_mem_nil _, sink, time, .refl _⟩

end Discipline

end Script
