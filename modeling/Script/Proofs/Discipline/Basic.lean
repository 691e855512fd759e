import Mathlib.Order.Defs.PartialOrder
import Script.Proofs.Moments.Moment

/-!
# Disciplines

An invariant of runs that is told by worlds. A world says what is known at some moment, and only grows: of
the machine, of functions, classes and objects, and of what is evaluated or executed in an environment. A
discipline gives one law for each thing that a run does, and its laws make it hold all along.
-/

namespace Script

variable {α β : Type}

/-- The value is in some scope, or in a field of some object. -/
def Store.Stores (store : Store) (value : Value) : Prop :=
  ∃ cell name, (store.contents cell).get? name = some value

/-- The name that a statement defines where it stands. -/
def Stmt.defines : Stmt → Option String
  | .var name _ | .classDecl name _ => some name.lexeme
  | .function declaration => some declaration.name.lexeme
  | _ => none

/-- All methods of the class are such. -/
def Class.All (p : Function → Prop) (c : Class) : Prop :=
  ∀ name method, c.methods.get? name = some method → p method

theorem Class.All.mono {p q : Function → Prop} {c : Class} (h : c.All p) (hpq : ∀ f, p f → q f) : c.All q :=
  fun name method hmethod => hpq method (h name method hmethod)

/-- `function` is about what can be called as it is, `method` about what is bound to an object first. -/
structure Discipline (W : Type) [Preorder W] where
  state : W → Machine → Prop
  function : W → Function → Prop
  method : W → Function → Prop
  cls : W → Class → Prop
  object : W → Instance → Prop
  task : W → Environment → Task → Prop
  function_mono {world later : W} {f : Function} : world ≤ later → function world f → function later f
  method_mono {world later : W} {f : Function} : world ≤ later → method world f → method later f
  cls_mono {world later : W} {c : Class} : world ≤ later → cls world c → cls later c
  object_mono {world later : W} {o : Instance} : world ≤ later → object world o → object later o
  task_mono {world later : W} {environment : Environment} {t : Task} :
    world ≤ later → task world environment t → task later environment t
  method_of_cls {world : W} {c : Class} : cls world c → c.All (method world)
  cls_of_object {world : W} {o : Instance} : object world o → cls world o.cls
  /-- The state does not say where the machine stands, nor what its clock shows. -/
  elsewhere {world : W} {machine : Machine} (environment : Environment) (depth : Nat) (time : Clock) :
    state world machine → state world { machine with environment, depth, time }
  written {world : W} {machine : Machine} (text : String) :
    state world machine → state world { machine with sink := (machine.sink.write text).2 }
  part {world : W} {environment : Environment} {whole inner : Task} :
    task world environment whole → inner ∈ whole.parts → task world environment inner
  block {world : W} {environment : Environment} {statements : List Stmt} {machine : Machine} :
    task world environment (.exec (.block statements)) → state world machine →
      ∃ later, world ≤ later ∧
        state later { machine with store := (machine.store.addScope {}).2 } ∧
        ∀ statement ∈ statements,
          task later (environment.push (machine.store.addScope {}).1) (.exec statement)
  body {world : W} {f : Function} {machine : Machine} (arguments : List Value) :
    function world f → state world machine →
      let (scope, store) := machine.store.addScope
        (.ofList ((f.declaration.params.map Token.lexeme).zip arguments))
      ∃ later, world ≤ later ∧ state later { machine with store } ∧
        ∀ statement ∈ f.declaration.body, task later (f.closure.push scope) (.exec statement)
  declared {world : W} {environment : Environment} {declaration : Declaration} {machine : Machine} :
    task world environment (.exec (.function declaration)) → state world machine →
      ∃ later, world ≤ later ∧
        state later { machine with store := (machine.store.addFunction declaration environment).2 } ∧
        function later (machine.store.addFunction declaration environment).1
  declaredClass {world : W} {environment : Environment} {name : Token} {declarations : List Declaration}
    {machine : Machine} :
    task world environment (.exec (.classDecl name declarations)) → state world machine →
      ∃ later, world ≤ later ∧
        state later
          { machine with store := (machine.store.addClass name.lexeme declarations environment).2 } ∧
        cls later (machine.store.addClass name.lexeme declarations environment).1
  bound {world : W} {f : Function} {o : Instance} {machine : Machine} :
    method world f → object world o → state world machine →
      ∃ later, world ≤ later ∧ state later { machine with store := (machine.store.bind f o).2 } ∧
        function later (machine.store.bind f o).1
  made {world : W} {c : Class} {machine : Machine} :
    cls world c → state world machine →
      ∃ later, world ≤ later ∧ state later { machine with store := machine.store.addObject.2 } ∧
        object later ⟨c, machine.store.addObject.1⟩
  defined {world : W} {environment : Environment} {statement : Stmt} {name : String} {machine : Machine}
    (value : Value) :
    task world environment (.exec statement) → statement.defines = some name → state world machine →
      ∃ later, world ≤ later ∧
        state later { machine with store := machine.store.define environment.innermost name value }
  assigned {world : W} {environment : Environment} {name : Token} {expression : Expr} {machine : Machine}
    {scope : ScopeId} (value : Value) :
    task world environment (.eval (.assign name expression)) →
      machine.store.resolve? environment name.lexeme = some scope → state world machine →
      ∃ later, world ≤ later ∧
        state later { machine with store := machine.store.define scope name.lexeme value }
  field {world : W} {machine : Machine} (id : Nat) (name : String) (value : Value) :
    state world machine →
      ∃ later, world ≤ later ∧ state later { machine with store := machine.store.setField id name value }

namespace Discipline

variable {W : Type} [Preorder W] (d : Discipline W)

/-- What the value is or holds is as it should be. -/
def value (world : W) : Value → Prop
  | .callable (.function f) => d.function world f
  | .callable (.class c) => d.cls world c
  | .instance object => d.object world object
  | _ => True

/-- The state is as it should be, and so are all values in the store. -/
structure Good (world : W) (machine : Machine) : Prop where
  state : d.state world machine
  stored : ∀ value, machine.store.Stores value → d.value world value

/-- From any good state in the environment, the computation ends in a good state in the same
environment, with a value as it should be. -/
def Keeps (world : W) (environment : Environment) (body : Eval α) (post : W → α → Prop) : Prop :=
  ∀ machine value? after, d.Good world machine → machine.environment = environment →
    (body machine).Ends value? after →
      ∃ later, world ≤ later ∧ d.Good later after ∧ after.environment = environment ∧
        ∀ value ∈ value?, post later value

variable {d} {world later : W} {environment : Environment} {machine : Machine}

/-- Where a discipline says nothing of functions, classes and objects, it says nothing of values. -/
theorem value_of_all (hfunction : ∀ f, d.function world f) (hcls : ∀ c, d.cls world c)
    (hobject : ∀ o, d.object world o) (v : Value) : d.value world v := by
  cases v with
  | callable c =>
      cases c with
      | function f => exact hfunction f
      | «class» c => exact hcls c
      | native => trivial
  | «instance» o => exact hobject o
  | _ => trivial

theorem value_mono (hle : world ≤ later) {v : Value} (h : d.value world v) : d.value later v := by
  cases v with
  | callable c =>
      cases c with
      | function f => exact d.function_mono hle h
      | «class» c => exact d.cls_mono hle h
      | native => trivial
  | «instance» object => exact d.object_mono hle h
  | _ => trivial

theorem Good.elsewhere (h : d.Good world machine) (environment : Environment) (depth : Nat)
    (time : Clock) : d.Good world { machine with environment, depth, time } :=
  ⟨d.elsewhere environment depth time h.state, h.stored⟩

/-- A new state is good if all values in it are as they should be or were in a good one. -/
theorem Good.of_stored {after : Machine} (h : d.Good world machine) (hle : world ≤ later)
    (hstate : d.state later after)
    (hstored : ∀ value, after.store.Stores value → machine.store.Stores value ∨ d.value later value) :
    d.Good later after := by
  refine ⟨hstate, fun value hvalue => ?_⟩
  rcases hstored value hvalue with hbefore | hnew
  · exact value_mono hle (h.stored value hbefore)
  · exact hnew

/-! ### Computations in general -/

section Computations

variable {post : W → α → Prop}

theorem Keeps.mono {body : Eval α} (h : d.Keeps world environment body post) {weaker : W → α → Prop}
    (hpost : ∀ later value, world ≤ later → post later value → weaker later value) :
    d.Keeps world environment body weaker := by
  intro machine value? after hgood henvironment hends
  obtain ⟨later, hle, hafter, hback, hvalue⟩ := h machine value? after hgood henvironment hends
  exact ⟨later, hle, hafter, hback, fun value hmem => hpost later value hle (hvalue value hmem)⟩

theorem keeps_pure {value : α} (hvalue : post world value) :
    d.Keeps world environment (pure value) post := by
  intro machine value? after hgood henvironment hends
  cases hends
  refine ⟨world, le_refl world, hgood, henvironment, ?_⟩
  rintro _ ⟨⟩
  exact hvalue

theorem keeps_fail (error : RuntimeError) : d.Keeps world environment (Eval.fail error) post := by
  intro machine value? after hgood henvironment hends
  cases hends
  exact ⟨world, le_refl world, hgood, henvironment, fun _ h => nomatch h⟩

theorem keeps_exhausted : d.Keeps world environment Eval.exhausted post := by
  intro machine value? after hgood henvironment hends
  cases hends

theorem keeps_bind {first : Eval α} {next : α → Eval β} {last : W → β → Prop}
    (hfirst : d.Keeps world environment first post)
    (hnext : ∀ later value, world ≤ later → post later value →
      d.Keeps later environment (next value) last) :
    d.Keeps world environment (first >>= next) last := by
  intro machine value? after hgood henvironment hends
  rcases Eval.ends_bind hends with ⟨error, hrun, rfl⟩ | ⟨value, middle, hrun, hends⟩
  · obtain ⟨later, hle, hafter, hback, -⟩ :=
      hfirst machine none after hgood henvironment (hrun ▸ .failed error after)
    exact ⟨later, hle, hafter, hback, fun _ h => nomatch h⟩
  · obtain ⟨later, hle, hmiddle, hback, hvalue⟩ :=
      hfirst machine (some value) middle hgood henvironment (hrun ▸ .done value middle)
    obtain ⟨last, hle', hafter, hback', hlast⟩ :=
      hnext later value hle (hvalue value rfl) middle value? after hmiddle hback hends
    exact ⟨last, le_trans hle hle', hafter, hback', hlast⟩

theorem keeps_environment :
    d.Keeps world environment Eval.environment fun _ found => found = environment := by
  intro machine value? after hgood henvironment hends
  cases hends
  refine ⟨world, le_refl world, hgood, henvironment, ?_⟩
  rintro _ ⟨⟩
  exact henvironment

theorem keeps_read {f : Store → α}
    (hread : ∀ machine, d.Good world machine → post world (f machine.store)) :
    d.Keeps world environment (Eval.read f) post := by
  intro machine value? after hgood henvironment hends
  cases hends
  refine ⟨world, le_refl world, hgood, henvironment, ?_⟩
  rintro _ ⟨⟩
  exact hread _ hgood

theorem keeps_change {f : Store → α × Store}
    (hchange : ∀ machine, d.Good world machine → ∃ later, world ≤ later ∧
      d.Good later { machine with store := (f machine.store).2 } ∧ post later (f machine.store).1) :
    d.Keeps world environment (Eval.change f) post := by
  intro machine value? after hgood henvironment hends
  cases hends
  obtain ⟨later, hle, hafter, hvalue⟩ := hchange machine hgood
  refine ⟨later, hle, hafter, henvironment, ?_⟩
  rintro _ ⟨⟩
  exact hvalue

theorem keeps_counted {body : Eval α} (hbody : d.Keeps world environment body post) :
    d.Keeps world environment (Eval.counted body) post := by
  intro machine value? after hgood henvironment hends
  obtain ⟨last, hlast, rfl⟩ := Outcome.ends_mapMachine_iff.mp hends
  obtain ⟨later, hle, hafter, hback, hvalue⟩ :=
    hbody _ value? last (hgood.elsewhere _ (machine.depth + 1) machine.time) henvironment hlast
  exact ⟨later, hle, hafter.elsewhere last.environment _ last.time, hback, hvalue⟩

theorem keeps_print (value : Value) :
    d.Keeps world environment (Eval.print value) fun _ _ => True := by
  intro machine value? after hgood henvironment hends
  have hafter : d.Good world { machine with sink := (machine.sink.write (value.text ++ "\n")).2 } :=
    ⟨d.written _ hgood.state, hgood.stored⟩
  unfold Eval.print at hends
  cases hwrite : machine.sink.write (value.text ++ "\n") with
  | mk result sink =>
      rw [hwrite] at hafter
      simp only [hwrite] at hends
      cases result <;> cases hends <;>
        exact ⟨world, le_refl world, hafter, henvironment, fun _ _ => trivial⟩

end Computations

end Discipline

end Script
