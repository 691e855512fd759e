import Script.Call
import Script.Proofs.Alike.Trees

/-!
# States that differ in the tokens of functions

Functions keep the trees of their declarations, and values, scopes, fields and states lead to functions. Two
of them are alike if they are the same but for the tokens in these trees. A program cannot tell them apart,
as long as the tokens have the same kind and the same lexeme.
-/

namespace Script

variable {α : Type}

/-- Tokens correspond to themselves, and else to tokens that read the same. -/
structure Matching.Faithful (T : Matching) : Prop where
  refl : ∀ use token, T use token token
  kind : ∀ {use token token'}, T use token token' → token'.kind = token.kind
  lexeme : ∀ {use token token'}, T use token token' → token'.lexeme = token.lexeme

structure Function.Like (T : Matching) (f f' : Function) : Prop where
  id : f'.id = f.id
  declaration : Declaration.Like T f.declaration f'.declaration
  closure : f'.closure = f.closure

/-- The same names, for related things. -/
def Bindings.Like (V : α → α → Prop) (bindings bindings' : Bindings α) : Prop :=
  List.Forall₂ (fun entry entry' => entry'.1 = entry.1 ∧ V entry.2 entry'.2) bindings.entries
    bindings'.entries

structure Class.Like (T : Matching) (c c' : Class) : Prop where
  id : c'.id = c.id
  name : c'.name = c.name
  methods : Bindings.Like (Function.Like T) c.methods c'.methods

inductive Callable.Like (T : Matching) : Callable → Callable → Prop where
  | function {f f' : Function} (h : Function.Like T f f') : Like T (.function f) (.function f')
  | class {c c' : Class} (h : Class.Like T c c') : Like T (.class c) (.class c')
  | native (native : Native) : Like T (.native native) (.native native)

inductive Value.Like (T : Matching) : Value → Value → Prop where
  | nil : Like T .nil .nil
  | bool (value : Bool) : Like T (.bool value) (.bool value)
  | number (value : Float) : Like T (.number value) (.number value)
  | string (text : String) : Like T (.string text) (.string text)
  | callable {c c' : Callable} (h : Callable.Like T c c') : Like T (.callable c) (.callable c')
  | instance {c c' : Class} (id : Nat) (h : Class.Like T c c') :
      Like T (.instance ⟨c, id⟩) (.instance ⟨c', id⟩)

structure Store.Like (T : Matching) (store store' : Store) : Prop where
  scopes : store'.scopes.size = store.scopes.size
  scope : ∀ id, Bindings.Like (Value.Like T) (store.scope id) (store'.scope id)
  objects : store'.objects.size = store.objects.size
  fields : ∀ id, Bindings.Like (Value.Like T) (store.fields id) (store'.fields id)
  functions : store'.functions = store.functions
  classes : store'.classes = store.classes

/-- The states differ in their stores only. -/
def Machine.Like (T : Matching) (machine machine' : Machine) : Prop :=
  ∃ store, Store.Like T machine.store store ∧ machine' = { machine with store }

/-- The same error, at tokens that correspond. -/
inductive RuntimeError.Like (T : Matching) : RuntimeError → RuntimeError → Prop where
  | undefinedProperty {use : Use} {name name' : Token} (h : T use name name') :
      Like T (.undefinedProperty name) (.undefinedProperty name')
  | undefinedVariable {use : Use} {name name' : Token} (h : T use name name') :
      Like T (.undefinedVariable name) (.undefinedVariable name')
  | operand {use : Use} {operator operator' : Token} (h : T use operator operator')
      (fault : OperandFault) : Like T (.operand operator fault) (.operand operator' fault)
  | notCallable {use : Use} {paren paren' : Token} (h : T use paren paren') :
      Like T (.notCallable paren) (.notCallable paren')
  | arity {use : Use} {paren paren' : Token} (h : T use paren paren') (expected found : Nat) :
      Like T (.arity paren expected found) (.arity paren' expected found)
  | stackOverflow {use : Use} {paren paren' : Token} (h : T use paren paren') :
      Like T (.stackOverflow paren) (.stackOverflow paren')
  | notAnInstance {use : Use} {name name' : Token} (h : T use name name') (access : Access) :
      Like T (.notAnInstance name access) (.notAnInstance name' access)
  | output (fault : OutputFault) : Like T (.output fault) (.output fault)

/-- Both ends are of the same sort, in states that are alike. -/
inductive Outcome.Like {ε : Type} (T : Matching) (E : ε → ε → Prop) (V : α → α → Prop) :
    Outcome ε α → Outcome ε α → Prop where
  | done {value value' : α} {machine machine' : Machine} (hvalue : V value value')
      (hmachine : Machine.Like T machine machine') : Like T E V (.done value machine) (.done value' machine')
  | failed {error error' : ε} {machine machine' : Machine} (herror : E error error')
      (hmachine : Machine.Like T machine machine') :
      Like T E V (.failed error machine) (.failed error' machine')
  | exhausted : Like T E V .exhausted .exhausted

/-! ### Bindings -/

namespace Bindings

variable {V : α → α → Prop} {bindings bindings' : Bindings α}

theorem Like.get? (h : Like V bindings bindings') (name : String) :
    Option.Rel V (bindings.get? name) (bindings'.get? name) := by
  obtain ⟨entries⟩ := bindings
  obtain ⟨entries'⟩ := bindings'
  change List.Forall₂ _ entries entries' at h
  unfold Bindings.get?
  induction h with
  | nil => exact .none
  | @cons entry entry' _ _ hentry _ ih =>
      obtain ⟨key, value⟩ := entry
      obtain ⟨key', value'⟩ := entry'
      obtain ⟨rfl, hvalue⟩ := hentry
      simp only [List.lookup_cons]
      split
      · exact .some hvalue
      · exact ih

theorem Like.set (h : Like V bindings bindings') (name : String) {value value' : α} (hvalue : V value value') :
    Like V (bindings.set name value) (bindings'.set name value') := by
  obtain ⟨entries⟩ := bindings
  obtain ⟨entries'⟩ := bindings'
  change List.Forall₂ _ entries entries' at h
  change List.Forall₂ _ (setIn name value entries) (setIn name value' entries')
  induction h with
  | nil => exact .cons ⟨rfl, hvalue⟩ .nil
  | @cons entry entry' _ _ hentry hrest ih =>
      simp only [setIn, hentry.1]
      split
      · exact .cons ⟨rfl, hvalue⟩ hrest
      · exact .cons hentry ih

theorem like_ofList {entries entries' : List (String × α)}
    (h : List.Forall₂ (fun entry entry' => entry'.1 = entry.1 ∧ V entry.2 entry'.2) entries entries') :
    Like V (ofList entries) (ofList entries') := by
  have hfrom (bindings bindings' : Bindings α) (hbefore : Like V bindings bindings') :
      Like V (entries.foldl (fun bindings entry => bindings.set entry.1 entry.2) bindings)
        (entries'.foldl (fun bindings entry => bindings.set entry.1 entry.2) bindings') := by
    induction h generalizing bindings bindings' with
    | nil => exact hbefore
    | cons hentry _ ih =>
        rw [List.foldl_cons, List.foldl_cons, hentry.1]
        exact ih _ _ (hbefore.set _ hentry.2)
  exact hfrom {} {} .nil

theorem like_ofList_zip (names : List String) {values values' : List α} (h : List.Forall₂ V values values') :
    Like V (ofList (names.zip values)) (ofList (names.zip values')) := by
  refine like_ofList ?_
  induction names generalizing values values' with
  | nil => exact .nil
  | cons name names ih =>
      cases h with
      | nil => exact .nil
      | cons hvalue hvalues => exact .cons ⟨rfl, hvalue⟩ (ih hvalues)

theorem like_self {bindings : Bindings α} (h : ∀ value, V value value) : Like V bindings bindings :=
  List.forall₂_same.mpr fun entry _ => ⟨rfl, h entry.2⟩

end Bindings

section Faithful

variable {T : Matching} (hfaithful : T.Faithful)

include hfaithful

/-! ### What is alike to itself -/

theorem Function.like_self (f : Function) : Function.Like T f f :=
  ⟨rfl, f.declaration.like_self fun _ _ => hfaithful.refl _ _, rfl⟩

theorem Class.like_self (c : Class) : Class.Like T c c :=
  ⟨rfl, rfl, Bindings.like_self (Function.like_self hfaithful)⟩

theorem Callable.like_self (c : Callable) : Callable.Like T c c := by
  cases c with
  | function f => exact .function (f.like_self hfaithful)
  | «class» c => exact .class (c.like_self hfaithful)
  | native n => exact .native n

theorem Value.like_self (value : Value) : Value.Like T value value := by
  cases value with
  | nil => exact .nil
  | bool value => exact .bool value
  | number value => exact .number value
  | string text => exact .string text
  | callable c => exact .callable (c.like_self hfaithful)
  | «instance» object => exact .instance object.id (object.cls.like_self hfaithful)

theorem Store.like_self (store : Store) : Store.Like T store store where
  scopes := rfl
  scope _ := Bindings.like_self (Value.like_self hfaithful)
  objects := rfl
  fields _ := Bindings.like_self (Value.like_self hfaithful)
  functions := rfl
  classes := rfl

theorem Machine.like_self (machine : Machine) : Machine.Like T machine machine :=
  ⟨machine.store, machine.store.like_self hfaithful, rfl⟩

end Faithful

end Script
