import Script.Store
import Script.Sink

/-!
The state that a program runs on, and the computations on it.

`Eval.within` and `Eval.counted` are the only ones that change the current environment and the depth of
calls, and both put back what they found, however the computation inside them ends.
-/

namespace Script

variable {ε α β : Type}

/-- What a clock shows each time it is read, in seconds, and how many times that has been. -/
structure Clock where
  readings : Nat → Float
  taken : Nat := 0

namespace Clock

/-- A clock that always shows the same. -/
def still (reading : Float) : Clock :=
  { readings := fun _ => reading }

instance (n : Nat) : OfNat Clock n :=
  ⟨still (OfNat.ofNat n)⟩

/-- What the clock shows now, and the clock after it is read. -/
def read (clock : Clock) : Float × Clock :=
  (clock.readings clock.taken, { clock with taken := clock.taken + 1 })

end Clock

/-- `depth` counts the calls in progress. `time` is the clock that the program reads. -/
structure Machine where
  globals : Environment
  environment : Environment
  depth : Nat := 0
  store : Store
  sink : Sink
  time : Clock

/-- How a computation ends: with a value or an error and the state it leaves, or because it was not
given enough levels of nesting or turns of a loop. -/
inductive Outcome (ε α : Type) where
  | done (value : α) (machine : Machine)
  | failed (error : ε) (machine : Machine)
  | exhausted

def Outcome.mapMachine (change : Machine → Machine) : Outcome ε α → Outcome ε α
  | .done value machine => .done value (change machine)
  | .failed error machine => .failed error (change machine)
  | .exhausted => .exhausted

def Eval (α : Type) : Type :=
  Machine → Outcome RuntimeError α

namespace Eval

@[always_inline, inline]
protected def pure (value : α) : Eval α :=
  fun machine => .done value machine

@[always_inline, inline]
protected def bind (first : Eval α) (next : α → Eval β) : Eval β :=
  fun machine =>
    match first machine with
    | .done value machine => next value machine
    | .failed error machine => .failed error machine
    | .exhausted => .exhausted

instance : Monad Eval where
  pure := Eval.pure
  bind := Eval.bind

theorem bind_apply (first : Eval α) (next : α → Eval β) (machine : Machine) :
    (first >>= next) machine =
      match first machine with
      | .done value machine => next value machine
      | .failed error machine => .failed error machine
      | .exhausted => .exhausted :=
  rfl

theorem pure_apply (value : α) (machine : Machine) :
    (pure value : Eval α) machine = .done value machine :=
  rfl

instance : LawfulMonad Eval :=
  .mk' Eval
    (fun first => by
      funext machine
      change (first >>= pure) machine = _
      rw [bind_apply]
      cases first machine <;> rfl)
    (fun _ _ => rfl)
    (fun first next last => by
      funext machine
      simp only [bind_apply]
      cases first machine <;> rfl)

def exhausted : Eval α :=
  fun _ => .exhausted

@[always_inline, inline]
def fail (error : RuntimeError) : Eval α :=
  fun machine => .failed error machine

@[always_inline, inline]
def environment : Eval Environment :=
  fun machine => .done machine.environment machine

@[always_inline, inline]
def read (f : Store → α) : Eval α :=
  fun machine => .done (f machine.store) machine

/-- Changes the store and gives what the change does. -/
@[always_inline, inline]
def change (f : Store → α × Store) : Eval α :=
  fun machine =>
    let { store, .. } := machine
    let (value, store) := f store
    .done value { machine with store }

/-- What the name of a token stands for in the current environment. -/
def lookup (name : Token) : Eval Value := do
  let environment ← environment
  match ← read (·.lookup? environment name.lexeme) with
  | some value => return value
  | none => fail (.undefinedVariable name)

theorem lookup_apply (name : Token) (machine : Machine) :
    lookup name machine =
      match machine.store.lookup? machine.environment name.lexeme with
      | some value => .done value machine
      | none => .failed (.undefinedVariable name) machine := by
  simp only [lookup, bind_apply, environment, read]
  cases machine.store.lookup? machine.environment name.lexeme <;> rfl

def defineIn (scope : ScopeId) (name : String) (value : Value) : Eval Unit :=
  change fun store => ((), store.define scope name value)

/-- Gives a new value to the name of a token, in the scope where it is found. -/
def assign (name : Token) (value : Value) : Eval Unit := do
  let environment ← environment
  match ← read (·.resolve? environment name.lexeme) with
  | some scope => defineIn scope name.lexeme value
  | none => fail (.undefinedVariable name)

theorem assign_apply (name : Token) (value : Value) (machine : Machine) :
    assign name value machine =
      match machine.store.assign? machine.environment name.lexeme value with
      | some store => .done () { machine with store }
      | none => .failed (.undefinedVariable name) machine := by
  simp only [assign, bind_apply, environment, read, Store.assign?]
  cases machine.store.resolve? machine.environment name.lexeme <;> rfl

def define (name : String) (value : Value) : Eval Unit := do
  defineIn (← environment).innermost name value

/-- Writes a value and ends the line. -/
def print (value : Value) : Eval Unit :=
  fun machine =>
    let { sink, .. } := machine
    match sink.write (value.text ++ "\n") with
    | (.ok (), sink) => .done () { machine with sink }
    | (.error fault, sink) => .failed (.output fault) { machine with sink }

def flush : Eval Unit :=
  fun machine =>
    match machine.sink.flush with
    | .ok () => .done () machine
    | .error fault => .failed (.output fault) machine

/-- Computes in another environment, and goes back to the current one. -/
def within (inner : Environment) (body : Eval α) : Eval α :=
  fun machine =>
    let outer := machine.environment
    (body { machine with environment := inner }).mapMachine ({ · with environment := outer })

/-- Computes one call deeper. -/
def counted (body : Eval α) : Eval α :=
  fun machine =>
    let depth := machine.depth
    (body { machine with depth := depth + 1 }).mapMachine ({ · with depth })

end Eval

end Script
