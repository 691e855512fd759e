import Script.Eval
import Script.Parser.Program

/-!
Running programs and evaluating expressions on a machine that keeps its state in between.
-/

namespace Script

/-- Why a source was not run to its end. -/
inductive RunError where
  | unreadable (diagnostics : Diagnostics)
  | runtime (error : RuntimeError)

def RunError.text : RunError → String
  | .unreadable diagnostics => diagnostics.text
  | .runtime error => error.message ++ "\n[line " ++ toString error.line ++ "]"

def Outcome.mapError {ε δ α : Type} (f : ε → δ) : Outcome ε α → Outcome δ α
  | .done value machine => .done value machine
  | .failed error machine => .failed (f error) machine
  | .exhausted => .exhausted

/-- Executes the statements of a program. A `return` outside of functions ends it. Output is flushed
unless the program fails. -/
def interpret (level : Nat) (program : List Stmt) : Eval Unit := do
  let _ ← Eval.sequence (exec level) program
  Eval.flush

namespace Machine

def start (sink : Sink) (time : Clock) : Machine :=
  let native := Native.clock
  let (scope, store) := ({} : Store).addScope
    (({} : Bindings Value).set native.name (.callable (.native native)))
  { globals := { innermost := scope }, environment := { innermost := scope }, store, sink, time }

/-- Runs a source, unless it has errors. -/
def run (level : Nat) (source : String) (machine : Machine) : Outcome RunError Unit :=
  let parsed := readProgram source
  if parsed.diagnostics.hadError then .failed (.unreadable parsed.diagnostics) machine
  else (interpret level parsed.tree machine).mapError .runtime

/-- The value of the expression at the start of a source, unless it has errors. -/
def evaluate (level : Nat) (source : String) (machine : Machine) : Outcome RunError Value :=
  let parsed := readExpression source
  match parsed.tree with
  | some expression =>
    if parsed.diagnostics.hadError then .failed (.unreadable parsed.diagnostics) machine
    else (eval level expression machine).mapError .runtime
  | none => .failed (.unreadable parsed.diagnostics) machine

end Machine

end Script
