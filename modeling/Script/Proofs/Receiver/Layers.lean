import Script.Proofs.Receiver.History

/-!
# Layers of a program

A statement of a program stands in layers of blocks, functions and methods, one inside the other. When it is
executed, the scopes of the environment are those of the layers, and around the scope of a method stands that
of the object for which the method runs.
-/

namespace Script

inductive Layer where
  | block
  | function (declaration : Declaration)
  | method (declaration : Declaration)

/-- The statements in a statement that stand in a layer more. -/
def Stmt.layers : Stmt → List (Layer × List Stmt)
  | .block statements => [(.block, statements)]
  | .function declaration => [(.function declaration, declaration.body)]
  | .classDecl _ methods => methods.map fun method => (.method method, method.body)
  | _ => []

/-- The task is somewhere in the programs, in these layers, the innermost first. -/
inductive Occurs (programs : Set Task) : List Layer → Task → Prop where
  | whole {task : Task} (h : task ∈ programs) : Occurs programs [] task
  | part {layers : List Layer} {whole part : Task} (h : Occurs programs layers whole)
      (hpart : part ∈ whole.parts) : Occurs programs layers part
  | inside {layers : List Layer} {layer : Layer} {whole statement : Stmt} {statements : List Stmt}
      (h : Occurs programs layers (.exec whole)) (hlayer : (layer, statements) ∈ whole.layers)
      (hstatement : statement ∈ statements) : Occurs programs (layer :: layers) (.exec statement)

/-- The scopes of the chain are those of the layers, with the globals outside. The innermost method of the
layers, if there is one, was bound to the receiver. -/
inductive Enclosed (store : Store) : List Layer → List ScopeId → Option Instance → Prop where
  | globals (hplain : store.Plain 0) : Enclosed store [] [0] none
  | block {layers : List Layer} {chain : List ScopeId} {receiver : Option Instance} {scope : ScopeId}
      (h : Enclosed store layers chain receiver) (hplain : store.Plain scope) :
      Enclosed store (.block :: layers) (scope :: chain) receiver
  | function {layers : List Layer} {chain : List ScopeId} {receiver : Option Instance} {scope : ScopeId}
      (declaration : Declaration) (h : Enclosed store layers chain receiver) (hplain : store.Plain scope) :
      Enclosed store (.function declaration :: layers) (scope :: chain) receiver
  | method {layers : List Layer} {method bound : Function} {receiver : Option Instance} {object : Instance}
      {scope : ScopeId} (h : Enclosed store layers method.closure.chain receiver)
      (hbound : store.Bound method object bound) (hplain : store.Plain scope) :
      Enclosed store (.method method.declaration :: layers) (scope :: bound.closure.chain) (some object)

namespace Enclosed

variable {store later : Store} {layers : List Layer} {chain : List ScopeId} {receiver : Option Instance}

theorem mono (h : Enclosed store layers chain receiver) (hle : store ≤ later) :
    Enclosed later layers chain receiver := by
  induction h with
  | globals hplain => exact .globals (hplain.mono hle)
  | block _ hplain ih => exact .block ih (hplain.mono hle)
  | function declaration _ hplain ih => exact .function declaration ih (hplain.mono hle)
  | method _ hbound hplain ih => exact .method ih (hbound.mono hle) (hplain.mono hle)

theorem plain_innermost {environment : Environment}
    (h : Enclosed store layers environment.chain receiver) : store.Plain environment.innermost := by
  unfold Environment.chain at h
  generalize hchain : environment.innermost :: environment.outer = chain at h
  cases h with
  | globals hplain | block _ hplain | function _ _ hplain | method _ _ hplain =>
      rw [(List.cons.inj hchain).1]
      exact hplain

end Enclosed

end Script
