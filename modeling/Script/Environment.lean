/-!
Scopes are known by number; what they hold is in the store. An environment is a chain of scopes, and
always has an innermost one.
-/

namespace Script

abbrev ScopeId := Nat

/-- Scopes from the innermost one outwards. -/
structure Environment where
  innermost : ScopeId
  outer : List ScopeId := []
deriving DecidableEq, Repr

namespace Environment

def chain (environment : Environment) : List ScopeId :=
  environment.innermost :: environment.outer

def depth (environment : Environment) : Nat :=
  environment.chain.length

def push (environment : Environment) (scope : ScopeId) : Environment :=
  { innermost := scope, outer := environment.chain }

theorem depth_pos (environment : Environment) : 0 < environment.depth :=
  Nat.succ_pos _

@[simp]
theorem chain_push (environment : Environment) (scope : ScopeId) :
    (environment.push scope).chain = scope :: environment.chain :=
  rfl

@[simp]
theorem depth_push (environment : Environment) (scope : ScopeId) :
    (environment.push scope).depth = environment.depth + 1 :=
  rfl

end Environment

end Script
