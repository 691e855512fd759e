import Script.Value
import Script.RuntimeError

/-!
What operators make of values.
-/

namespace Script

/-- Applies to two numbers only. -/
def Value.numeric (compute : Float → Float → Value) : Value → Value → Except OperandFault Value
  | .number x, .number y => .ok (compute x y)
  | _, _ => .error .notNumbers

/-- Adds numbers and joins strings. -/
def Value.add : Value → Value → Except OperandFault Value
  | .number x, .number y => .ok (.number (x + y))
  | .string x, .string y => .ok (.string (x ++ y))
  | _, _ => .error .notAddable

def Value.negate : Value → Except OperandFault Value
  | .number x => .ok (.number (-x))
  | _ => .error .notNumber

def Kind.unary (kind : Kind) (right : Value) : Except OperandFault Value :=
  match kind with
  | .bang => .ok (.bool !right.truthy)
  | .minus => right.negate
  | _ => .error .notUnary

def Kind.binary (kind : Kind) (left right : Value) : Except OperandFault Value :=
  match kind with
  | .plus => left.add right
  | .minus => left.numeric (.number <| · - ·) right
  | .slash => left.numeric (.number <| · / ·) right
  | .star => left.numeric (.number <| · * ·) right
  | .greater => left.numeric (.bool <| · > ·) right
  | .greaterEqual => left.numeric (.bool <| · ≥ ·) right
  | .less => left.numeric (.bool <| · < ·) right
  | .lessEqual => left.numeric (.bool <| · ≤ ·) right
  | .bangEqual => .ok (.bool !(left.equal right))
  | .equalEqual => .ok (.bool (left.equal right))
  | _ => .error .notBinary

/-- Whether the left operand of a logical operator is the result already. -/
def Kind.settledBy (kind : Kind) (left : Value) : Bool :=
  if kind = .orWord then left.truthy else !left.truthy

end Script
