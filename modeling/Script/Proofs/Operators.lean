import Script.Operator

/-!
# Operators give plain values

What an operator or a literal gives is neither callable nor an object, whatever the operands are.
-/

namespace Script

/-- The value is what it shows: nothing, a truth value, a number or a string. -/
def Value.isPlain : Value → Bool
  | .nil | .bool _ | .number _ | .string _ => true
  | .callable _ | .instance _ => false

theorem Value.isPlain_ofLiteral (literal : Literal) : (Value.ofLiteral literal).isPlain = true := by
  cases literal <;> rfl

theorem Value.isPlain_numeric {compute : Float → Float → Value}
    (hcompute : ∀ x y, (compute x y).isPlain = true) {left right value : Value}
    (h : left.numeric compute right = .ok value) : value.isPlain = true := by
  unfold Value.numeric at h
  split at h
  · cases h
    exact hcompute _ _
  · cases h

theorem Kind.isPlain_binary {kind : Kind} {left right value : Value}
    (h : kind.binary left right = .ok value) : value.isPlain = true := by
  unfold Kind.binary at h
  split at h
  case h_1 =>
    unfold Value.add at h
    split at h <;> cases h <;> rfl
  case h_9 => cases h; rfl
  case h_10 => cases h; rfl
  case h_11 => cases h
  all_goals exact Value.isPlain_numeric (fun _ _ => rfl) h

theorem Kind.isPlain_unary {kind : Kind} {right value : Value} (h : kind.unary right = .ok value) :
    value.isPlain = true := by
  unfold Kind.unary at h
  split at h
  · cases h
    rfl
  · unfold Value.negate at h
    split at h <;> cases h
    rfl
  · cases h

end Script
