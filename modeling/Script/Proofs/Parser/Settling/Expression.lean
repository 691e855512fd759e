import Script.Parser.Expression
import Script.Proofs.Parser.Settling.Combinators

/-!
# Expressions come to an end

Two levels of nesting for each token are enough: an operand in a chain may go down one level without
reading anything, and whatever is read a level below that stands after a parenthesis or a sign.
-/

namespace Script.Parser

variable {quiet : SyntaxError → Prop} {size : Nat}

/-! ### Chains -/

theorem settles_operation {operand : Parser Expr}
    (hoperand : Settles quiet size (fun _ => 1) operand) (level : Level) (left : Expr) :
    Settles quiet size Turn.least (operation level operand left) := by
  unfold operation
  refine settles_bind (settles_accept _) fun mark hmark => ?_
  cases mark with
  | none => exact settles_pure rfl
  | some operator =>
      refine settles_bind (hoperand.mono (Nat.sub_le _ _) fun _ => Nat.le_refl 1) fun right _ => ?_
      exact settles_pure rfl

theorem settles_chains {operand : Parser Expr}
    (hoperand : Settles quiet size (fun _ => 1) operand) {turns : Nat} (hturns : size < turns)
    (levels : List Level) : Settles quiet size (fun _ => 1) (chains operand turns levels) := by
  induction levels with
  | nil => exact hoperand
  | cons level tighter ih =>
      unfold chains chain
      refine settles_bind ih fun left _ => ?_
      have hloop := settles_iterate (fun left => settles_operation ih level left) hturns left
      exact hloop.mono (Nat.sub_le _ _) fun _ => Nat.le_refl 0

/-! ### Calls -/

section Parts

variable {expression : Parser Expr}
  (hexpression : ∀ smaller < size, Settles quiet smaller (fun _ => 1) expression)

include hexpression

theorem settles_primary : Settles quiet size (fun _ => 1) (primary expression) := by
  have hgroup : ∀ smaller < size, Settles quiet smaller (fun _ => 0) (primary.group expression) := by
    intro smaller hsmaller
    unfold primary.group
    refine settles_bind (hexpression smaller hsmaller) fun inner _ => ?_
    exact settles_bind (settles_expect _ _) fun closing _ => settles_pure rfl
  intro tokens htokens
  unfold primary
  split
  · exact ⟨List.suffix_rfl, by simp⟩
  · next token rest hnext =>
      obtain ⟨rfl, -⟩ := next?_eq_some_iff.mp hnext
      rw [List.length_cons] at htokens
      split
      case h_8 =>
        exact settled_cons (hgroup rest.length htokens rest (Nat.le_refl _)) token fun _ => Nat.le_refl 1
      case h_9 => exact ⟨List.suffix_rfl, by simp⟩
      all_goals exact ⟨List.suffix_cons token rest, by simp, by simp⟩

theorem settles_suffix (htoo : quiet (.tooMany .arguments)) {turns : Nat} (hturns : size ≤ turns)
    (callee : Expr) : Settles quiet size Turn.least (suffix expression turns callee) := by
  unfold suffix
  refine settles_bind (settles_accept _) fun mark hmark => ?_
  cases mark with
  | none => exact settles_pure rfl
  | some mark =>
      have hsize : 1 ≤ size := hmark
      simp only
      split
      · exact settles_bind (settles_expect _ _) fun name _ => settles_pure rfl
      · refine settles_bind (settles_entries htoo (hexpression (size - 1) (by omega)) (by omega))
          fun arguments _ => ?_
        exact settles_bind (settles_expect _ _) fun closing _ => settles_pure rfl

theorem settles_call (htoo : quiet (.tooMany .arguments)) {turns : Nat} (hturns : size ≤ turns) :
    Settles quiet size (fun _ => 1) (call expression turns) := by
  unfold call
  refine settles_bind (settles_primary hexpression) fun callee hcallee => ?_
  have hsize : 1 ≤ size := hcallee
  have hsuffix : ∀ callee, Settles quiet (size - 1) Turn.least (suffix expression turns callee) :=
    fun callee => (settles_suffix hexpression htoo hturns callee).mono (Nat.sub_le _ _)
      fun _ => Nat.le_refl _
  exact settles_iterate hsuffix (by omega) callee

end Parts

/-! ### Signs and assignments -/

theorem settles_signed {operand call : Parser Expr}
    (hoperand : ∀ smaller < size, Settles quiet smaller (fun _ => 1) operand)
    (hcall : Settles quiet size (fun _ => 1) call) :
    Settles quiet size (fun _ => 1) (signed operand call) := by
  unfold signed
  refine settles_bind (settles_accept _) fun mark hmark => ?_
  cases mark with
  | none => exact hcall
  | some operator =>
      have hsize : 1 ≤ size := hmark
      refine settles_bind (hoperand (size - 1) (by omega)) fun right _ => ?_
      exact settles_pure rfl

theorem settles_assignment (hinvalid : quiet .assignmentTarget) {target value : Parser Expr}
    (htarget : Settles quiet size (fun _ => 1) target)
    (hvalue : ∀ smaller < size, Settles quiet smaller (fun _ => 1) value) :
    Settles quiet size (fun _ => 1) (assignment target value) := by
  unfold assignment
  refine settles_bind htarget fun left hleft => ?_
  have hsize : 1 ≤ size := hleft
  refine settles_bind settles_unread fun place _ => ?_
  refine settles_bind (settles_accept _) fun mark _ => ?_
  cases mark with
  | none => exact settles_pure rfl
  | some equals =>
      refine settles_bind ((hvalue (size - 1) (by omega)).mono (Nat.sub_le _ _)
        fun _ => Nat.le_refl 1) fun right _ => ?_
      split
      · exact settles_pure rfl
      · exact settles_pure rfl
      · exact settles_bind (settles_report hinvalid place) fun _ _ => settles_pure rfl

/-- Of a list with as few tokens as the level allows, an expression is not exhausted. -/
theorem settles_expression_unary (hinvalid : quiet .assignmentTarget) (htoo : quiet (.tooMany .arguments))
    (level : Nat) :
    (∀ size, 2 * size + 2 ≤ level → Settles quiet size (fun _ => 1) (expression level)) ∧
      ∀ size, 2 * size + 1 ≤ level → Settles quiet size (fun _ => 1) (unary level) := by
  induction level with
  | zero => exact ⟨fun size h => by omega, fun size h => by omega⟩
  | succ level ih =>
      obtain ⟨hexpression, hunary⟩ := ih
      constructor
      · intro size hlevel
        refine settles_assignment hinvalid
          (settles_chains (hunary size (by omega)) (by omega) Level.all) fun smaller hsmaller => ?_
        exact hexpression smaller (by omega)
      · intro size hlevel
        apply settles_signed (fun smaller hsmaller => hunary smaller (by omega))
        exact settles_call (fun smaller hsmaller => hexpression smaller (by omega)) htoo (by omega)

theorem settles_expression (hquiet : ∀ error : SyntaxError, error.isFatal = false → quiet error)
    {level size : Nat} (hlevel : 2 * size + 2 ≤ level) :
    Settles quiet size (fun _ => 1) (expression level) :=
  (settles_expression_unary (hquiet _ rfl) (hquiet _ rfl) level).1 size hlevel

end Script.Parser
