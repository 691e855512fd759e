import Script.Proofs.Grammar.Tolerant
import Script.Parser.Expression

/-!
# Levels of operators

The levels of the parser are the chains of the grammar. No operator of a level can go on with a phrase
of a tighter one, so one token of lookahead tells where a phrase ends.
-/

namespace Script.Parser

open Grammar

/-- The kinds of token that a phrase of the levels may go on with. -/
def continues : List Level → Kind → Bool
  | [], kind => kind == .leftParen || kind == .dot
  | level :: tighter, kind => level.has kind || continues tighter kind

/-- As `continues`, for an expression. -/
def continuesExpression (kind : Kind) : Bool :=
  continues Level.all kind || kind == .equal

/-- The levels, the loosest first, are the chains of the grammar from a symbol down to `unary`. -/
inductive Aligned : ExprSymbol → List Level → Prop where
  | nil : Aligned .unary []
  | cons {symbol : ExprSymbol} {row : Grammar.Chain} {level : Level} {levels : List Level}
      (hrow : symbol.chain? = some row) (hhas : ∀ kind, level.has kind = true ↔ kind ∈ row.operators)
      (hjoin : level.join = row.node)
      (hfresh : ∀ kind, level.has kind = true → continues levels kind = false)
      (hrest : Aligned row.operand levels) : Aligned symbol (level :: levels)

theorem aligned_all : Aligned .logicOr Level.all := by
  refine .cons rfl ?_ rfl ?_ (.cons rfl ?_ rfl ?_ (.cons rfl ?_ rfl ?_ (.cons rfl ?_ rfl ?_
    (.cons rfl ?_ rfl ?_ (.cons rfl ?_ rfl ?_ .nil)))))
  all_goals
    intro kind
    cases kind <;> decide

theorem Aligned.of_unary {symbol : ExprSymbol} {levels : List Level} (h : Aligned symbol levels)
    {read : List Token} {tree : Expr} {slips : List Slip} (hunary : Tolerant.Expression .unary read tree slips) :
    Tolerant.Expression symbol read tree slips := by
  induction h with
  | nil => exact hunary
  | cons hrow _ _ _ _ ih => exact .operand hrow ih

/-- A call stands for a whole expression without assignments. -/
theorem logicOr_of_call {read : List Token} {tree : Expr} {slips : List Slip}
    (h : Tolerant.Expression .call read tree slips) : Tolerant.Expression .logicOr read tree slips :=
  aligned_all.of_unary (.unsigned h)

end Script.Parser
