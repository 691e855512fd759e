import Script.Proofs.Formed.Parser
import Script.Proofs.Printed.Trees

/-!
# The printed text of an expression

Of two expressions that are read without errors, neither of which has a string or a number that is not finite, the
printed texts are equal only if the expressions are, up to the lines of their tokens. So what is printed shows how
the operations were grouped, though not all of them are put into parentheses.
-/

namespace Script

open Script.Parser

/-! ### Constants -/

mutual

/-- The constants in an expression. -/
def Expr.constants : Expr → List Literal
  | .assign _ value => value.constants
  | .binary left _ right | .logical left _ right => left.constants ++ right.constants
  | .call callee _ arguments => callee.constants ++ Expr.listConstants arguments
  | .get object _ => object.constants
  | .grouping inner => inner.constants
  | .literal value => [value]
  | .set object _ value => object.constants ++ value.constants
  | .unary _ right => right.constants
  | .this _ | .variable _ => []

def Expr.listConstants : List Expr → List Literal
  | [] => []
  | tree :: rest => tree.constants ++ Expr.listConstants rest

end

theorem Expr.mem_listConstants {value : Literal} {trees : List Expr} :
    value ∈ Expr.listConstants trees ↔ ∃ tree ∈ trees, value ∈ tree.constants := by
  induction trees with
  | nil => simp [Expr.listConstants]
  | cons tree rest ih => simp [Expr.listConstants, ih]

instance : DecidablePred Literal.Plain
  | .string _ => isFalse id
  | .number x => inferInstanceAs (Decidable (x.isFinite = true))
  | .none | .bool _ | .identifier _ => isTrue trivial

/-! ### Tokens of a source -/

/-- Only strings and numbers have constants that may not be plain. -/
theorem Token.Spelled.legible {token : Token} (h : token.Spelled)
    (hkind : token.kind ≠ .number ∧ token.kind ≠ .string) : token.Legible := by
  refine ⟨h, ?_⟩
  rw [h.literal]
  by_cases hname : token.kind = .identifier
  · rw [hname]
    exact trivial
  · have hnone : token.kind ∉ [.identifier, .string, .number] := by simp [hname, hkind]
    rw [(Constant.none token.lexeme hnone).literal_eq]
    exact trivial

theorem Use.Of.legible {use : Use} {token : Token} (h : use.Of Token.Spelled token) (huse : use ≠ .mark) :
    use.Of Token.Legible token :=
  ⟨h.1.legible (h.kind_ne huse), h.2⟩

theorem Expr.Formed.legible_of_plain {tree : Expr} (h : tree.Formed Token.Spelled)
    (hplain : ∀ value ∈ tree.constants, value.Plain) : tree.Formed Token.Legible := by
  induction h with
  | assign hname _ ih => exact .assign (hname.legible nofun) (ih hplain)
  | binary _ hoperator _ hloose htight ihLeft ihRight =>
      obtain ⟨hleft, hright⟩ := List.forall_mem_append.mp hplain
      exact .binary (ihLeft hleft) (hoperator.legible nofun) (ihRight hright) hloose htight
  | call _ hparen _ htight ihCallee ihArguments =>
      obtain ⟨hcallee, harguments⟩ := List.forall_mem_append.mp hplain
      refine .call (ihCallee hcallee) (hparen.legible nofun) (fun argument hargument => ?_) htight
      exact ihArguments argument hargument fun value hvalue =>
        harguments value (Expr.mem_listConstants.mpr ⟨argument, hargument, hvalue⟩)
  | get _ hname htight ih => exact .get (ih hplain) (hname.legible nofun) htight
  | grouping _ ih => exact .grouping (ih hplain)
  | truth value => exact .truth value
  | nil => exact .nil
  | constant htoken hkind => exact .constant ⟨htoken, hplain _ (List.mem_singleton_self _)⟩ hkind
  | logical _ hoperator hkind _ hloose htight ihLeft ihRight =>
      obtain ⟨hleft, hright⟩ := List.forall_mem_append.mp hplain
      refine .logical (ihLeft hleft) (hoperator.legible ?_) hkind (ihRight hright) hloose htight
      rcases hkind with hkind | hkind <;> simp [hkind]
  | set _ hname _ htight ihObject ihValue =>
      obtain ⟨hobject, hvalue⟩ := List.forall_mem_append.mp hplain
      exact .set (ihObject hobject) (hname.legible nofun) (ihValue hvalue) htight
  | this hkeyword => exact .this (hkeyword.legible nofun)
  | unary hoperator _ htight ih => exact .unary (hoperator.legible nofun) (ih hplain) htight
  | «variable» hname => exact .variable (hname.legible nofun)

/-- An expression that a request reads somewhere, as a whole or in a program. -/
theorem Request.legible {request : Request} {layers : List Layer} {tree : Expr}
    (h : Occurs {task | task ∈ request.tasks} layers (.eval tree)) (hplain : ∀ value ∈ tree.constants, value.Plain) :
    tree.Formed Token.Legible := by
  have hformed : tree.Formed (· ∈ upToEnd (scan request.source).tokens) := Request.formed h
  refine (hformed.mono fun token htoken => ?_).legible_of_plain hplain
  rw [upToEnd_scan] at htoken
  exact Token.spelled_of_mem_scan htoken

theorem Request.occurs_evaluate {source : String} {tree : Expr} (hclean : (readExpression source).diagnostics = [])
    (htree : (readExpression source).tree = some tree) :
    Occurs {task | task ∈ (Request.evaluate source).tasks} [] (.eval tree) := by
  refine .whole ?_
  simp [Request.tasks, hclean, htree, Diagnostics.hadError]

/-! ### Texts -/

mutual

theorem Expr.Like.text_eq {T : Matching} (hfaithful : T.Faithful) {tree tree' : Expr} (h : Expr.Like T tree tree') :
    tree'.text = tree.text := by
  cases h with
  | assign hname hvalue => rw [Expr.text, Expr.text, hfaithful.lexeme hname, hvalue.text_eq hfaithful]
  | binary hleft hoperator hright | logical hleft hoperator hright => 
    rw [Expr.text, Expr.text, hfaithful.lexeme hoperator, hleft.text_eq hfaithful, hright.text_eq hfaithful]
  | call hcallee _ harguments =>
    rw [Expr.text, Expr.text, hcallee.text_eq hfaithful, Expr.Like.listText_eq hfaithful harguments]
  | get hobject hname => rw [Expr.text, Expr.text, hobject.text_eq hfaithful, hfaithful.lexeme hname]
  | grouping hinner => rw [Expr.text, Expr.text, hinner.text_eq hfaithful]
  | literal => rfl
  | set hobject hname hvalue =>
    rw [Expr.text, Expr.text, hobject.text_eq hfaithful, hfaithful.lexeme hname, hvalue.text_eq hfaithful]
  | this hname | «variable» hname => rw [Expr.text, Expr.text, hfaithful.lexeme hname]
  | unary hoperator hright => rw [Expr.text, Expr.text, hfaithful.lexeme hoperator, hright.text_eq hfaithful]

theorem Expr.Like.listText_eq {T : Matching} (hfaithful : T.Faithful) {trees trees' : List Expr}
    (h : List.Forall₂ (Expr.Like T) trees trees') : Expr.listText trees' = Expr.listText trees := by
  cases h with
  | nil => rfl
  | cons htree hrest =>
    cases hrest with
    | nil => rw [Expr.listText, Expr.listText, htree.text_eq hfaithful]
    | cons hnext hrest =>
      have hothers := Expr.Like.listText_eq hfaithful (.cons hnext hrest)
      simp only [Expr.listText] at hothers ⊢
      rw [htree.text_eq hfaithful, hothers]

end

/-- The printed texts of two expressions that were read are equal only if the expressions are the same but for the
lines of their tokens. -/
theorem Expr.text_eq_iff {request request' : Request} {layers layers' : List Layer} {tree tree' : Expr}
    (h : Occurs {task | task ∈ request.tasks} layers (.eval tree))
    (h' : Occurs {task | task ∈ request'.tasks} layers' (.eval tree'))
    (hplain : ∀ value ∈ tree.constants, value.Plain) (hplain' : ∀ value ∈ tree'.constants, value.Plain) :
    tree.text = tree'.text ↔ Expr.Like .lines tree tree' := by
  constructor
  · intro hsame
    have hlegible := Request.legible h hplain
    have hlegible' := Request.legible h' hplain'
    exact hlegible.like_of_symbols hlegible' (hlegible.symbols_eq hlegible' hsame)
  · exact fun hlike => (hlike.text_eq Matching.faithful_lines).symm

/-- The same expression, written in another way. -/
theorem Expr.text_eq_iff_rewritten :
    let source := "a.b = f(1.50) or\n!(x - 2 - 3)"
    let source' := "a . b=f( 1.5 )or !( x-2\n\n-3 ) // y"
    let text := "a.b = f(1.5) or (! (group (- (- x 2) 3)))"
    ∃ tree tree', Occurs {task | task ∈ (Request.evaluate source).tasks} [] (.eval tree) ∧
      Occurs {task | task ∈ (Request.evaluate source').tasks} [] (.eval tree') ∧
      (∀ value ∈ tree.constants, value.Plain) ∧ (∀ value ∈ tree'.constants, value.Plain) ∧
      tree.text = text ∧ tree'.text = text ∧ Expr.Like .lines tree tree' := by
  intro source source' text
  let checked (tree : Expr) : Bool := tree.text == text && tree.constants.all fun value => value.Plain
  have hchecked {tree : Expr} (h : checked tree = true) :
      tree.text = text ∧ ∀ value ∈ tree.constants, value.Plain := by
    simpa [checked] using h
  have hclean : (readExpression source).diagnostics = [] ∧ (readExpression source').diagnostics = [] := by
    decide +kernel
  have hread : (readExpression source).tree.any checked = true ∧
      (readExpression source').tree.any checked = true := by decide +kernel
  obtain ⟨tree, htree, hfound⟩ := (Option.any_eq_true _ _).mp hread.1
  obtain ⟨tree', htree', hfound'⟩ := (Option.any_eq_true _ _).mp hread.2
  obtain ⟨htext, hplain⟩ := hchecked hfound
  obtain ⟨htext', hplain'⟩ := hchecked hfound'
  have hoccurs := Request.occurs_evaluate hclean.1 htree
  have hoccurs' := Request.occurs_evaluate hclean.2 htree'
  exact ⟨tree, tree', hoccurs, hoccurs', hplain, hplain', htext, htext',
    (Expr.text_eq_iff hoccurs hoccurs' hplain hplain').mp (htext.trans htext'.symm)⟩

/-- A string is printed like the number with its digits. -/
example : (readExpression "\"1.5\"").tree.map Expr.text = (readExpression "1.5").tree.map Expr.text := by
  decide +kernel

end Script
