import Script.Proofs.Printed.Nesting

/-!
# Printed expressions determine the tree

The form of an expression can be read off its symbols, and so can its parts: where they end is told by what is free
in them. So two well formed expressions with the same symbols have the same shape and the same tokens, but for lines.
-/

namespace Script

/-! ### Forms -/

/-- Forms of expressions that can be told apart by what is outside of parentheses. -/
inductive Form where
  | assignment
  | logical
  | enclosed
  | call
  | property
  | single
deriving DecidableEq

def Expr.form : Expr → Form
  | .assign _ _ | .set _ _ _ => .assignment
  | .logical _ _ _ => .logical
  | .binary _ _ _ | .unary _ _ | .grouping _ => .enclosed
  | .call _ _ _ => .call
  | .get _ _ => .property
  | .literal _ | .this _ | .variable _ => .single

/-- A part at the start of the row has all its parentheses closed. -/
def Divided (symbols : List String) : Prop :=
  ∃ before, before <+: symbols ∧ before ≠ [] ∧ before ≠ symbols ∧ before.count "(" = before.count ")"

open scoped Classical in
/-- The form of the expression that a row of symbols is. -/
noncomputable def formOf (symbols : List String) : Form :=
  if ¬ Free "=" symbols then .assignment
  else if ¬ (Free "or" symbols ∧ Free "and" symbols) then .logical
  else if symbols.getLast? = some ")" then if Divided symbols then .call else .enclosed
  else if symbols.length = 1 then .single
  else .property

theorem not_free {symbol : String} {before after : List String} (h : Balanced before) :
    ¬ Free symbol (before ++ symbol :: after) :=
  fun hfree => hfree before after rfl h.count_eq

theorem Expr.symbols_ne_nil (tree : Expr) : tree.symbols ≠ [] := by
  cases tree <;> simp [symbols]

namespace Expr.Formed

variable {tree tree' : Expr}

theorem not_free_logical {left : Expr} (h : left.Formed Token.Legible) (operator : Token) (right : Expr) :
    ¬ Free operator.lexeme (Expr.logical left operator right).symbols := by
  have hword : ¬ Free operator.lexeme (left.symbols ++ [" "] ++ operator.lexeme :: " " :: right.symbols) :=
    not_free (h.balanced.append (balanced_nil.cons inner_blank))
  simpa [symbols] using hword

theorem formOf_of_tight (h : tree.Formed Token.Legible) (hrank : 3 ≤ tree.rank) :
    formOf tree.symbols = if tree.symbols.getLast? = some ")" then
      open scoped Classical in if Divided tree.symbols then .call else .enclosed
      else if tree.symbols.length = 1 then .single else .property := by
  have hequal : Free "=" tree.symbols := h.free equal_mem_separators (by omega)
  have hor : Free "or" tree.symbols := h.free (show ("or", 2) ∈ separators by decide) (by omega)
  have hand : Free "and" tree.symbols := h.free (show ("and", 3) ∈ separators by decide) (by omega)
  rw [formOf, if_neg (not_not.mpr hequal), if_neg (not_not.mpr ⟨hor, hand⟩)]

theorem formOf_symbols (h : tree.Formed Token.Legible) : formOf tree.symbols = tree.form := by
  have hassignment {before after : List String} (hbefore : Balanced before)
      (htree : tree.symbols = before ++ "=" :: after) : formOf tree.symbols = .assignment := by
    rw [formOf, if_pos (htree ▸ not_free hbefore)]
  have hsingle {symbol : String} (htree : tree.symbols = [symbol]) (hrank : 3 ≤ tree.rank)
      (hcontent : Content symbol) : formOf tree.symbols = .single := by
    have hlast : ¬ [symbol].getLast? = some ")" := by simpa using hcontent.inner.2
    rw [h.formOf_of_tight hrank, htree, if_neg hlast, if_pos List.length_singleton]
  have henclosed {symbols : List String} (htree : tree.symbols = "(" :: (symbols ++ [")"])) (hrank : 3 ≤ tree.rank)
      (hbalanced : Balanced symbols) : formOf tree.symbols = .enclosed := by
    have hlast : ("(" :: symbols ++ [")"]).getLast? = some ")" := List.getLast?_concat
    rw [h.formOf_of_tight hrank, htree, ← List.cons_append, if_pos hlast, if_neg]
    rintro ⟨before, hbefore, hne, hpart, hcount⟩
    exact absurd hcount (hbalanced.lt_of_enclosed hbefore hne hpart).ne'
  have hformed := h
  cases h with
  | @assign name value hname hvalue =>
      have hbefore : Balanced [name.lexeme, " "] :=
        (balanced_nil.cons inner_blank).cons (hname.content (by decide)).inner
      exact hassignment hbefore rfl
  | @binary left right operator hleft hoperator hright hloose htight =>
      have hrank := Kind.rank_of_mem_operators hoperator.2
      have hoperands := hleft.balanced.append (hright.balanced.cons inner_blank)
      refine henclosed ?_ hrank.1 ((hoperands.cons inner_blank).cons (hoperator.content (by decide)).inner)
      simp [symbols]
  | @call callee paren arguments hcallee hparen harguments htight =>
      have hlast : (callee.symbols ++ "(" :: (Expr.listSymbols arguments ++ [")"])).getLast? = some ")" := by
        rw [← List.cons_append, ← List.append_assoc, List.getLast?_concat]
      have hdivided : Divided (callee.symbols ++ "(" :: (Expr.listSymbols arguments ++ [")"])) :=
        ⟨callee.symbols, List.prefix_append _ _, callee.symbols_ne_nil, by simp, hcallee.balanced.count_eq⟩
      rw [hformed.formOf_of_tight (show 3 ≤ 8 by decide), symbols, if_pos hlast, if_pos hdivided]
      rfl
  | @get object name hobject hname htight =>
      have hlast : ¬ (object.symbols ++ [".", name.lexeme]).getLast? = some ")" := by
        simpa using (hname.content (by decide)).inner.2
      have hlength : ¬ (object.symbols ++ [".", name.lexeme]).length = 1 := by simp
      rw [hformed.formOf_of_tight (show 3 ≤ 8 by decide), symbols, if_neg hlast, if_neg hlength]
      rfl
  | grouping hinner =>
      exact henclosed rfl (show 3 ≤ 9 by decide) ((hinner.balanced.cons inner_blank).cons content_group.inner)
  | truth value => exact hsingle rfl (show 3 ≤ 9 by decide) (Literal.Legible.bool value).content
  | nil => exact hsingle rfl (show 3 ≤ 9 by decide) Literal.Legible.none.content
  | constant htoken hkind => exact hsingle rfl (show 3 ≤ 9 by decide) (htoken.literal hkind).content
  | @logical left right operator hleft hoperator hkind hright hloose htight =>
      have hword := hleft.not_free_logical operator right
      have hlimit : ¬ (Free "or" (left.logical operator right).symbols ∧
          Free "and" (left.logical operator right).symbols) := by
        obtain ⟨hlexeme, -⟩ | ⟨hlexeme, -⟩ := logical_cases hoperator hkind <;> rw [hlexeme] at hword
        · exact fun h => hword h.1
        · exact fun h => hword h.2
      have hrank : 1 ≤ operator.kind.rank := by
        obtain ⟨-, hrank⟩ | ⟨-, hrank⟩ := logical_cases hoperator hkind <;> omega
      rw [formOf, if_neg (not_not.mpr (hformed.free equal_mem_separators hrank)), if_pos hlimit]
      rfl
  | @set object value name hobject hname hvalue htight =>
      have hproperty := (balanced_nil.cons inner_blank).cons (hname.content (by decide)).inner
      exact hassignment (hobject.balanced.append (hproperty.cons inner_point)) (by simp [symbols]; rfl)
  | this hkeyword => exact hsingle rfl (show 3 ≤ 9 by decide) (hkeyword.content (by decide))
  | unary hoperator hright =>
      exact henclosed rfl (show 3 ≤ 7 by decide)
        ((hright.balanced.cons inner_blank).cons (hoperator.content (by decide)).inner)
  | «variable» hname => exact hsingle rfl (show 3 ≤ 9 by decide) (hname.content (by decide))

end Expr.Formed

/-! ### Tokens -/

theorem Use.Of.lines {use : Use} {token token' : Token} (h : use.Of Token.Legible token)
    (h' : use.Of Token.Legible token') (huse : use ≠ .mark) (hlexeme : token.lexeme = token'.lexeme) :
    ∃ line, token' = { token with line } := by
  have hkind : token'.kind = token.kind := (h'.lexeme huse).kind_unique (hlexeme ▸ h.lexeme huse)
  exact Token.ReadsAs.exists_line ⟨hkind, hlexeme.symm⟩ h.1.spelled.literal h'.1.spelled.literal

/-- All closing parentheses are written alike. -/
theorem Use.Of.lines_of_paren {token token' : Token} (h : Use.paren.Of Token.Legible token)
    (h' : Use.paren.Of Token.Legible token') : ∃ line, token' = { token with line } := by
  have hlexeme : Lexeme .rightParen token.lexeme.toList := h.lexeme_of_kind h.2 nofun
  have hlexeme' : Lexeme .rightParen token'.lexeme.toList := h'.lexeme_of_kind h'.2 nofun
  exact h.lines h' nofun (String.toList_inj.mp (hlexeme.text_unique hlexeme' (by decide)))

/-- Numbers are written with digits that tell them from each other. -/
theorem Literal.Legible.eq_of_text {value value' : Literal} (h : value.Legible) (h' : value'.Legible)
    (hsame : value.text = value'.text) : value = value' := by
  have hkind : value.kind = value'.kind := h.lexeme.kind_unique (hsame ▸ h'.lexeme)
  cases h with
  | none =>
      cases h' with
      | none => rfl
      | bool value' => cases value' <;> cases hkind
      | number => cases hkind
  | bool value =>
      cases h' with
      | none => cases value <;> cases hkind
      | bool value' => cases value <;> cases value' <;> first | rfl | cases hkind
      | number => cases value <;> cases hkind
  | number hfinite hsign =>
      cases h' with
      | none => cases hkind
      | bool value' => cases value' <;> cases hkind
      | number hfinite' hsign' => rw [Number.render_inj hfinite hsign hfinite' hsign' hsame]

theorem Literal.kind_ne (value : Literal) : value.kind ≠ .thisWord ∧ value.kind ≠ .identifier := by
  cases value with
  | bool value => cases value <;> exact ⟨nofun, nofun⟩
  | none | number | string | identifier => exact ⟨nofun, nofun⟩

/-! ### Parts -/

section Targets

variable {name name' : String} {last last' : List String}

/-- What stands before the sign of an assignment. -/
structure Target (symbols : List String) : Prop where
  balanced : Balanced symbols
  free : Free "=" symbols

theorem target_name (h : Content name) : Target [name, " "] where
  balanced := (balanced_nil.cons inner_blank).cons h.inner
  free :=
    ((free_nil _).cons inner_blank (by decide)).cons h.inner (ne_content_of_mem_separators equal_mem_separators h)

theorem target_property {object : Expr} (hobject : object.Formed Token.Legible) (hrank : 8 ≤ object.rank)
    (h : Content name) : Target (object.symbols ++ [".", name, " "]) where
  balanced := hobject.balanced.append ((target_name h).balanced.cons inner_point)
  free := by
    have hfree := hobject.free equal_mem_separators (by omega)
    exact hfree.append hobject.balanced ((target_name h).free.cons inner_point (by decide))

theorem Target.split {symbols symbols' : List String} (h : Target symbols) (h' : Target symbols')
    (hsame : symbols ++ "=" :: last = symbols' ++ "=" :: last') : symbols = symbols' ∧ last = last' :=
  split_first h.balanced h'.balanced h.free h'.free hsame

theorem target_name_ne_property (symbols : List String) : [name, " "] ≠ symbols ++ [".", name', " "] := by
  intro heq
  have hlength := congrArg List.length heq
  rw [List.length_append] at hlength
  simp at hlength

end Targets

namespace Expr

variable {tree tree' : Expr}

theorem Formed.form_eq (h : tree.Formed Token.Legible) (h' : tree'.Formed Token.Legible)
    (hsame : tree.symbols = tree'.symbols) : tree'.form = tree.form := by
  rw [← h.formOf_symbols, ← h'.formOf_symbols, hsame]

/-- An operand with a blank behind it, if no logical operator can be in it. -/
theorem Formed.split_blank (h : tree.Formed Token.Legible) (h' : tree'.Formed Token.Legible) (hrank : 3 ≤ tree.rank)
    (hrank' : 3 ≤ tree'.rank) {last last' : List String}
    (hsame : tree.symbols ++ " " :: last = tree'.symbols ++ " " :: last') :
    tree.symbols = tree'.symbols ∧ last = last' :=
  split_first h.balanced h'.balanced (h.free blank_mem_separators hrank) (h'.free blank_mem_separators hrank') hsame

/-- Lists of expressions are split at their commas. -/
theorem listSymbols_inj {trees trees' : List Expr} (h : ∀ tree ∈ trees, tree.Formed Token.Legible)
    (h' : ∀ tree ∈ trees', tree.Formed Token.Legible) {R : Expr → Expr → Prop}
    (hrelated : ∀ tree ∈ trees, ∀ tree', tree'.Formed Token.Legible → tree.symbols = tree'.symbols → R tree tree')
    (hsame : listSymbols trees = listSymbols trees') : List.Forall₂ R trees trees' := by
  have hfree {tree : Expr} (h : tree.Formed Token.Legible) : Free "," tree.symbols :=
    h.free (show (",", 0) ∈ separators by decide) (Nat.zero_le _)
  match trees, trees' with
  | [], [] => exact .nil
  | [], [tree'] => exact absurd hsame.symm tree'.symbols_ne_nil
  | [], tree' :: next' :: rest' => simp [listSymbols] at hsame
  | [tree], [] => exact absurd hsame tree.symbols_ne_nil
  | tree :: next :: rest, [] => simp [listSymbols] at hsame
  | [tree], [tree'] => exact .cons (hrelated tree List.mem_cons_self tree' (h' tree' List.mem_cons_self) hsame) .nil
  | [tree], tree' :: next' :: rest' =>
      have hlist : tree.symbols = tree'.symbols ++ "," :: listSymbols (next' :: rest') := hsame
      have hinner := hfree (h tree List.mem_cons_self)
      rw [hlist] at hinner
      exact absurd hinner (not_free (h' tree' List.mem_cons_self).balanced)
  | tree :: next :: rest, [tree'] =>
      have hlist : tree.symbols ++ "," :: listSymbols (next :: rest) = tree'.symbols := hsame
      have hinner := hfree (h' tree' List.mem_cons_self)
      rw [← hlist] at hinner
      exact absurd hinner (not_free (h tree List.mem_cons_self).balanced)
  | tree :: next :: rest, tree' :: next' :: rest' =>
      rw [List.forall_mem_cons] at h h' hrelated
      obtain ⟨hfirst, hrest⟩ := split_first h.1.balanced h'.1.balanced (hfree h.1) (hfree h'.1) hsame
      exact .cons (hrelated.1 tree' h'.1 hfirst) (listSymbols_inj h.2 h'.2 hrelated.2 hrest)

/-! ### Trees -/

theorem not_group {use : Use} {operator : Token} (h : use.Of Token.Legible operator)
    (huse : use = .operator ∨ use = .sign) : operator.lexeme ≠ "group" := by
  have hoperators : ∀ kind ∈ Kind.operators, kind ≠ .identifier := by decide
  have hfits := h.2
  refine (h.lexeme (by rintro rfl; simp at huse)).ne lexeme_group ?_
  rcases huse with rfl | rfl
  · exact hoperators _ hfits
  · rcases hfits with hkind | hkind <;> simp [hkind]

/-- Between parentheses, an operator with two operands is told from a sign by the blank between them. -/
theorem Formed.unary_ne_binary {left right operand : Expr} (hleft : left.Formed Token.Legible)
    (hoperand : operand.Formed Token.Legible) (hrank : 7 ≤ operand.rank) :
    operand.symbols ++ [")"] ≠ left.symbols ++ " " :: (right.symbols ++ [")"]) := by
  intro heq
  rw [← List.cons_append, ← List.append_assoc] at heq
  have hfree := hoperand.free blank_mem_separators (by omega)
  rw [List.append_cancel_right heq] at hfree
  exact not_free hleft.balanced hfree

/-- Of two logical expressions with the same symbols, neither binds more tightly. -/
theorem Formed.rank_le_of_logical {left right : Expr} {operator : Token} (hleft : left.Formed Token.Legible)
    (hoperator : operator.Legible) (hkind : operator.kind = .orWord ∨ operator.kind = .andWord)
    (h' : tree'.Formed Token.Legible) (hsame : (Expr.logical left operator right).symbols = tree'.symbols) :
    tree'.rank ≤ operator.kind.rank := by
  by_contra htighter
  have hfree := h'.free (mem_separators_of_logical hoperator hkind) (by omega)
  rw [← hsame] at hfree
  exact hleft.not_free_logical operator right hfree

theorem same_operator {operator operator' : Token} (h : operator.Legible)
    (hkind : operator.kind = .orWord ∨ operator.kind = .andWord) (h' : operator'.Legible)
    (hkind' : operator'.kind = .orWord ∨ operator'.kind = .andWord)
    (hrank : operator.kind.rank = operator'.kind.rank) :
    operator.lexeme = operator'.lexeme ∧ operator.kind = operator'.kind := by
  have hlexeme : operator.lexeme = operator'.lexeme := by
    obtain ⟨hword, _⟩ | ⟨hword, _⟩ := logical_cases h hkind <;>
      obtain ⟨hword', _⟩ | ⟨hword', _⟩ := logical_cases h' hkind' <;>
        first | exact hword.trans hword'.symm | omega
  have hwritten {token : Token} (h : token.Legible) (hkind : token.kind = .orWord ∨ token.kind = .andWord) :
      Lexeme token.kind token.lexeme.toList :=
    h.lexeme (by rcases hkind with hkind | hkind <;> simp [hkind])
  exact ⟨hlexeme, (hwritten h hkind).kind_unique (hlexeme ▸ hwritten h' hkind')⟩

/-- Operands of the same logical operator are split at the last one outside of parentheses. -/
theorem Formed.split_logical {left right left' right' : Expr} {operator : Token} (hoperator : operator.Legible)
    (hkind : operator.kind = .orWord ∨ operator.kind = .andWord) (hright : right.Formed Token.Legible)
    (hright' : right'.Formed Token.Legible) (hrank : operator.kind.rank < right.rank)
    (hrank' : operator.kind.rank < right'.rank)
    (hsame : left.symbols ++ " " :: operator.lexeme :: " " :: right.symbols =
      left'.symbols ++ " " :: operator.lexeme :: " " :: right'.symbols) :
    left.symbols = left'.symbols ∧ right.symbols = right'.symbols := by
  have hword := mem_separators_of_logical hoperator hkind
  have hsecond : operator.kind.rank < 3 := by
    obtain ⟨-, hrank⟩ | ⟨-, hrank⟩ := logical_cases hoperator hkind <;> omega
  have hblank : operator.lexeme ≠ " " := by
    obtain ⟨hlexeme, -⟩ | ⟨hlexeme, -⟩ := logical_cases hoperator hkind <;> rw [hlexeme] <;> decide
  have hbehind {operand : Expr} (h : operand.Formed Token.Legible) (hrank : operator.kind.rank < operand.rank) :
      Balanced (" " :: operand.symbols) ∧ Free operator.lexeme (" " :: operand.symbols) :=
    ⟨h.balanced.cons inner_blank, (h.free hword hrank).cons inner_blank hblank⟩
  rw [List.append_cons, List.append_cons left'.symbols] at hsame
  obtain ⟨hfirst, hlast⟩ := split_last (inner_of_mem_separators hword) (hbehind hright hrank).1
    (hbehind hright' hrank').1 (hbehind hright hrank).2 (hbehind hright' hrank').2 hsame
  exact ⟨List.append_cancel_right hfirst, (List.cons.inj hlast).2⟩

/-- The kind of the only token of an expression that is a single symbol. -/
def singleKind : Expr → Kind
  | .literal value => value.kind
  | .this _ => .thisWord
  | .variable _ => .identifier
  | _ => .endMark

theorem Formed.lexeme_of_single (h : tree.Formed Token.Legible) (hform : tree.form = .single) :
    ∃ symbol, tree.symbols = [symbol] ∧ Lexeme tree.singleKind symbol.toList := by
  cases tree with
  | literal => exact ⟨_, rfl, h.legible.lexeme⟩
  | this =>
      cases h with
      | this hkeyword => exact ⟨_, rfl, hkeyword.lexeme_of_kind hkeyword.2 nofun⟩
  | «variable» =>
      cases h with
      | «variable» hname => exact ⟨_, rfl, hname.lexeme_of_kind hname.2 nofun⟩
  | _ => cases hform

theorem Formed.like_of_single (h : tree.Formed Token.Legible) (h' : tree'.Formed Token.Legible)
    (hform : tree.form = .single) (hsame : tree.symbols = tree'.symbols) : Like .lines tree tree' := by
  have hform' : tree'.form = .single := (h.form_eq h' hsame).trans hform
  have hkind : tree.singleKind = tree'.singleKind := by
    obtain ⟨symbol, hsymbols, hlexeme⟩ := h.lexeme_of_single hform
    obtain ⟨symbol', hsymbols', hlexeme'⟩ := h'.lexeme_of_single hform'
    obtain rfl : symbol = symbol' := by simpa [hsymbols, hsymbols'] using hsame
    exact hlexeme.kind_unique hlexeme'
  cases tree with
  | literal value =>
      cases tree' with
      | literal value' =>
          rw [h.legible.eq_of_text h'.legible (List.singleton_inj.mp hsame)]
          exact .literal value'
      | this => exact absurd hkind value.kind_ne.1
      | «variable» => exact absurd hkind value.kind_ne.2
      | _ => cases hform'
  | this =>
      cases tree' with
      | literal value' => exact absurd hkind.symm value'.kind_ne.1
      | this =>
          cases h with | this hkeyword =>
          cases h' with | this hkeyword' =>
          exact .this (hkeyword.lines hkeyword' nofun (List.singleton_inj.mp hsame))
      | «variable» => cases hkind
      | _ => cases hform'
  | «variable» =>
      cases tree' with
      | literal value' => exact absurd hkind.symm value'.kind_ne.2
      | this => cases hkind
      | «variable» =>
          cases h with | «variable» hname =>
          cases h' with | «variable» hname' =>
          exact .variable (hname.lines hname' nofun (List.singleton_inj.mp hsame))
      | _ => cases hform'
  | _ => cases hform

theorem Formed.like_of_symbols (h : tree.Formed Token.Legible) (h' : tree'.Formed Token.Legible)
    (hsame : tree.symbols = tree'.symbols) : Like .lines tree tree' := by
  induction h generalizing tree' with
  | assign hname hvalue ih =>
      have hform := Formed.form_eq (.assign hname hvalue) h' hsame
      cases h' with
      | assign hname' hvalue' =>
          simp only [symbols, List.cons.injEq, true_and] at hsame
          exact .assign (hname.lines hname' nofun hsame.1) (ih hvalue' hsame.2)
      | set hobject' hname' hvalue' htight' =>
          have htarget := target_property hobject' htight' (hname'.content (by decide))
          have htargetName := target_name (hname.content (by decide))
          obtain ⟨hfirst, -⟩ := htargetName.split htarget (by simpa [symbols] using hsame)
          exact absurd hfirst (target_name_ne_property _)
      | _ => cases hform
  | binary hleft hoperator hright hloose htight ihLeft ihRight =>
      have hform := Formed.form_eq (.binary hleft hoperator hright hloose htight) h' hsame
      have hrank := Kind.rank_of_mem_operators hoperator.2
      cases h' with
      | binary hleft' hoperator' hright' hloose' htight' =>
          have hrank' := Kind.rank_of_mem_operators hoperator'.2
          simp only [symbols, List.cons.injEq, true_and] at hsame
          obtain ⟨hlexeme, hsame⟩ := hsame
          obtain ⟨hsameLeft, hrest⟩ := hleft.split_blank hleft' (by omega) (by omega) hsame
          have hsameRight := List.append_cancel_right hrest
          have hlines := hoperator.lines hoperator' nofun hlexeme
          exact .binary (ihLeft hleft' hsameLeft) hlines (ihRight hright' hsameRight)
      | unary hoperator' hright' htight' =>
          simp only [symbols, List.cons.injEq, true_and] at hsame
          exact absurd hsame.2.symm (hleft.unary_ne_binary hright' htight')
      | grouping hinner' =>
          simp only [symbols, List.cons.injEq, true_and] at hsame
          exact absurd hsame.1 (not_group hoperator (.inl rfl))
      | _ => cases hform
  | @call callee paren arguments hcallee hparen harguments htight ihCallee ihArguments =>
      have hform := Formed.form_eq (.call hcallee hparen harguments htight) h' hsame
      cases h' with
      | call hcallee' hparen' harguments' htight' =>
          simp only [symbols] at hsame
          rw [← List.cons_append, ← List.append_assoc, ← List.cons_append, ← List.append_assoc] at hsame
          have hbalanced := listSymbols_balanced fun tree htree => (harguments tree htree).balanced
          have hbalanced' := listSymbols_balanced fun tree htree => (harguments' tree htree).balanced
          obtain ⟨hsameCallee, hsameArguments⟩ := split_enclosed hcallee.balanced hcallee'.balanced hbalanced
            hbalanced' (List.append_cancel_right hsame)
          exact .call (ihCallee hcallee' hsameCallee) (hparen.lines_of_paren hparen')
            (listSymbols_inj harguments harguments' (fun tree htree _ => ihArguments tree htree) hsameArguments)
      | _ => cases hform
  | get hobject hname htight ih =>
      have hform := Formed.form_eq (.get hobject hname htight) h' hsame
      cases h' with
      | get hobject' hname' htight' =>
          obtain ⟨hsameObject, hsameName⟩ := List.append_inj' hsame rfl
          simp only [List.cons.injEq, and_true, true_and] at hsameName
          exact .get (ih hobject' hsameObject) (hname.lines hname' nofun hsameName)
      | _ => cases hform
  | grouping hinner ih =>
      have hform := Formed.form_eq (.grouping hinner) h' hsame
      cases h' with
      | binary hleft' hoperator' =>
          simp only [symbols, List.cons.injEq, true_and] at hsame
          exact absurd hsame.1.symm (not_group hoperator' (.inl rfl))
      | unary hoperator' =>
          simp only [symbols, List.cons.injEq, true_and] at hsame
          exact absurd hsame.1.symm (not_group hoperator' (.inr rfl))
      | grouping hinner' =>
          simp only [symbols, List.cons.injEq, true_and] at hsame
          exact .grouping (ih hinner' (List.append_cancel_right hsame))
      | _ => cases hform
  | truth value => exact Formed.like_of_single (.truth value) h' rfl hsame
  | nil => exact Formed.like_of_single .nil h' rfl hsame
  | constant htoken hkind => exact Formed.like_of_single (.constant htoken hkind) h' rfl hsame
  | logical hleft hoperator hkind hright hloose htight ihLeft ihRight =>
      have hform := Formed.form_eq (.logical hleft hoperator hkind hright hloose htight) h' hsame
      have hrank := Formed.rank_le_of_logical hleft hoperator hkind h' hsame
      cases h' with
      | logical hleft' hoperator' hkind' hright' hloose' htight' =>
          have hrank' := Formed.rank_le_of_logical hleft' hoperator' hkind'
            (.logical hleft hoperator hkind hright hloose htight) hsame.symm
          obtain ⟨hlexeme, hsameKind⟩ :=
            same_operator hoperator hkind hoperator' hkind' (Nat.le_antisymm hrank' hrank)
          simp only [symbols] at hsame
          rw [← hlexeme] at hsame
          rw [← hsameKind] at htight'
          obtain ⟨hsameLeft, hsameRight⟩ := split_logical hoperator hkind hright hright' htight htight' hsame
          have hlines := Token.ReadsAs.exists_line ⟨hsameKind.symm, hlexeme.symm⟩ hoperator.spelled.literal
            hoperator'.spelled.literal
          exact .logical (ihLeft hleft' hsameLeft) hlines (ihRight hright' hsameRight)
      | _ => cases hform
  | set hobject hname hvalue htight ihObject ihValue =>
      have hform := Formed.form_eq (.set hobject hname hvalue htight) h' hsame
      have htarget := target_property hobject htight (hname.content (by decide))
      cases h' with
      | assign hname' hvalue' =>
          have htargetName := target_name (hname'.content (by decide))
          obtain ⟨hfirst, -⟩ := htarget.split htargetName (by simpa [symbols] using hsame)
          exact absurd hfirst.symm (target_name_ne_property _)
      | set hobject' hname' hvalue' htight' =>
          have htarget' := target_property hobject' htight' (hname'.content (by decide))
          obtain ⟨hfirst, hlast⟩ := htarget.split htarget' (by simpa [symbols] using hsame)
          obtain ⟨hsameObject, hsameName⟩ := List.append_inj' hfirst rfl
          simp only [List.cons.injEq, and_true, true_and] at hsameName hlast
          exact .set (ihObject hobject' hsameObject) (hname.lines hname' nofun hsameName) (ihValue hvalue' hlast)
      | _ => cases hform
  | this hkeyword => exact Formed.like_of_single (.this hkeyword) h' rfl hsame
  | unary hoperator hright htight ih =>
      have hform := Formed.form_eq (.unary hoperator hright htight) h' hsame
      cases h' with
      | binary hleft' =>
          simp only [symbols, List.cons.injEq, true_and] at hsame
          exact absurd hsame.2 (hleft'.unary_ne_binary hright htight)
      | unary hoperator' hright' =>
          simp only [symbols, List.cons.injEq, true_and] at hsame
          obtain ⟨hlexeme, hsame⟩ := hsame
          exact .unary (hoperator.lines hoperator' nofun hlexeme) (ih hright' (List.append_cancel_right hsame))
      | grouping =>
          simp only [symbols, List.cons.injEq, true_and] at hsame
          exact absurd hsame.1 (not_group hoperator (.inr rfl))
      | _ => cases hform
  | «variable» hname => exact Formed.like_of_single (.variable hname) h' rfl hsame

end Expr

end Script
