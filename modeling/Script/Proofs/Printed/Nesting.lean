import Script.Proofs.Printed.Symbols

/-!
# Parentheses in printed expressions

Operands of logical operators, callees and assigned values stand without parentheses. What tells where they end is
what does not occur in them outside of parentheses, and this depends on how tightly they bind.
-/

namespace Script

open Piece

variable {symbol : String} {symbols symbols' : List String}

/-! ### Rows of symbols -/

/-- All parentheses are closed, and none before it is opened. -/
structure Balanced (symbols : List String) : Prop where
  count_eq : symbols.count "(" = symbols.count ")"
  count_le : ∀ before, before <+: symbols → before.count ")" ≤ before.count "("

/-- The symbol does not occur but inside of parentheses. -/
def Free (symbol : String) (symbols : List String) : Prop :=
  ∀ before after, symbols = before ++ symbol :: after → before.count "(" ≠ before.count ")"

theorem balanced_nil : Balanced [] :=
  ⟨rfl, fun _ hbefore => Nat.le_of_eq (by rw [List.prefix_nil.mp hbefore]; rfl)⟩

theorem free_nil (symbol : String) : Free symbol [] :=
  fun _ _ h => by simp at h

theorem Balanced.append (h : Balanced symbols) (h' : Balanced symbols') : Balanced (symbols ++ symbols') := by
  refine ⟨by rw [List.count_append, List.count_append, h.count_eq, h'.count_eq], fun before hbefore => ?_⟩
  obtain ⟨after, hafter⟩ := hbefore
  rcases List.append_eq_append_iff.mp hafter with ⟨middle, rfl, -⟩ | ⟨middle, rfl, rfl⟩
  · exact h.count_le before (List.prefix_append _ _)
  · have hmiddle := h'.count_le middle (List.prefix_append _ _)
    rw [List.count_append, List.count_append, h.count_eq]
    exact Nat.add_le_add_left hmiddle _

theorem Free.append (hbalanced : Balanced symbols) (h : Free symbol symbols) (h' : Free symbol symbols') :
    Free symbol (symbols ++ symbols') := by
  intro before after hwhole
  rcases List.append_eq_append_iff.mp hwhole with ⟨middle, rfl, hrest⟩ | ⟨middle, hfirst, hrest⟩
  · have hmiddle := h' middle after hrest
    rw [List.count_append, List.count_append, hbalanced.count_eq]
    omega
  · cases middle with
    | nil => exact absurd rfl (h' [] after hrest.symm)
    | cons _ middle =>
        obtain ⟨rfl, -⟩ := List.cons.inj hrest
        exact h before middle hfirst

/-- A symbol that is no parenthesis. -/
def Inner (symbol : String) : Prop :=
  symbol ≠ "(" ∧ symbol ≠ ")"

theorem Inner.count_cons {inner : String} (hinner : Inner inner) :
    (inner :: symbols).count "(" = symbols.count "(" ∧ (inner :: symbols).count ")" = symbols.count ")" :=
  ⟨List.count_cons_of_ne hinner.1, List.count_cons_of_ne hinner.2⟩

theorem Balanced.cons {inner : String} (hinner : Inner inner) (h : Balanced symbols) :
    Balanced (inner :: symbols) := by
  obtain ⟨hopened, hclosed⟩ := @hinner.count_cons symbols
  refine ⟨by rw [hopened, hclosed, h.count_eq], fun before hbefore => ?_⟩
  rcases List.prefix_cons_iff.mp hbefore with rfl | ⟨inside, rfl, hinside⟩
  · exact Nat.le_refl 0
  · rw [hinner.count_cons.1, hinner.count_cons.2]
    exact h.count_le inside hinside

theorem Free.cons {inner : String} (hinner : Inner inner) (hne : symbol ≠ inner) (h : Free symbol symbols) :
    Free symbol (inner :: symbols) := by
  intro before after hwhole
  cases before with
  | nil => exact absurd (List.cons.inj hwhole).1.symm hne
  | cons _ before =>
      obtain ⟨rfl, hrest⟩ := List.cons.inj hwhole
      rw [hinner.count_cons.1, hinner.count_cons.2]
      exact h before after hrest

/-- Between its first and its last symbol, a row in parentheses is inside of them. -/
theorem Balanced.lt_of_enclosed (h : Balanced symbols) {before : List String}
    (hbefore : before <+: "(" :: (symbols ++ [")"])) (hne : before ≠ [])
    (hpart : before ≠ "(" :: (symbols ++ [")"])) : before.count ")" < before.count "(" := by
  rcases List.prefix_cons_iff.mp hbefore with rfl | ⟨inside, rfl, hinside⟩
  · exact absurd rfl hne
  rcases List.prefix_concat_iff.mp hinside with rfl | hinside
  · exact absurd rfl hpart
  · have hle := h.count_le inside hinside
    rw [List.count_cons_self, List.count_cons_of_ne (by decide)]
    omega

theorem Balanced.enclosed (h : Balanced symbols) : Balanced ("(" :: (symbols ++ [")"])) := by
  have hcount : ("(" :: (symbols ++ [")"])).count "(" = ("(" :: (symbols ++ [")"])).count ")" := by
    simp [h.count_eq]
  refine ⟨hcount, fun before hbefore => ?_⟩
  by_cases hne : before = []
  · exact hne ▸ Nat.le_refl 0
  by_cases hpart : before = "(" :: (symbols ++ [")"])
  · exact hpart ▸ Nat.le_of_eq hcount.symm
  · exact Nat.le_of_lt (h.lt_of_enclosed hbefore hne hpart)

theorem Free.enclosed (h : Balanced symbols) (hsymbol : symbol ≠ "(") : Free symbol ("(" :: (symbols ++ [")"])) := by
  intro before after hwhole
  refine (h.lt_of_enclosed ⟨_, hwhole.symm⟩ ?_ ?_).ne'
  · rintro rfl
    exact hsymbol (List.cons.inj hwhole).1.symm
  · rintro rfl
    simp at hwhole

/-! ### Splitting a row -/

section Split

variable {first first' last last' : List String}

/-- A row that is split at two occurrences of a symbol is split at the same one, or one is behind the other. -/
theorem append_cons_cases (hsame : first ++ symbol :: last = first' ++ symbol :: last') :
    (first = first' ∧ last = last') ∨
      (∃ middle, first' = first ++ symbol :: middle ∧ last = middle ++ symbol :: last') ∨
      ∃ middle, first = first' ++ symbol :: middle ∧ last' = middle ++ symbol :: last := by
  rcases List.append_eq_append_iff.mp hsame with ⟨middle, hfirst, hrest⟩ | ⟨middle, hfirst, hrest⟩
  · cases middle with
    | nil => exact .inl ⟨by simpa using hfirst.symm, (List.cons.inj hrest).2⟩
    | cons _ middle =>
        obtain ⟨rfl, hlast⟩ := List.cons.inj hrest
        exact .inr (.inl ⟨middle, hfirst, hlast⟩)
  · cases middle with
    | nil => exact .inl ⟨by simpa using hfirst, (List.cons.inj hrest).2.symm⟩
    | cons _ middle =>
        obtain ⟨rfl, hlast⟩ := List.cons.inj hrest
        exact .inr (.inr ⟨middle, hfirst, hlast⟩)

/-- At the first place where a symbol is outside of parentheses. -/
theorem split_first (hbalanced : Balanced first) (hbalanced' : Balanced first') (hfree : Free symbol first)
    (hfree' : Free symbol first') (hsame : first ++ symbol :: last = first' ++ symbol :: last') :
    first = first' ∧ last = last' := by
  rcases append_cons_cases hsame with heq | ⟨middle, hfirst, -⟩ | ⟨middle, hfirst, -⟩
  · exact heq
  · exact absurd hbalanced.count_eq (hfree' _ _ hfirst)
  · exact absurd hbalanced'.count_eq (hfree _ _ hfirst)

theorem count_eq_of_append (hsymbol : Inner symbol) (hlast : Balanced last)
    (hwhole : Balanced (first ++ symbol :: last)) : first.count "(" = first.count ")" := by
  have hcount := hwhole.count_eq
  rw [List.count_append, List.count_append, hsymbol.count_cons.1, hsymbol.count_cons.2, hlast.count_eq] at hcount
  exact Nat.add_right_cancel hcount

/-- At the last place where a symbol is outside of parentheses. -/
theorem split_last (hsymbol : Inner symbol) (hbalanced : Balanced last) (hbalanced' : Balanced last')
    (hfree : Free symbol last) (hfree' : Free symbol last')
    (hsame : first ++ symbol :: last = first' ++ symbol :: last') : first = first' ∧ last = last' := by
  rcases append_cons_cases hsame with heq | ⟨middle, -, rfl⟩ | ⟨middle, -, rfl⟩
  · exact heq
  · exact absurd (count_eq_of_append hsymbol hbalanced' hbalanced) (hfree _ _ rfl)
  · exact absurd (count_eq_of_append hsymbol hbalanced hbalanced') (hfree' _ _ rfl)

/-- At the parenthesis that opens the last pair outside of all others. -/
theorem split_enclosed (hfirst : Balanced first) (hfirst' : Balanced first') (hlast : Balanced last)
    (hlast' : Balanced last') (hsame : first ++ "(" :: last = first' ++ "(" :: last') :
    first = first' ∧ last = last' := by
  have hbehind {before middle after inside : List String} (hbefore : Balanced before) (hinside : Balanced inside)
      (hmore : Balanced (before ++ "(" :: middle)) (hfront : inside = middle ++ after) : False := by
    have hle := hinside.count_le middle ⟨after, hfront.symm⟩
    have hcount := hmore.count_eq
    rw [List.count_append, List.count_append, hbefore.count_eq, List.count_cons_self,
      List.count_cons_of_ne (by decide)] at hcount
    omega
  rcases append_cons_cases hsame with heq | ⟨middle, rfl, hrest⟩ | ⟨middle, rfl, hrest⟩
  · exact heq
  · exact (hbehind hfirst hlast hfirst' hrest).elim
  · exact (hbehind hfirst' hlast' hfirst hrest).elim

end Split

/-! ### Symbols of expressions -/

section Lexemes

variable {kind kind' : Kind} {other : String}

theorem Lexeme.ne (h : Lexeme kind symbol.toList) (hother : Lexeme kind' other.toList) (hkind : kind ≠ kind') :
    symbol ≠ other := by
  rintro rfl
  exact hkind (h.kind_unique hother)

/-- Only names, numbers and strings can have different texts. -/
theorem Lexeme.text_unique {text text' : List Char} (h : Lexeme kind text) (h' : Lexeme kind text')
    (hkind : kind ∉ [.identifier, .number, .string]) : text = text' := by
  have hmarks : ∀ mark ∈ marks, ∀ mark' ∈ marks, mark.2 = mark'.2 → mark.1 = mark'.1 := by decide
  have hkeywords : ∀ entry ∈ Kind.keywords, ∀ entry' ∈ Kind.keywords, entry.2 = entry'.2 → entry.1 = entry'.1 := by
    decide
  have hapart : ∀ mark ∈ marks, ∀ entry ∈ Kind.keywords, mark.2 ≠ entry.2 := by decide
  cases h with
  | mark hmark =>
      cases h' with
      | mark hmark' => exact hmarks _ hmark _ hmark' rfl
      | keyword hword => exact absurd rfl (hapart _ hmark _ hword)
      | identifier | number | string => simp at hkind
  | keyword hword =>
      cases h' with
      | mark hmark => exact absurd rfl (hapart _ hmark _ hword)
      | keyword hword' => exact String.ofList_injective (hkeywords _ hword _ hword' rfl)
      | identifier | number | string => simp at hkind
  | identifier | number | string => simp at hkind

theorem Lexeme.ne_blank (h : Lexeme kind symbol.toList) : symbol ≠ " " := by
  rintro rfl
  exact absurd (Lexeme.isBlank_eq_false (c := ' ') h) (by decide)

end Lexemes

/-- The kinds of the symbols that stand between and around operands. -/
def Kind.structural : List Kind :=
  [.leftParen, .rightParen, .comma, .dot, .equal, .orWord, .andWord]

/-- A symbol that is an operand, or an operator or a word in front of operands in parentheses. -/
def Content (symbol : String) : Prop :=
  ∃ kind ∉ Kind.structural, Lexeme kind symbol.toList

theorem content_group : Content "group" :=
  ⟨.identifier, by decide, lexeme_group⟩

theorem Literal.Legible.content {value : Literal} (h : value.Legible) : Content value.text := by
  refine ⟨value.kind, ?_, h.lexeme⟩
  cases h with
  | none => decide
  | bool value => cases value <;> decide
  | number => exact fun h => absurd h (show Kind.number ∉ Kind.structural by decide)

theorem Use.Of.content {use : Use} {token : Token} (h : use.Of Token.Legible token) (huse : use ∉ [.mark, .paren]) :
    Content token.lexeme := by
  have hoperators : ∀ kind ∈ Kind.operators, kind ∉ Kind.structural := by decide
  refine ⟨token.kind, ?_, h.lexeme fun hmark => huse (by simp [hmark])⟩
  have hfits := h.2
  cases use with
  | name | receiver =>
      rw [show token.kind = _ from hfits]
      decide
  | operator => exact hoperators _ hfits
  | sign => rcases hfits with hkind | hkind <;> rw [hkind] <;> decide
  | paren | mark => simp at huse

/-- What separates operands from each other, and how tightly an expression has to bind to have none of it outside of
parentheses. -/
def separators : List (String × Nat) :=
  [(",", 0), ("=", 1), ("or", 2), ("and", 3), (" ", 3)]

theorem equal_mem_separators : ("=", 1) ∈ separators := by
  decide

theorem blank_mem_separators : (" ", 3) ∈ separators := by
  decide

theorem Content.inner (h : Content symbol) : Inner symbol := by
  obtain ⟨kind, hkind, hlexeme⟩ := h
  have hopening : Lexeme .leftParen "(".toList := .mark (by decide)
  have hclosing : Lexeme .rightParen ")".toList := .mark (by decide)
  constructor
  · exact hlexeme.ne hopening (by rintro rfl; exact hkind (by decide))
  · exact hlexeme.ne hclosing (by rintro rfl; exact hkind (by decide))

theorem ne_content_of_mem_separators {least : Nat} (h : (symbol, least) ∈ separators) {other : String}
    (hother : Content other) : symbol ≠ other := by
  obtain ⟨kind, hkind, hlexeme⟩ := hother
  have hne {kind' : Kind} {symbol : String} (hmem : kind' ∈ Kind.structural) (hsymbol : Lexeme kind' symbol.toList) :
      symbol ≠ other := hsymbol.ne hlexeme (by rintro rfl; exact hkind hmem)
  have hor : Kind.orWord ∈ Kind.structural := by decide
  have hand : Kind.andWord ∈ Kind.structural := by decide
  have hcomma : Kind.comma ∈ Kind.structural := by decide
  simp only [separators, List.mem_cons, Prod.mk.injEq, List.not_mem_nil, or_false] at h
  obtain ⟨rfl, -⟩ | ⟨rfl, -⟩ | ⟨rfl, -⟩ | ⟨rfl, -⟩ | ⟨rfl, -⟩ := h
  · exact hne hcomma (.mark (by decide))
  · exact hne (by decide) lexeme_equal
  · exact hne hor (.keyword (by decide))
  · exact hne hand (.keyword (by decide))
  · exact hlexeme.ne_blank.symm

theorem inner_blank : Inner " " :=
  ⟨by decide, by decide⟩

theorem inner_equal : Inner "=" :=
  ⟨by decide, by decide⟩

theorem inner_point : Inner "." :=
  ⟨by decide, by decide⟩

theorem inner_of_mem_separators {least : Nat} (h : (symbol, least) ∈ separators) : Inner symbol := by
  have hall : ∀ entry ∈ separators, entry.1 ≠ "(" ∧ entry.1 ≠ ")" := by decide
  exact hall _ h

theorem ne_of_mem_separators {least least' : Nat} {symbol' : String} (h : (symbol, least) ∈ separators)
    (h' : (symbol', least') ∈ separators) (hne : least ≠ least') : symbol ≠ symbol' := by
  have hall : ∀ entry ∈ separators, ∀ entry' ∈ separators, entry.1 = entry'.1 → entry.2 = entry'.2 := by decide
  rintro rfl
  exact hne (hall _ h _ h' rfl)

theorem logical_cases {operator : Token} (h : operator.Legible)
    (hkind : operator.kind = .orWord ∨ operator.kind = .andWord) :
    (operator.lexeme = "or" ∧ operator.kind.rank = 1) ∨ (operator.lexeme = "and" ∧ operator.kind.rank = 2) := by
  have hor : Lexeme .orWord "or".toList := .keyword (by decide)
  have hand : Lexeme .andWord "and".toList := .keyword (by decide)
  have hlexeme := h.lexeme (by rcases hkind with hkind | hkind <;> simp [hkind])
  rcases hkind with hkind | hkind <;> rw [hkind] at hlexeme ⊢
  · exact .inl ⟨String.toList_inj.mp (hlexeme.text_unique hor (by decide)), rfl⟩
  · exact .inr ⟨String.toList_inj.mp (hlexeme.text_unique hand (by decide)), rfl⟩

/-- A logical operator separates just those operands that bind more tightly. -/
theorem mem_separators_of_logical {operator : Token} (h : operator.Legible)
    (hkind : operator.kind = .orWord ∨ operator.kind = .andWord) :
    (operator.lexeme, operator.kind.rank + 1) ∈ separators := by
  obtain ⟨hword, hrank⟩ | ⟨hword, hrank⟩ := logical_cases h hkind <;> rw [hword, hrank] <;> decide

theorem Expr.listSymbols_balanced {trees : List Expr} (h : ∀ tree ∈ trees, Balanced tree.symbols) :
    Balanced (Expr.listSymbols trees) := by
  match trees with
  | [] => exact balanced_nil
  | [tree] => exact h tree List.mem_cons_self
  | tree :: next :: others =>
      rw [List.forall_mem_cons] at h
      exact h.1.append ((Expr.listSymbols_balanced h.2).cons ⟨by decide, by decide⟩)

namespace Expr.Formed

theorem balanced {tree : Expr} (h : tree.Formed Token.Legible) : Balanced tree.symbols := by
  have hsingle {symbol : String} (hsymbol : Inner symbol) : Balanced [symbol] := balanced_nil.cons hsymbol
  induction h with
  | assign hname _ ih =>
      have hvalue := ((ih.cons inner_blank).cons inner_equal).cons inner_blank
      exact hvalue.cons (hname.content (by decide)).inner
  | binary _ hoperator _ _ _ ihLeft ihRight =>
      have hoperands := ihLeft.append (ihRight.cons inner_blank)
      simpa [symbols] using ((hoperands.cons inner_blank).cons (hoperator.content (by decide)).inner).enclosed
  | call _ _ _ _ ihCallee ihArguments =>
      exact ihCallee.append (Expr.listSymbols_balanced ihArguments).enclosed
  | get _ hname _ ih => exact ih.append ((hsingle (hname.content (by decide)).inner).cons inner_point)
  | grouping _ ih => exact ((ih.cons inner_blank).cons content_group.inner).enclosed
  | truth value => exact hsingle (Literal.Legible.bool value).content.inner
  | nil => exact hsingle Literal.Legible.none.content.inner
  | constant htoken hkind => exact hsingle (htoken.literal hkind).content.inner
  | logical _ hoperator hkind _ _ _ ihLeft ihRight =>
      have hword := inner_of_mem_separators (mem_separators_of_logical hoperator hkind)
      exact ihLeft.append (((ihRight.cons inner_blank).cons hword).cons inner_blank)
  | set _ hname _ _ ihObject ihValue =>
      have hvalue := ((ihValue.cons inner_blank).cons inner_equal).cons inner_blank
      exact ihObject.append ((hvalue.cons (hname.content (by decide)).inner).cons inner_point)
  | this hkeyword => exact hsingle (hkeyword.content (by decide)).inner
  | unary hoperator _ _ ih => exact ((ih.cons inner_blank).cons (hoperator.content (by decide)).inner).enclosed
  | «variable» hname => exact hsingle (hname.content (by decide)).inner

/-- What does not separate the operands of an expression occurs only inside of parentheses. -/
theorem free {tree : Expr} (h : tree.Formed Token.Legible) {least : Nat} (hsymbol : (symbol, least) ∈ separators)
    (hrank : least ≤ tree.rank) : Free symbol tree.symbols := by
  have hcontent {other : String} (hother : Content other) {symbols : List String} (hrest : Free symbol symbols) :
      Free symbol (other :: symbols) := hrest.cons hother.inner (ne_content_of_mem_separators hsymbol hother)
  have henclosed {symbols : List String} (hbalanced : Balanced symbols) : Free symbol ("(" :: (symbols ++ [")"])) :=
    Free.enclosed hbalanced (inner_of_mem_separators hsymbol).1
  have hpoint {symbols : List String} (hrest : Free symbol symbols) : Free symbol ("." :: symbols) := by
    have hall : ∀ entry ∈ separators, entry.1 ≠ "." := by decide
    exact hrest.cons inner_point (hall _ hsymbol)
  have hblank {symbols : List String} (hless : least < 3) (hrest : Free symbol symbols) :
      Free symbol (" " :: symbols) :=
    hrest.cons inner_blank (ne_of_mem_separators hsymbol blank_mem_separators (by omega))
  have hequal {symbols : List String} (hless : least < 1) (hrest : Free symbol symbols) :
      Free symbol ("=" :: symbols) :=
    hrest.cons inner_equal (ne_of_mem_separators hsymbol equal_mem_separators (by omega))
  have hassigned {symbols : List String} (hless : least ≤ 0) (hrest : Free symbol symbols) :
      Free symbol (" " :: "=" :: " " :: symbols) :=
    hblank (by omega) (hequal (by omega) (hblank (by omega) hrest))
  have hmost : least ≤ 3 := by
    have hall : ∀ entry ∈ separators, entry.2 ≤ 3 := by decide
    exact hall _ hsymbol
  induction h with
  | assign hname _ ih =>
      exact hcontent (hname.content (by decide)) (hassigned hrank (ih (Nat.le_trans hrank (Nat.zero_le _))))
  | binary hleft hoperator hright =>
      have hinner := hleft.balanced.append (hright.balanced.cons inner_blank)
      simpa [symbols] using henclosed ((hinner.cons inner_blank).cons (hoperator.content (by decide)).inner)
  | call hcallee _ harguments htight ih =>
      have hbalanced := Expr.listSymbols_balanced fun tree htree => (harguments tree htree).balanced
      exact (ih (by omega)).append hcallee.balanced (henclosed hbalanced)
  | get hobject hname htight ih =>
      have hproperty := hpoint (hcontent (hname.content (by decide)) (free_nil symbol))
      exact (ih (by omega)).append hobject.balanced hproperty
  | grouping hinner => exact henclosed ((hinner.balanced.cons inner_blank).cons content_group.inner)
  | truth value => exact hcontent (Literal.Legible.bool value).content (free_nil symbol)
  | nil => exact hcontent Literal.Legible.none.content (free_nil symbol)
  | constant htoken hkind => exact hcontent (htoken.literal hkind).content (free_nil symbol)
  | @logical left right operator hleft hoperator hkind _ hloose htight ihLeft ihRight =>
      have hword := mem_separators_of_logical hoperator hkind
      have hsecond : operator.kind.rank < 3 := by rcases hkind with hkind | hkind <;> rw [hkind] <;> decide
      have hless : least ≤ operator.kind.rank := hrank
      have hother : symbol ≠ operator.lexeme := ne_of_mem_separators hsymbol hword (by omega)
      have hright := (hblank (by omega) (ihRight (by omega))).cons (inner_of_mem_separators hword) hother
      exact (ihLeft (by omega)).append hleft.balanced (hblank (by omega) hright)
  | set hobject hname _ htight ihObject ihValue =>
      have hvalue := hassigned hrank (ihValue (Nat.le_trans hrank (Nat.zero_le _)))
      exact (ihObject (by omega)).append hobject.balanced (hpoint (hcontent (hname.content (by decide)) hvalue))
  | this hkeyword => exact hcontent (hkeyword.content (by decide)) (free_nil symbol)
  | unary hoperator hright =>
      exact henclosed ((hright.balanced.cons inner_blank).cons (hoperator.content (by decide)).inner)
  | «variable» hname => exact hcontent (hname.content (by decide)) (free_nil symbol)

end Expr.Formed

end Script
