import Script.Proofs.Formed.Trees
import Script.Proofs.Printed.Numbers
import Script.Proofs.Scanning.Writing

/-!
# The symbols of a printed expression

A printed expression is a row of symbols: marks, words and numerals, with blanks around some of them. Where each of
them stands it is the piece that a scanner would take there, so the text can be cut into symbols in one way only.
-/

namespace Script

open Piece

/-! ### Symbols -/

mutual

/-- What an expression is printed as, symbol by symbol. -/
def Expr.symbols : Expr → List String
  | .assign name value => name.lexeme :: " " :: "=" :: " " :: value.symbols
  | .binary left operator right =>
    "(" :: operator.lexeme :: " " :: (left.symbols ++ " " :: (right.symbols ++ [")"]))
  | .call callee _ arguments => callee.symbols ++ "(" :: (Expr.listSymbols arguments ++ [")"])
  | .get object name => object.symbols ++ [".", name.lexeme]
  | .grouping inner => "(" :: "group" :: " " :: (inner.symbols ++ [")"])
  | .literal value => [value.text]
  | .logical left operator right => left.symbols ++ " " :: operator.lexeme :: " " :: right.symbols
  | .set object name value => object.symbols ++ "." :: name.lexeme :: " " :: "=" :: " " :: value.symbols
  | .this keyword => [keyword.lexeme]
  | .unary operator right => "(" :: operator.lexeme :: " " :: (right.symbols ++ [")"])
  | .variable name => [name.lexeme]

def Expr.listSymbols : List Expr → List String
  | [] => []
  | [tree] => tree.symbols
  | tree :: next :: rest => tree.symbols ++ "," :: Expr.listSymbols (next :: rest)

end

/-- The characters of the symbols. -/
def characters (symbols : List String) : List Char :=
  symbols.flatMap String.toList

section Characters

variable (symbol : String) (symbols symbols' : List String)

@[simp]
theorem characters_nil : characters [] = [] :=
  rfl

@[simp]
theorem characters_cons : characters (symbol :: symbols) = symbol.toList ++ characters symbols :=
  rfl

@[simp]
theorem characters_append : characters (symbols ++ symbols') = characters symbols ++ characters symbols' :=
  List.flatMap_append

end Characters

mutual

theorem Expr.toList_text (tree : Expr) : tree.text.toList = characters tree.symbols := by
  cases tree with
  | assign _ value => simp [Expr.text, Expr.symbols, value.toList_text]
  | binary left _ right => simp [Expr.text, Expr.symbols, left.toList_text, right.toList_text]
  | call callee _ arguments =>
      simp [Expr.text, Expr.symbols, callee.toList_text, Expr.toList_listText arguments]
  | get object => simp [Expr.text, Expr.symbols, object.toList_text]
  | grouping inner => simp [Expr.text, Expr.symbols, inner.toList_text]
  | logical left _ right => simp [Expr.text, Expr.symbols, left.toList_text, right.toList_text]
  | set object _ value => simp [Expr.text, Expr.symbols, object.toList_text, value.toList_text]
  | unary _ right => simp [Expr.text, Expr.symbols, right.toList_text]
  | literal | this | «variable» => simp [Expr.text, Expr.symbols]

theorem Expr.toList_listText (trees : List Expr) :
    (Expr.listText trees).toList = characters (Expr.listSymbols trees) := by
  match trees with
  | [] => rfl
  | [tree] => simp [Expr.listText, Expr.listSymbols, tree.toList_text]
  | tree :: next :: rest =>
      simp [Expr.listText, Expr.listSymbols, tree.toList_text, Expr.toList_listText (next :: rest)]

end

/-! ### One way to cut a text -/

/-- Each of the symbols is the piece that is taken where it stands. -/
def Fitted : List String → List Char → Prop
  | [], _ => True
  | symbol :: symbols, rest => (∃ shape, Fits shape symbol.toList (characters symbols ++ rest)) ∧ Fitted symbols rest

theorem fitted_append {symbols symbols' : List String} {rest : List Char} :
    Fitted (symbols ++ symbols') rest ↔ Fitted symbols (characters symbols' ++ rest) ∧ Fitted symbols' rest := by
  induction symbols with
  | nil => simp [Fitted]
  | cons symbol symbols ih => simp [Fitted, ih, and_assoc]

theorem Fitted.unique {symbols symbols' : List String} (h : Fitted symbols []) (h' : Fitted symbols' [])
    (hsame : characters symbols = characters symbols') : symbols = symbols' := by
  have hne {symbol : String} {others : List String} (hfitted : Fitted (symbol :: others) []) :
      characters (symbol :: others) ≠ [] := by
    obtain ⟨⟨_, hfits⟩, -⟩ := hfitted
    obtain ⟨c, tail, htext⟩ := hfits.exists_cons
    simp [htext]
  induction symbols generalizing symbols' with
  | nil =>
      cases symbols' with
      | nil => rfl
      | cons => exact absurd hsame.symm (hne h')
  | cons symbol symbols ih =>
      cases symbols' with
      | nil => exact absurd hsame (hne h)
      | cons symbol' symbols' =>
          obtain ⟨⟨shape, hfits⟩, hrest⟩ := h
          obtain ⟨⟨shape', hfits'⟩, hrest'⟩ := h'
          have hfirst : symbol = symbol' := by
            obtain ⟨c, tail, htext⟩ := hfits.exists_cons
            obtain ⟨c', tail', htext'⟩ := hfits'.exists_cons
            rw [htext] at hfits
            rw [htext'] at hfits'
            simp only [characters_cons, htext, htext', List.cons_append, List.cons.injEq] at hsame
            obtain ⟨rfl, hsame⟩ := hsame
            have hmeasure := hfits.measure_eq
            rw [List.append_nil, hsame, ← List.append_nil (characters symbols'), hfits'.measure_eq] at hmeasure
            rw [← String.toList_inj, htext, htext', (Prod.mk.inj hmeasure).2]
          subst hfirst
          rw [ih hrest hrest' (List.append_cancel_left hsame)]

/-! ### What may follow a symbol -/

/-- Neither a word nor a number goes on here. A point is one of a property. -/
inductive Bounded : List Char → Prop where
  | nil : Bounded []
  | mark {c : Char} {rest : List Char} (h : c ∈ [' ', '(', ')', ',']) : Bounded (c :: rest)
  | property {c : Char} {rest : List Char} (h : startsWord c = true) : Bounded ('.' :: c :: rest)

theorem Numeral.all {text : List Char} (h : Numeral text) : ∀ c ∈ text, (c.isDigit || c == '.') = true := by
  have hdigits {digits : List Char} (hdigits : ∀ d ∈ digits, d.isDigit = true) :
      ∀ c ∈ digits, (c.isDigit || c == '.') = true := fun c hc => by rw [hdigits c hc, Bool.true_or]
  cases h with
  | whole _ h => exact hdigits h
  | fraction _ h _ h' =>
      exact List.forall_mem_append.mpr ⟨hdigits h, List.forall_mem_cons.mpr ⟨rfl, hdigits h'⟩⟩

theorem Numeral.isDigit_getLast {text : List Char} (h : Numeral text) : ∀ c ∈ text.getLast?, c.isDigit = true := by
  have hlast {digits : List Char} (hdigits : ∀ d ∈ digits, d.isDigit = true) :
      ∀ c ∈ digits.getLast?, c.isDigit = true := fun c hc => hdigits c (List.mem_of_getLast? hc)
  cases h with
  | whole _ h => exact hlast h
  | @fraction digits places _ _ hplaces h =>
      intro c hc
      obtain ⟨d, places, rfl⟩ := List.exists_cons_of_ne_nil hplaces
      refine hlast h c ?_
      simpa using hc

/-- A point before a word is none of the number before it. -/
theorem Numeral.length_le_of_bounded {read text rest : List Char} (hread : Numeral read) (hrest : Bounded rest)
    (hstarts : read <+: text ++ rest) : read.length ≤ text.length := by
  cases hrest with
  | nil => exact length_le_of_stops hread.all (by simp) hstarts
  | mark h =>
      refine length_le_of_stops hread.all ?_ hstarts
      rintro _ ⟨⟩
      simp only [List.mem_cons, List.not_mem_nil, or_false] at h
      rcases h with rfl | rfl | rfl | rfl <;> rfl
  | @property c rest h =>
      have hpoint : text ++ '.' :: c :: rest = (text ++ ['.']) ++ c :: rest := by simp
      rw [hpoint] at hstarts
      have hword : (c.isDigit || c == '.') = false := by
        rw [isDigit_eq_false_of_startsWord h, Bool.false_or, beq_eq_false_iff_ne]
        rintro rfl
        cases h
      have hle : read.length ≤ (text ++ ['.']).length := by
        refine length_le_of_stops hread.all ?_ hstarts
        rintro _ ⟨⟩
        exact hword
      have hne : read.length ≠ (text ++ ['.']).length := by
        intro heq
        have hpoint := List.prefix_of_prefix_length_le hstarts (List.prefix_append _ _) (Nat.le_of_eq heq)
        obtain rfl := hpoint.eq_of_length heq
        exact absurd (hread.isDigit_getLast '.' (by simp)) (by decide)
      simp at hle hne
      omega

/-- The kinds of words and numbers, which go on as long as they can. -/
def Kind.isOpen (kind : Kind) : Bool :=
  kind == .number || kind == .identifier || Kind.keywords.any (·.2 == kind)

theorem not_mem_marks_of_isOpen {kind : Kind} {text : List Char} (h : kind.isOpen = true) : (text, kind) ∉ marks := by
  have hall : ∀ mark ∈ marks, mark.2.isOpen = false := by decide
  intro hmem
  rw [hall _ hmem] at h
  cases h

/-- A word or a number is the longest lexeme where neither goes on. -/
theorem Lexeme.longest_of_bounded {kind : Kind} {text rest : List Char} (h : Lexeme kind text)
    (hopen : kind.isOpen = true) (hrest : Bounded rest) : Longest kind text rest := by
  refine ⟨h, fun other longer hlonger hstarts => ?_⟩
  obtain ⟨c, tail, rfl, hbegins⟩ := h.exists_begins
  cases hbegins with
  | word hstart _ =>
      obtain ⟨tail', rfl, htail⟩ := hlonger.exists_cons_of_startsWith hstarts
      refine Nat.succ_le_succ (length_le_of_stops (hlonger.of_startsWord hstart).2 ?_ htail)
      intro d hd
      cases hrest with
      | nil => cases hd
      | mark hmark =>
          obtain rfl := Option.some.inj hd
          simp only [List.mem_cons, List.not_mem_nil, or_false] at hmark
          rcases hmark with rfl | rfl | rfl | rfl <;> rfl
      | property =>
          obtain rfl := Option.some.inj hd
          rfl
  | number hdigit _ =>
      obtain ⟨tail', rfl, -⟩ := hlonger.exists_cons_of_startsWith hstarts
      exact (hlonger.of_isDigit hdigit).2.length_le_of_bounded hrest hstarts
  | string => cases hopen
  | mark hmark => exact absurd hmark (not_mem_marks_of_isOpen hopen)

theorem Lexeme.head_of_isOpen {kind : Kind} {c : Char} {tail : List Char} (h : Lexeme kind (c :: tail))
    (hopen : kind.isOpen = true) : startsWord c = true ∨ c.isDigit = true := by
  cases h.begins with
  | word hstart => exact .inl hstart
  | number hdigit => exact .inr hdigit
  | string => cases hopen
  | mark hmark => exact absurd hmark (not_mem_marks_of_isOpen hopen)

section Fits

variable {kind : Kind} {symbol : String} {rest : List Char}

theorem exists_fits_blank (rest : List Char) : ∃ shape, Fits shape " ".toList rest :=
  ⟨.blank, .blank rfl⟩

/-- Before a blank. -/
theorem Lexeme.exists_fits_blanked (h : Lexeme kind symbol.toList) (rest : List Char) :
    ∃ shape, Fits shape symbol.toList (' ' :: rest) :=
  ⟨.token kind, .token (h.longest (by simp [Blanked])) (h.not_comment (by simp [Blanked]))⟩

/-- Before whatever bounds words and numbers. -/
theorem Lexeme.exists_fits (h : Lexeme kind symbol.toList) (hopen : kind.isOpen = true) (hrest : Bounded rest) :
    ∃ shape, Fits shape symbol.toList rest := by
  refine ⟨.token kind, .token (h.longest_of_bounded hopen hrest) ?_⟩
  obtain ⟨c, tail, htext, -⟩ := h.exists_begins
  rw [htext] at h ⊢
  rw [List.cons_append, prefix_commentMark_iff]
  rintro ⟨rfl, -⟩
  rcases h.head_of_isOpen hopen with hslash | hslash <;> cases hslash

/-- Marks that no longer one and no comment begins with. -/
theorem exists_fits_mark {c : Char} (hkind : kind ∈ [.leftParen, .rightParen, .comma, .dot])
    (hmark : ([c], kind) ∈ marks) (rest : List Char) : ∃ shape, Fits shape [c] rest := by
  have halone : ∀ mark ∈ marks, mark.2 ∈ [Kind.leftParen, .rightParen, .comma, .dot] → mark.1.head? ≠ some '/' ∧
      ∀ other ∈ marks, other.1.head? = mark.1.head? → other.1 = mark.1 := by
    decide
  obtain ⟨hslash, halone⟩ := halone _ hmark hkind
  obtain ⟨_, _, heq, -, hword, hdigit, hquote⟩ := exists_of_mem_marks hmark
  obtain ⟨rfl, -⟩ := List.cons.inj heq
  refine ⟨.token kind, .token ⟨.mark hmark, fun other longer hlonger hstarts => ?_⟩ ?_⟩
  · obtain ⟨tail, rfl, -⟩ := hlonger.exists_cons_of_startsWith hstarts
    exact Nat.le_of_eq (congrArg List.length (halone _ (hlonger.of_other hword hdigit hquote) rfl))
  · rw [List.singleton_append, prefix_commentMark_iff]
    rintro ⟨rfl, -⟩
    exact hslash rfl

end Fits

/-! ### Legible tokens -/

/-- A constant whose text can be read as one word or number: no string, and no number that is not finite. -/
def Literal.Plain : Literal → Prop
  | .string _ => False
  | .number x => x.isFinite = true
  | .none | .bool _ | .identifier _ => True

/-- A token as it is scanned, with a plain constant. -/
structure Token.Legible (token : Token) : Prop where
  spelled : token.Spelled
  plain : token.literal.Plain

/-- The constants of legible tokens and words. -/
inductive Literal.Legible : Literal → Prop where
  | none : Legible .none
  | bool (value : Bool) : Legible (.bool value)
  | number {x : Float} (hfinite : x.isFinite = true) (hsign : Number.isNegative x = false) : Legible (.number x)

/-- The kind of token that the text of a constant is. -/
def Literal.kind : Literal → Kind
  | .none => .nilWord
  | .bool true => .trueWord
  | .bool false => .falseWord
  | .number _ => .number
  | .string _ | .identifier _ => .endMark

theorem Literal.Legible.lexeme {value : Literal} (h : value.Legible) : Lexeme value.kind value.text.toList := by
  cases h with
  | none => exact .keyword (by decide)
  | bool value => cases value <;> exact .keyword (by decide)
  | number hfinite hsign => exact .number (Number.numeral_render hfinite hsign)

theorem Literal.Legible.isOpen {value : Literal} (h : value.Legible) : value.kind.isOpen = true := by
  cases h with
  | none => rfl
  | bool value => cases value <;> rfl
  | number => rfl

namespace Token.Legible

variable {token : Token} (h : token.Legible)

include h

theorem lexeme (hkind : token.kind ≠ .string) : Lexeme token.kind token.lexeme.toList := by
  have hwritten := h.spelled.lexeme
  rwa [Token.written, if_neg hkind] at hwritten

theorem lexeme_of_kind {kind : Kind} (hkind : token.kind = kind) (hstring : kind ≠ .string) :
    Lexeme kind token.lexeme.toList := by
  subst hkind
  exact h.lexeme hstring

/-- No number in a source has a sign. -/
theorem literal (hkind : token.kind = .number ∨ token.kind = .string) : token.literal.Legible := by
  have hplain := h.plain
  have hliteral := h.spelled.literal
  rcases hkind with hkind | hkind
  · have hconstant : Constant .number token.lexeme (Piece.literal .number token.lexeme) :=
      constant_literal fun _ => (h.lexeme_of_kind hkind nofun).numeral
    rw [hkind] at hliteral
    rw [← hliteral] at hconstant
    generalize token.literal = value at hconstant hplain
    generalize token.lexeme = lexeme at hconstant
    cases hconstant with
    | whole | fraction => exact .number hplain (Number.isNegative_nearest _)
    | none _ hnone => exact absurd (by decide) hnone
  · rw [hliteral, hkind] at hplain
    exact hplain.elim

end Token.Legible

theorem Expr.Formed.legible {value : Literal} (h : (Expr.literal value).Formed Token.Legible) : value.Legible := by
  cases h with
  | truth value => exact .bool value
  | nil => exact .none
  | constant htoken hkind => exact htoken.literal hkind

/-! ### Printed expressions -/

theorem Lexeme.exists_startsWord {text : List Char} (h : Lexeme .identifier text) :
    ∃ c tail, text = c :: tail ∧ startsWord c = true := by
  obtain ⟨c, tail, rfl, hbegins⟩ := h.exists_begins
  refine ⟨c, tail, rfl, ?_⟩
  rcases h.head_of_isOpen rfl with hword | hdigit
  · exact hword
  · cases (h.of_isDigit hdigit).1

section Fitted

variable {symbol : String} {symbols : List String} {rest : List Char}

theorem fitted_blank (hrest : Fitted symbols rest) : Fitted (" " :: symbols) rest :=
  ⟨exists_fits_blank _, hrest⟩

theorem Lexeme.fitted_blanked {kind : Kind} (h : Lexeme kind symbol.toList) (hrest : Fitted symbols rest) :
    Fitted (symbol :: " " :: symbols) rest :=
  ⟨h.exists_fits_blanked _, fitted_blank hrest⟩

theorem fitted_opening (hrest : Fitted symbols rest) : Fitted ("(" :: symbols) rest :=
  ⟨exists_fits_mark (show Kind.leftParen ∈ _ by decide) (by decide) _, hrest⟩

theorem fitted_closing : Fitted [")"] rest :=
  ⟨exists_fits_mark (show Kind.rightParen ∈ _ by decide) (by decide) _, trivial⟩

theorem fitted_comma (hrest : Fitted symbols rest) : Fitted ("," :: symbols) rest :=
  ⟨exists_fits_mark (show Kind.comma ∈ _ by decide) (by decide) _, hrest⟩

theorem fitted_point (hrest : Fitted symbols rest) : Fitted ("." :: symbols) rest :=
  ⟨exists_fits_mark (show Kind.dot ∈ _ by decide) (by decide) _, hrest⟩

end Fitted

theorem Expr.listSymbols_fitted {trees : List Expr}
    (h : ∀ tree ∈ trees, ∀ rest, Bounded rest → Fitted tree.symbols rest) {rest : List Char} (hrest : Bounded rest) :
    Fitted (Expr.listSymbols trees) rest := by
  match trees with
  | [] => trivial
  | [tree] => exact h tree List.mem_cons_self rest hrest
  | tree :: next :: others =>
      rw [List.forall_mem_cons] at h
      rw [Expr.listSymbols, fitted_append]
      exact ⟨h.1 _ (.mark (by decide)), fitted_comma (Expr.listSymbols_fitted h.2 hrest)⟩

/-- Strings and numbers are used for nothing but their constants. -/
theorem Use.Of.kind_ne {P : Token → Prop} {use : Use} {token : Token} (h : use.Of P token) (huse : use ≠ .mark) :
    token.kind ≠ .number ∧ token.kind ≠ .string := by
  have hoperators : ∀ kind ∈ Kind.operators, kind ≠ .number ∧ kind ≠ .string := by decide
  have hfits := h.2
  cases use with
  | mark => exact absurd rfl huse
  | operator => exact hoperators _ hfits
  | sign => rcases hfits with hkind | hkind <;> simp [hkind]
  | name | receiver | paren => exact ⟨ne_of_eq_of_ne hfits nofun, ne_of_eq_of_ne hfits nofun⟩

theorem Use.Of.lexeme {use : Use} {token : Token} (h : use.Of Token.Legible token) (huse : use ≠ .mark) :
    Lexeme token.kind token.lexeme.toList :=
  h.1.lexeme (h.kind_ne huse).2

theorem Use.Of.lexeme_of_kind {use : Use} {token : Token} (h : use.Of Token.Legible token) {kind : Kind}
    (hkind : token.kind = kind) (huse : use ≠ .mark) : Lexeme kind token.lexeme.toList :=
  hkind ▸ h.lexeme huse

theorem lexeme_equal : Lexeme .equal "=".toList :=
  .mark (by decide)

theorem lexeme_group : Lexeme .identifier "group".toList :=
  @lexeme_ofWord 'g' ['r', 'o', 'u', 'p'] rfl (List.all_eq_true.mp rfl)

/-- The symbols of a well formed expression are the pieces of its text. -/
theorem Expr.Formed.fitted {tree : Expr} (h : tree.Formed Token.Legible) {rest : List Char} (hrest : Bounded rest) :
    Fitted tree.symbols rest := by
  have hliteral {value : Literal} (hvalue : value.Legible) {rest : List Char} (hrest : Bounded rest) :
      Fitted (Expr.literal value).symbols rest := ⟨hvalue.lexeme.exists_fits hvalue.isOpen hrest, trivial⟩
  have hname {name : Token} (hname : Use.name.Of Token.Legible name) : Lexeme .identifier name.lexeme.toList :=
    hname.lexeme_of_kind hname.2 nofun
  have hpoint {name : Token} (h : Use.name.Of Token.Legible name) (rest : List Char) :
      Bounded ('.' :: (name.lexeme.toList ++ rest)) := by
    obtain ⟨c, tail, htext, hword⟩ := (hname h).exists_startsWord
    rw [htext]
    exact .property hword
  induction h generalizing rest with
  | assign h _ ih => exact (hname h).fitted_blanked (lexeme_equal.fitted_blanked (ih hrest))
  | binary _ hoperator _ _ _ ihLeft ihRight =>
      refine fitted_opening ((hoperator.lexeme nofun).fitted_blanked (fitted_append.mpr ⟨?_, fitted_blank ?_⟩))
      · exact ihLeft (.mark (by decide))
      · exact fitted_append.mpr ⟨ihRight (.mark (by decide)), fitted_closing⟩
  | call _ _ _ _ ihCallee ihArguments =>
      refine fitted_append.mpr ⟨ihCallee (.mark (by decide)), fitted_opening (fitted_append.mpr ⟨?_, fitted_closing⟩)⟩
      exact Expr.listSymbols_fitted (fun tree htree _ => ihArguments tree htree) (.mark (by decide))
  | get _ h _ ih =>
      refine fitted_append.mpr ⟨ih ?_, fitted_point ⟨(hname h).exists_fits rfl hrest, trivial⟩⟩
      simpa using hpoint h rest
  | grouping _ ih =>
      exact fitted_opening (lexeme_group.fitted_blanked (fitted_append.mpr ⟨ih (.mark (by decide)), fitted_closing⟩))
  | truth value => exact hliteral (.bool value) hrest
  | nil => exact hliteral .none hrest
  | constant htoken hkind => exact hliteral (htoken.literal hkind) hrest
  | logical _ hoperator hkind _ _ _ ihLeft ihRight =>
      have hword : Lexeme _ _ := hoperator.lexeme (by rcases hkind with hkind | hkind <;> simp [hkind])
      exact fitted_append.mpr ⟨ihLeft (.mark (by decide)), fitted_blank (hword.fitted_blanked (ihRight hrest))⟩
  | set _ h _ _ ihObject ihValue =>
      refine fitted_append.mpr ⟨ihObject ?_, fitted_point ((hname h).fitted_blanked ?_)⟩
      · simpa using hpoint h _
      · exact lexeme_equal.fitted_blanked (ihValue hrest)
  | this hkeyword =>
      exact ⟨(hkeyword.lexeme_of_kind hkeyword.2 nofun).exists_fits rfl hrest, trivial⟩
  | unary hoperator _ _ ih =>
      refine fitted_opening ((hoperator.lexeme nofun).fitted_blanked (fitted_append.mpr ⟨?_, fitted_closing⟩))
      exact ih (.mark (by decide))
  | «variable» h => exact ⟨(hname h).exists_fits rfl hrest, trivial⟩

/-- Expressions that are printed alike are so symbol by symbol. -/
theorem Expr.Formed.symbols_eq {tree tree' : Expr} (h : tree.Formed Token.Legible) (h' : tree'.Formed Token.Legible)
    (hsame : tree.text = tree'.text) : tree.symbols = tree'.symbols := by
  refine (h.fitted .nil).unique (h'.fitted .nil) ?_
  rw [← tree.toList_text, ← tree'.toList_text, hsame]

end Script
