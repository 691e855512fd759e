import Mathlib.Data.List.Forall2
import Script.Proofs.Scanning.Cut

/-!
# What a source spells

The tokens and the errors of a source, told by the cut of it: a token for each piece that is one, and an
error for each piece that is none of the others. This determines all that scanning gives.
-/

namespace Script

namespace Number

/-- No word for a number begins with a digit. -/
theorem magnitude?_of_isDigit {c : Char} {rest : List Char} (hdigit : c.isDigit = true) :
    magnitude? (c :: rest) = (decimal? (c :: rest)).map nearest := by
  have hlower : c.toLower = c := by
    simp only [Char.isDigit, Bool.and_eq_true, decide_eq_true_eq, UInt32.le_iff_toNat_le] at hdigit
    have hupper : ¬(c.val ≥ 'A'.val ∧ c.val ≤ 'Z'.val) := by
      simp only [ge_iff_le, UInt32.le_iff_toNat_le]
      have hnine : '9'.val.toNat = 57 := rfl
      have hfirst : 'A'.val.toNat = 65 := rfl
      omega
    exact dif_neg hupper
  have hword (word : String) (hfree : word.toList.head?.all (!·.isDigit) = true) :
      (String.ofList ((c :: rest).map Char.toLower) == word) = false := by
    rw [beq_eq_false_iff_ne]
    rintro rfl
    rw [String.toList_ofList, List.map_cons, hlower] at hfree
    simp [hdigit] at hfree
  unfold magnitude?
  simp only [hword "inf" (by decide), hword "infinity" (by decide), hword "nan" (by decide)]
  rfl

theorem splitSign_of_isDigit {c : Char} {rest : List Char} (hdigit : c.isDigit = true) :
    splitSign (c :: rest) = (false, c :: rest) := by
  unfold splitSign
  split
  · next heq =>
      rw [(List.cons.inj heq).1] at hdigit
      cases hdigit
  · next heq =>
      rw [(List.cons.inj heq).1] at hdigit
      cases hdigit
  · rfl

theorem read?_of_isDigit {c : Char} {rest : List Char} (hdigit : c.isDigit = true) :
    read? (String.ofList (c :: rest)) = (decimal? (c :: rest)).map nearest := by
  rw [read?, String.toList_ofList, splitSign_of_isDigit hdigit]
  simp only [Bool.false_eq_true, ↓reduceIte, Option.map_id']
  exact magnitude?_of_isDigit hdigit

theorem decimal?_whole {digits : List Char} (hne : digits ≠ []) (hdigits : ∀ d ∈ digits, d.isDigit = true) :
    decimal? digits = some ⟨digitsValue digits, 0⟩ := by
  obtain ⟨hwhole, hrest⟩ := Piece.takeWhile_append_of_stops [] hdigits (by simp)
  rw [List.append_nil] at hwhole hrest
  rw [decimal?, hwhole, hrest]
  simp [exponent?, hne]

theorem decimal?_fraction {digits places : List Char} (hne : digits ≠ [])
    (hdigits : ∀ d ∈ digits, d.isDigit = true) (hplaces : ∀ d ∈ places, d.isDigit = true) :
    decimal? (digits ++ '.' :: places) = some ⟨digitsValue (digits ++ places), -places.length⟩ := by
  obtain ⟨hwhole, hrest⟩ :=
    Piece.takeWhile_append_of_stops ('.' :: places) hdigits (by simp)
  obtain ⟨hfraction, hend⟩ := Piece.takeWhile_append_of_stops [] hplaces (by simp)
  rw [List.append_nil] at hfraction hend
  rw [decimal?, hwhole, hrest]
  simp only [hfraction, hend]
  simp [exponent?, hne]

end Number

/-- The constant of a token. The places of a fraction count as digits, but lower the exponent. -/
inductive Constant : Kind → String → Literal → Prop where
  | identifier (name : String) : Constant .identifier name (.identifier name)
  | string (text : String) : Constant .string text (.string text)
  | whole {digits : List Char} (hne : digits ≠ []) (hdigits : ∀ d ∈ digits, d.isDigit = true) :
      Constant .number (.ofList digits) (.number (Number.nearest ⟨Number.digitsValue digits, 0⟩))
  | fraction {digits places : List Char} (hne : digits ≠ []) (hdigits : ∀ d ∈ digits, d.isDigit = true)
      (hplaces : places ≠ []) (hfraction : ∀ d ∈ places, d.isDigit = true) :
      Constant .number (.ofList (digits ++ '.' :: places))
        (.number (Number.nearest ⟨Number.digitsValue (digits ++ places), -places.length⟩))
  | none {kind : Kind} (lexeme : String) (hkind : kind ∉ [.identifier, .string, .number]) :
      Constant kind lexeme .none

theorem Constant.literal_eq {kind : Kind} {lexeme : String} {literal : Literal}
    (h : Constant kind lexeme literal) : Piece.literal kind lexeme = literal := by
  cases h with
  | identifier | string => rfl
  | whole hne hdigits =>
      obtain ⟨c, rest, rfl⟩ := List.exists_cons_of_ne_nil hne
      rw [Piece.literal, Number.read?_of_isDigit (hdigits c List.mem_cons_self),
        Number.decimal?_whole hne hdigits]
      rfl
  | fraction hne hdigits _ hfraction =>
      obtain ⟨c, rest, rfl⟩ := List.exists_cons_of_ne_nil hne
      rw [Piece.literal, List.cons_append, Number.read?_of_isDigit (hdigits c List.mem_cons_self),
        ← List.cons_append, Number.decimal?_fraction hne hdigits hfraction]
      rfl
  | none _ hkind =>
      unfold Piece.literal
      split <;> first | rfl | simp at hkind

theorem constant_literal {kind : Kind} {lexeme : String}
    (h : kind = .number → Numeral lexeme.toList) : Constant kind lexeme (Piece.literal kind lexeme) := by
  by_cases hnumber : kind = .number
  · subst hnumber
    suffices hsome : ∃ literal, Constant .number lexeme literal by
      obtain ⟨literal, hconstant⟩ := hsome
      rwa [hconstant.literal_eq]
    have hnumeral := h rfl
    rw [← String.ofList_toList (s := lexeme)]
    generalize lexeme.toList = text at hnumeral
    cases hnumeral with
    | whole hne hdigits => exact ⟨_, .whole hne hdigits⟩
    | fraction hne hdigits hplaces hfraction => exact ⟨_, .fraction hne hdigits hplaces hfraction⟩
  · by_cases hplain : kind ∈ [.identifier, .string, .number]
    · simp only [List.mem_cons, hnumber, List.not_mem_nil, or_false] at hplain
      rcases hplain with rfl | rfl
      · exact .identifier lexeme
      · exact .string lexeme
    · have hnone : Piece.literal kind lexeme = .none := (Constant.none lexeme hplain).literal_eq
      rw [hnone]
      exact .none lexeme hplain

namespace Piece

def isToken (piece : Piece) : Bool :=
  match piece.shape with
  | .token _ => true
  | _ => false

def isFault (piece : Piece) : Bool :=
  match piece.shape with
  | .stray | .unclosed => true
  | _ => false

/-- The token is that of the piece. Its lexeme is the whole text, but for the quotes of a string, and
its line the one on which the text ends. -/
structure Denotes (piece : Piece) (token : Token) : Prop where
  shape : piece.shape = .token token.kind
  text : piece.text =
    if token.kind = .string then '"' :: (token.lexeme.toList ++ ['"']) else token.lexeme.toList
  literal : Constant token.kind token.lexeme token.literal
  line : token.line = piece.line

/-- The error is that of the piece. -/
inductive Blamed : Piece → Diagnostic → Prop where
  | stray (text : List Char) (line : Nat) :
      Blamed ⟨.stray, text, line⟩ (.atLine line "Unexpected character.")
  | unclosed (text : List Char) (line : Nat) :
      Blamed ⟨.unclosed, text, line⟩ (.atLine line "Unterminated string.")

/-- What a lexeme says of the token that is made of it. -/
theorem spelling_of_lexeme {kind : Kind} {text : List Char} (h : Lexeme kind text) :
    (text = if kind = .string then '"' :: ((lexeme kind text).toList ++ ['"'])
      else (lexeme kind text).toList) ∧
      Constant kind (lexeme kind text) (literal kind (lexeme kind text)) := by
  by_cases hstring : kind = .string
  · subst hstring
    obtain ⟨body, rfl, -⟩ := h.exists_body
    exact ⟨by simp [lexeme], .string _⟩
  · have hlexeme : lexeme kind text = .ofList text := by rw [lexeme, if_neg hstring]
    rw [if_neg hstring, hlexeme]
    refine ⟨String.toList_ofList.symm, constant_literal ?_⟩
    rintro rfl
    rw [String.toList_ofList]
    exact h.numeral

theorem Fits.denotes_iff {piece : Piece} {rest : List Char} (hfits : Fits piece.shape piece.text rest)
    (token : Token) : piece.Denotes token ↔ piece.token? = some token := by
  obtain ⟨shape, text, line⟩ := piece
  obtain ⟨kind, word, constant, last⟩ := token
  constructor
  · rintro ⟨rfl, htext, hliteral, rfl⟩
    have hlexeme : lexeme kind text = word := by
      simp only at htext
      rw [htext, lexeme]
      split <;> simp
    simp only [token?, hlexeme]
    rw [hliteral.literal_eq]
  · intro htoken
    cases hfits with
    | token hlongest =>
        obtain ⟨htext, hliteral⟩ := spelling_of_lexeme hlongest.lexeme
        obtain ⟨rfl, rfl, rfl, rfl⟩ := by simpa [token?] using htoken
        exact ⟨rfl, htext, hliteral, rfl⟩
    | blank | comment | stray | unclosed => cases htoken

theorem blamed_iff (piece : Piece) (diagnostic : Diagnostic) :
    piece.Blamed diagnostic ↔ piece.diagnostic? = some diagnostic := by
  obtain ⟨shape, text, line⟩ := piece
  constructor
  · intro h
    cases h with
    | stray | unclosed => rfl
  · intro h
    cases shape with
    | stray => exact Option.some.inj h ▸ .stray text line
    | unclosed => exact Option.some.inj h ▸ .unclosed text line
    | blank | comment | token => cases h

theorem isToken_eq (piece : Piece) : piece.isToken = piece.token?.isSome := by
  obtain ⟨shape, text, line⟩ := piece
  cases shape <;> rfl

theorem isFault_eq (piece : Piece) : piece.isFault = piece.diagnostic?.isSome := by
  obtain ⟨shape, text, line⟩ := piece
  cases shape <;> rfl

end Piece

/-- To read some elements of a list one by one is to map the list, and leave out the others. -/
theorem forall₂_filter_iff {α β : Type} {p : α → Bool} {f : α → Option β} {R : α → β → Prop}
    {l : List α} (hp : ∀ a ∈ l, p a = (f a).isSome) (hR : ∀ a ∈ l, ∀ b, R a b ↔ f a = some b)
    (bs : List β) : List.Forall₂ R (l.filter p) bs ↔ l.filterMap f = bs := by
  induction l generalizing bs with
  | nil => simp [eq_comm]
  | cons a l ih =>
      have ih := ih (fun a ha => hp a (List.mem_cons_of_mem _ ha))
        (fun a ha => hR a (List.mem_cons_of_mem _ ha))
      have hhere := hp a List.mem_cons_self
      cases hfa : f a with
      | none =>
          rw [hfa] at hhere
          rw [List.filterMap_cons_none hfa, List.filter_cons_of_neg (by simp [hhere])]
          exact ih bs
      | some b =>
          rw [hfa] at hhere
          rw [List.filterMap_cons_some hfa, List.filter_cons_of_pos hhere]
          cases bs with
          | nil => simp
          | cons b' bs =>
              rw [List.forall₂_cons, hR a List.mem_cons_self, ih bs, hfa, Option.some_inj, List.cons.injEq]

/-- All that a source spells, by its cut: nothing is lost, each piece ends on the line that the newlines
up to there lead to, each token piece gives one token and each stray or unclosed piece one error, and the
closing mark stands on the last line. -/
structure Scan.Spells (scan : Scan) (source : List Char) (cut : List Piece) : Prop where
  fits : Cut 1 source cut
  lossless : cut.flatMap Piece.text = source
  lines : ∀ before piece after, cut = before ++ piece :: after →
    piece.line = 1 + ((before ++ [piece]).flatMap Piece.text).count '\n'
  unclosed : ∀ before piece after, cut = before ++ piece :: after → piece.shape = .unclosed → after = []
  tokens : ∃ tokens, List.Forall₂ Piece.Denotes (cut.filter Piece.isToken) tokens ∧
    scan.tokens = tokens ++ [.closing (1 + source.count '\n')]
  diagnostics : List.Forall₂ Piece.Blamed (cut.filter Piece.isFault) scan.diagnostics

theorem Cut.filterMap_iff {line : Nat} {source : List Char} {cut : List Piece}
    (h : Cut line source cut) :
    (∀ tokens, List.Forall₂ Piece.Denotes (cut.filter Piece.isToken) tokens ↔
      cut.filterMap Piece.token? = tokens) ∧
    ∀ diagnostics, List.Forall₂ Piece.Blamed (cut.filter Piece.isFault) diagnostics ↔
      cut.filterMap Piece.diagnostic? = diagnostics := by
  refine ⟨forall₂_filter_iff (fun piece _ => piece.isToken_eq) fun piece hpiece token => ?_,
    forall₂_filter_iff (fun piece _ => piece.isFault_eq) fun piece _ => Piece.blamed_iff piece⟩
  obtain ⟨before, after, rfl⟩ := List.append_of_mem hpiece
  exact h.piece_at.1.denotes_iff token

/-- There is one cut of a source and one result that it spells, and scanning gives them. -/
theorem spells_iff (source : String) (cut : List Piece) (result : Scan) :
    result.Spells source.toList cut ↔ cut = pieces source.toList ∧ result = scan source := by
  constructor
  · rintro ⟨hfits, -, -, -, ⟨tokens, htokens, hclosed⟩, hdiagnostics⟩
    obtain ⟨htoken, hfault⟩ := hfits.filterMap_iff
    refine ⟨cut_iff.mp hfits, ?_⟩
    rw [htoken] at htokens
    rw [hfault] at hdiagnostics
    rw [scan, ← cut_iff.mp hfits]
    exact congrArg₂ Scan.mk (by rw [hclosed, htokens]) hdiagnostics.symm
  · rintro ⟨rfl, rfl⟩
    have hfits : Cut 1 source.toList (pieces source.toList) := cut_iff.mpr rfl
    obtain ⟨htoken, hfault⟩ := hfits.filterMap_iff
    exact {
      fits := hfits
      lossless := hfits.flatMap_text
      lines := fun _ _ _ hcut => (hcut ▸ hfits).piece_at.2
      unclosed := fun _ _ _ hcut hshape => (hcut ▸ hfits).eq_nil_of_unclosed hshape
      tokens := ⟨_, (htoken _).mpr rfl, rfl⟩
      diagnostics := (hfault _).mpr rfl }

end Script
