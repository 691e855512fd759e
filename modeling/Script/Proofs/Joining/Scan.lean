import Script.Proofs.Scanning.Cut

/-!
# The tokens of joined sources

A line break ends every piece but an unclosed string. So if there is none in the first of two sources, the
cut of both with a line break in between is the cut of the first, a blank, and the cut of the second with
all its lines further down.
-/

namespace Script

/-! ### Further down -/

def Token.down (lines : Nat) (token : Token) : Token :=
  { token with line := token.line + lines }

def Diagnostic.down (lines : Nat) (diagnostic : Diagnostic) : Diagnostic :=
  { diagnostic with line := diagnostic.line + lines }

def Piece.down (lines : Nat) (piece : Piece) : Piece :=
  { piece with line := piece.line + lines }

theorem Piece.token?_down (lines : Nat) (piece : Piece) :
    (piece.down lines).token? = piece.token?.map (Token.down lines) := by
  obtain ⟨shape, text, line⟩ := piece
  cases shape <;> rfl

theorem Piece.diagnostic?_down (lines : Nat) (piece : Piece) :
    (piece.down lines).diagnostic? = piece.diagnostic?.map (Diagnostic.down lines) := by
  obtain ⟨shape, text, line⟩ := piece
  cases shape <;> rfl

theorem Cut.down {line : Nat} {source : List Char} {pieces : List Piece} (h : Cut line source pieces)
    (lines : Nat) : Cut (line + lines) source (pieces.map (Piece.down lines)) := by
  induction h with
  | nil => exact .nil _
  | @cons line piece rest pieces hfits hline _ ih =>
      have hdown : (piece.down lines).line = line + lines + (piece.down lines).text.count '\n' := by
        simp only [Piece.down, hline]
        omega
      have hfits : Piece.Fits (piece.down lines).shape (piece.down lines).text rest := hfits
      exact .cons hfits hdown ih

/-! ### Closing marks -/

theorem Lexeme.ne_endMark {kind : Kind} {text : List Char} (h : Lexeme kind text) : kind ≠ .endMark := by
  have hmarks : ∀ mark ∈ Piece.marks, mark.2 ≠ .endMark := by decide
  have hkeywords : ∀ entry ∈ Kind.keywords, entry.2 ≠ .endMark := by decide
  cases h with
  | mark hmark => exact hmarks _ hmark
  | keyword hword => exact hkeywords _ hword
  | identifier | number | string => decide

/-- The only end mark of a source is the closing one. -/
theorem kind_ne_endMark_of_mem_dropLast {source : String} {token : Token}
    (h : token ∈ (scan source).tokens.dropLast) : token.kind ≠ .endMark := by
  rw [scan, List.dropLast_concat] at h
  obtain ⟨text, hlexeme, -⟩ := exists_lexeme_of_mem h
  exact hlexeme.ne_endMark

/-! ### In front of a line break -/

theorem Numeral.isDigit_or_point {text : List Char} (h : Numeral text) :
    ∀ c ∈ text, c.isDigit = true ∨ c = '.' := by
  cases h with
  | whole _ hdigits => exact fun c hmem => Or.inl (hdigits c hmem)
  | fraction _ hdigits _ hfraction =>
      intro c hmem
      rcases List.mem_append.mp hmem with hmem | hmem
      · exact Or.inl (hdigits c hmem)
      · rcases List.mem_cons.mp hmem with rfl | hmem
        · exact Or.inr rfl
        · exact Or.inl (hfraction c hmem)

/-- Only strings go over a line break. -/
theorem Lexeme.eq_string_of_mem {kind : Kind} {text : List Char} (h : Lexeme kind text)
    (hbreak : '\n' ∈ text) : kind = .string := by
  have hmarks : ∀ mark ∈ Piece.marks, '\n' ∉ mark.1 := by decide
  obtain ⟨c, rest, rfl, hbegins⟩ := h.exists_begins
  cases hbegins with
  | word hstart hrest =>
      rcases List.mem_cons.mp hbreak with rfl | hmem
      · cases hstart
      · exact absurd (hrest _ hmem) (by decide)
  | number _ hnumeral => exact absurd (hnumeral.isDigit_or_point _ hbreak) (by decide)
  | string => rfl
  | mark hmark => exact absurd hbreak (hmarks _ hmark)

/-- No string is the start of a longer one. -/
theorem Lexeme.length_le_of_string {text longer : List Char} (h : Lexeme .string longer)
    {kind : Kind} (htext : Lexeme kind text) (hstarts : text <+: longer) :
    longer.length ≤ text.length := by
  obtain ⟨body, rfl, hbody⟩ := h.exists_body
  obtain ⟨tail, rfl, htail⟩ := htext.exists_cons_of_startsWith hstarts
  obtain ⟨-, inner, rfl, -⟩ := htext.of_quote
  refine Nat.le_of_not_lt fun hshorter => ?_
  simp only [List.length_cons, List.length_append, List.length_nil] at hshorter
  have hinner : inner ++ ['"'] <+: body :=
    List.prefix_of_prefix_length_le htail (List.prefix_append body ['"']) (by simp; omega)
  exact hbody (hinner.mem (by simp))

theorem Longest.before_break {kind : Kind} {text rest : List Char} (h : Longest kind text rest)
    (more : List Char) : Longest kind text (rest ++ '\n' :: more) := by
  refine ⟨h.lexeme, fun other longer hlonger hstarts => ?_⟩
  rw [← List.append_assoc] at hstarts
  by_cases hshort : longer.length ≤ (text ++ rest).length
  · exact h.longest other longer hlonger
      (List.prefix_of_prefix_length_le hstarts (List.prefix_append _ _) hshort)
  · have hover : text ++ rest ++ ['\n'] <+: longer := by
      refine List.prefix_of_prefix_length_le ?_ hstarts (by simp at hshort ⊢; omega)
      exact ⟨more, by simp⟩
    obtain rfl := hlonger.eq_string_of_mem (hover.mem (by simp))
    refine hlonger.length_le_of_string h.lexeme (List.IsPrefix.trans ?_ hover)
    rw [List.append_assoc]
    exact List.prefix_append _ _

namespace Piece

theorem head?_before_break (rest more : List Char) :
    (rest ++ '\n' :: more).head? = some (rest.head?.getD '\n') := by
  cases rest <;> rfl

theorem not_comment_before_break {text : List Char} (h : ¬ ['/', '/'] <+: text) (more : List Char) :
    ¬ ['/', '/'] <+: text ++ '\n' :: more := by
  cases text with
  | nil => simp [List.cons_prefix_cons]
  | cons c rest =>
      rw [prefix_commentMark_iff] at h
      rw [List.cons_append, prefix_commentMark_iff, head?_before_break]
      cases rest with
      | nil => simp
      | cons => exact h

/-- What comes after a line break changes no piece before it. -/
theorem Fits.before_break {shape : Shape} {text rest : List Char} (h : Fits shape text rest)
    (hshape : shape ≠ .unclosed) (more : List Char) : Fits shape text (rest ++ '\n' :: more) := by
  cases h with
  | blank hblank => exact .blank hblank
  | comment hbody hend =>
      refine .comment hbody ?_
      rw [head?_before_break]
      cases rest with
      | nil => simp
      | cons => exact hend
  | token hlongest hcomment =>
      refine .token (hlongest.before_break more) ?_
      rw [← List.append_assoc]
      exact not_comment_before_break hcomment more
  | stray hblank hquote hlexeme => exact .stray hblank hquote hlexeme
  | unclosed => exact absurd rfl hshape

end Piece

theorem Cut.join {line : Nat} {source more : List Char} {pieces others : List Piece}
    (h : Cut line source pieces) (hclosed : ∀ piece ∈ pieces, piece.shape ≠ .unclosed)
    (hmore : Cut (line + source.count '\n' + 1) more others) :
    Cut line (source ++ '\n' :: more)
      (pieces ++ ⟨.blank, ['\n'], line + source.count '\n' + 1⟩ :: others) := by
  induction h with
  | nil line =>
      let piece : Piece := ⟨.blank, ['\n'], line + 1⟩
      have hfits : Piece.Fits piece.shape piece.text more := .blank rfl
      exact .cons hfits rfl hmore
  | @cons line piece rest pieces hfits hline _ ih =>
      rw [List.forall_mem_cons] at hclosed
      rw [List.count_append, ← Nat.add_assoc, ← hline] at hmore ⊢
      rw [List.append_assoc, List.cons_append]
      exact .cons (hfits.before_break hclosed.1 more) hline (ih hclosed.2 hmore)

/-- The lines that stand above the second of two joined sources. -/
def linesOf (source : String) : Nat :=
  1 + source.toList.count '\n'

section Join

variable {source : String} (hscan : (scan source).diagnostics = [])

include hscan

theorem pieces_join (more : String) :
    pieces (source ++ "\n" ++ more).toList =
      pieces source.toList ++
        ⟨.blank, ['\n'], 1 + linesOf source⟩ :: (pieces more.toList).map (Piece.down (linesOf source)) := by
  have hclosed : ∀ piece ∈ pieces source.toList, piece.shape ≠ .unclosed := by
    intro piece hmem hshape
    have hnone := List.filterMap_eq_nil_iff.mp hscan piece hmem
    simp [Piece.diagnostic?, hshape] at hnone
  have hcut : Cut 1 source.toList (pieces source.toList) := cut_iff.mpr rfl
  have hmore := (cut_iff.mpr rfl : Cut 1 more.toList _).down (linesOf source)
  have hlines : 1 + linesOf source = 1 + source.toList.count '\n' + 1 := by
    rw [linesOf, Nat.add_comm]
  rw [hlines] at hmore ⊢
  have hjoined := hcut.join hclosed hmore
  rw [cut_iff.mp hjoined]
  simp [String.toList_append]

/-- The tokens of the first, without their closing mark, then those of the second, further down. -/
theorem scan_join (more : String) :
    (scan (source ++ "\n" ++ more)).tokens =
        (scan source).tokens.dropLast ++ (scan more).tokens.map (Token.down (linesOf source)) ∧
      (scan (source ++ "\n" ++ more)).diagnostics =
        (scan more).diagnostics.map (Diagnostic.down (linesOf source)) := by
  have hpieces := pieces_join hscan more
  have htoken (pieces : List Piece) : (pieces.map (Piece.down (linesOf source))).filterMap Piece.token? =
      (pieces.filterMap Piece.token?).map (Token.down (linesOf source)) := by
    rw [List.filterMap_map, List.map_filterMap]
    exact congrArg (List.filterMap · pieces) (funext fun piece => Piece.token?_down _ piece)
  have hfault (pieces : List Piece) :
      (pieces.map (Piece.down (linesOf source))).filterMap Piece.diagnostic? =
        (pieces.filterMap Piece.diagnostic?).map (Diagnostic.down (linesOf source)) := by
    rw [List.filterMap_map, List.map_filterMap]
    exact congrArg (List.filterMap · pieces) (funext fun piece => Piece.diagnostic?_down _ piece)
  have hclosing : Token.closing (1 + (source ++ "\n" ++ more).toList.count '\n') =
      (Token.closing (1 + more.toList.count '\n')).down (linesOf source) := by
    simp [Token.closing, Token.down, linesOf, String.toList_append]
    omega
  constructor
  · simp only [scan, hpieces, hclosing, List.dropLast_concat, List.map_append, List.filterMap_append, htoken,
      List.filterMap_cons, List.map_cons, List.map_nil, List.append_assoc]
    rfl
  · simp only [scan] at hscan ⊢
    simp only [hpieces, hscan, hfault, List.filterMap_append, List.filterMap_cons, List.nil_append]
    rfl

end Join

end Script
