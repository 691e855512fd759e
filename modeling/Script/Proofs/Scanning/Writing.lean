import Mathlib.Data.List.Infix
import Script.Proofs.Alike.Lines
import Script.Proofs.Scanning.Spelling

/-!
# Tokens written again

A blank ends every lexeme but a string, and a string ends at its quote. So tokens that are written one after the
other with blanks between them are scanned as themselves, whatever stood between them before.
-/

namespace Script

open Piece Script.Parser

/-! ### Lexemes before a blank -/

/-- Nothing is left, or a blank follows. -/
def Blanked (rest : List Char) : Prop :=
  ∀ c ∈ rest.head?, c = ' '

theorem blank_not_mem_of_continuesWord {text : List Char} (h : ∀ c ∈ text, continuesWord c = true) : ' ' ∉ text :=
  fun hmem => Bool.false_ne_true (h ' ' hmem)

theorem Numeral.blank_not_mem {text : List Char} (h : Numeral text) : ' ' ∉ text := by
  have hdigits {digits : List Char} (hdigits : ∀ d ∈ digits, d.isDigit = true) : ' ' ∉ digits :=
    fun hmem => Bool.false_ne_true (hdigits ' ' hmem)
  cases h with
  | whole _ h => exact hdigits h
  | fraction _ h _ h' => simp [hdigits h, hdigits h']

/-- Of all lexemes, only a string can have blanks in it. -/
theorem Lexeme.blank_not_mem {kind : Kind} {c : Char} {rest : List Char} (h : Lexeme kind (c :: rest))
    (hquote : c ≠ '"') : ' ' ∉ rest := by
  have hmarks : ∀ mark ∈ marks, ' ' ∉ mark.1 := by decide
  cases h.begins with
  | word _ hrest => exact blank_not_mem_of_continuesWord hrest
  | number _ hnumeral => exact fun hmem => hnumeral.blank_not_mem (List.mem_cons_of_mem c hmem)
  | string => exact absurd rfl hquote
  | mark hmark => exact fun hmem => hmarks _ hmark (List.mem_cons_of_mem c hmem)

/-- What goes on with characters of some sort does not go beyond one that is of no such sort. -/
theorem length_le_of_stops {p : Char → Bool} {read text rest : List Char} (hread : ∀ c ∈ read, p c = true)
    (hrest : ∀ c ∈ rest.head?, p c = false) (hstarts : read <+: text ++ rest) : read.length ≤ text.length := by
  by_contra hlonger
  obtain ⟨more, rfl⟩ := List.prefix_of_prefix_length_le (List.prefix_append text rest) hstarts
    (Nat.le_of_not_le hlonger)
  have hmore := (List.prefix_append_right_inj text).mp hstarts
  cases more with
  | nil => exact hlonger (Nat.le_of_eq (congrArg List.length (List.append_nil text)))
  | cons c more =>
      obtain ⟨rest, rfl⟩ := hmore
      have hstop := hrest c rfl
      rw [hread c (by simp)] at hstop
      cases hstop

theorem length_le_of_blanked {read text rest : List Char} (hread : ' ' ∉ read) (hrest : Blanked rest)
    (hstarts : read <+: text ++ rest) : read.length ≤ text.length := by
  refine length_le_of_stops (p := (· != ' ')) (fun c hc => bne_iff_ne.mpr fun heq => hread (heq ▸ hc)) ?_ hstarts
  exact fun c hc => bne_eq_false_iff_eq.mpr (hrest c hc)

/-- A string ends at the first quote after the one it begins with. -/
theorem length_le_of_quote {body other rest : List Char} (hother : '"' ∉ other)
    (hstarts : other ++ ['"'] <+: body ++ ['"'] ++ rest) : other.length ≤ body.length := by
  by_contra hlonger
  have hbody : body ++ ['"'] <+: other ++ ['"'] :=
    List.prefix_of_prefix_length_le (List.prefix_append _ rest) hstarts (by simp; omega)
  have hwithin : body ++ ['"'] <+: other :=
    List.prefix_of_prefix_length_le hbody (List.prefix_append other _) (by simp; omega)
  exact hother (hwithin.subset (by simp))

/-- What is written before a blank is the longest lexeme there. -/
theorem Lexeme.longest {kind : Kind} {text rest : List Char} (h : Lexeme kind text) (hrest : Blanked rest) :
    Longest kind text rest := by
  refine ⟨h, fun other longer hlonger hstarts => ?_⟩
  obtain ⟨c, tail, rfl, -⟩ := h.exists_begins
  obtain ⟨tail', rfl, htail⟩ := hlonger.exists_cons_of_startsWith hstarts
  by_cases hquote : c = '"'
  · subst hquote
    obtain ⟨-, body, rfl, -⟩ := h.of_quote
    obtain ⟨-, body', rfl, hbody'⟩ := hlonger.of_quote
    simpa using length_le_of_quote hbody' htail
  · exact Nat.succ_le_succ (length_le_of_blanked (hlonger.blank_not_mem hquote) hrest htail)

/-- No comment begins with a lexeme and a blank. -/
theorem Lexeme.not_comment {kind : Kind} {text rest : List Char} (h : Lexeme kind text) (hrest : Blanked rest) :
    ¬ ['/', '/'] <+: text ++ rest := by
  have hslash : ∀ mark ∈ marks, mark.1.head? = some '/' → mark.1 = ['/'] := by decide
  obtain ⟨c, tail, rfl, -⟩ := h.exists_begins
  rw [List.cons_append, prefix_commentMark_iff]
  rintro ⟨rfl, hnext⟩
  have htail : '/' :: tail = ['/'] := hslash _ (h.of_other rfl rfl (by decide)) rfl
  rw [(List.cons.inj htail).2, List.nil_append] at hnext
  exact absurd (hrest _ hnext) (by decide)

/-! ### Tokens -/

namespace Token

/-- A token as it is written in a source. -/
def written (token : Token) : String :=
  if token.kind = .string then "\"" ++ token.lexeme ++ "\"" else token.lexeme

/-- The tokens as they are written, with blanks between them. -/
def listWritten (tokens : List Token) : String :=
  " ".intercalate (tokens.map written)

/-- What is written is a lexeme of the kind of the token, whose constant is read off it. -/
structure Spelled (token : Token) : Prop where
  lexeme : Lexeme token.kind token.written.toList
  literal : token.literal = Piece.literal token.kind token.lexeme

/-- The piece that the token is written as, if it ends on the line. -/
def piece (token : Token) (line : Nat) : Piece :=
  { shape := .token token.kind, text := token.written.toList, line }

theorem lexeme_written (token : Token) : Piece.lexeme token.kind token.written.toList = token.lexeme := by
  unfold written Piece.lexeme
  split <;> simp

theorem Spelled.token?_piece {token : Token} (h : token.Spelled) (line : Nat) :
    (token.piece line).token? = some { token with line } := by
  simp only [piece, Piece.token?, lexeme_written, ← h.literal]

theorem Spelled.fits {token : Token} (h : token.Spelled) (line : Nat) {rest : List Char} (hrest : Blanked rest) :
    Fits (token.piece line).shape (token.piece line).text rest :=
  .token (h.lexeme.longest hrest) (h.lexeme.not_comment hrest)

theorem listWritten_cons_cons (token next : Token) (rest : List Token) :
    (listWritten (token :: next :: rest)).toList =
      token.written.toList ++ ' ' :: (listWritten (next :: rest)).toList := by
  simp [listWritten, String.toList_intercalate]

theorem spelled_of_mem_scan {source : String} {token : Token} (h : token ∈ (scan source).tokens.dropLast) :
    token.Spelled := by
  refine ⟨?_, literal_of_mem_scan (List.mem_of_mem_dropLast h)⟩
  rw [scan, List.dropLast_concat] at h
  obtain ⟨text, hlexeme, hword⟩ := exists_lexeme_of_mem h
  have htext : token.written.toList = text := by
    rw [(spelling_of_lexeme hlexeme).1, ← hword, written]
    split <;> simp
  rwa [htext]

end Token

/-- Well spelled tokens that are written with blanks between them are cut into these tokens and the blanks. -/
theorem exists_cut_listWritten {tokens : List Token} (h : ∀ token ∈ tokens, token.Spelled) (line : Nat) :
    ∃ cut, Cut line (Token.listWritten tokens).toList cut ∧ cut.filterMap diagnostic? = [] ∧
      Relined tokens (cut.filterMap token?) := by
  induction tokens generalizing line with
  | nil => exact ⟨[], .nil line, rfl, .nil⟩
  | cons token rest ih =>
      rw [List.forall_mem_cons] at h
      obtain ⟨htoken, hrest⟩ := h
      let first := token.piece (line + token.written.toList.count '\n')
      have hfirst : first.token? = some { token with line := first.line } := htoken.token?_piece _
      cases rest with
      | nil =>
          have hcut : Cut line (first.text ++ []) [first] := .cons (htoken.fits _ nofun) rfl (.nil _)
          refine ⟨[first], ?_, rfl, ?_⟩
          · simpa [Token.listWritten, first, Token.piece] using hcut
          · rw [List.filterMap_cons_some hfirst]
            exact .cons ⟨_, rfl⟩ .nil
      | cons next rest =>
          let blank : Piece := { shape := .blank, text := [' '], line := first.line }
          obtain ⟨cut, hcut, hclean, hsame⟩ := ih hrest first.line
          refine ⟨first :: blank :: cut, ?_, hclean, ?_⟩
          · have hblank : Cut first.line (blank.text ++ _) (blank :: cut) := .cons (.blank rfl) rfl hcut
            rw [Token.listWritten_cons_cons]
            exact .cons (htoken.fits _ (by simp [Blanked])) rfl hblank
          · rw [List.filterMap_cons_some hfirst]
            exact .cons ⟨_, rfl⟩ hsame

/-- The tokens of a source, be there errors in it or not, are scanned again without an error if they are written
with blanks between them: the same kinds, lexemes and constants in the same order, and the closing mark. -/
theorem tokens_scanAgain (source : String) :
    ∃ again line, scan (Token.listWritten (scan source).tokens.dropLast) =
        { tokens := again ++ [.closing line], diagnostics := [] } ∧
      Relined (scan source).tokens.dropLast again := by
  obtain ⟨cut, hcut, hclean, hsame⟩ := exists_cut_listWritten (fun _ => Token.spelled_of_mem_scan) 1
  refine ⟨cut.filterMap token?, 1 + (Token.listWritten (scan source).tokens.dropLast).toList.count '\n', ?_, hsame⟩
  rw [← hclean, cut_iff.mp hcut]
  rfl

example : Token.listWritten (scan "1.x//y\n? \"a b\"").tokens.dropLast = "1 . x \"a b\"" := by
  decide +kernel

end Script
