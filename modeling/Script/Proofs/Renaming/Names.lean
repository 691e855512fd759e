import Script.Proofs.Joining.Parser
import Script.Proofs.Receiver.Names

/-!
# Other names

A renaming gives every name another one, never two names the same one, and leaves the names with a meaning of their
own. The tokens of a source are read alike under both: the same trees, with renamed tokens in the places of names,
and the same errors.
-/

namespace Script

open Script.Parser

/-- The words that can be names: those that are read as identifiers. -/
def IsName (word : String) : Prop :=
  Lexeme .identifier word.toList

theorem IsName.not_keyword {word : String} (h : IsName word) (kind : Kind) : (word, kind) ∉ Kind.keywords := by
  intro hmem
  have hword := Lexeme.ofWord_of_identifier h
  rw [String.ofList_toList, (keyword_isWord hmem).1] at hword
  have hnone : ∀ entry ∈ Kind.keywords, entry.2 ≠ .identifier := by decide
  exact hnone _ hmem hword

theorem isName_of_word {word : String} {c : Char} {rest : List Char} (htext : word.toList = c :: rest)
    (hword : (Piece.startsWord c && rest.all Piece.continuesWord) = true) (hkind : Kind.ofWord word = .identifier) :
    IsName word := by
  obtain ⟨hstart, hrest⟩ := Bool.and_eq_true_iff.mp hword
  have hlexeme := lexeme_ofWord hstart (List.all_eq_true.mp hrest)
  rwa [← htext, String.ofList_toList, hkind] at hlexeme

/-- A consistent change of all names. -/
structure Renaming where
  rename : String → String
  /-- Different names stay different. -/
  injective : ∀ {name name'}, IsName name → IsName name' → rename name = rename name' → name = name'
  /-- No name becomes a keyword. -/
  free : ∀ {name}, IsName name → ∀ kind, (rename name, kind) ∉ Kind.keywords
  initializer : rename Class.initializer = Class.initializer
  clock : rename Native.clock.name = Native.clock.name

namespace Renaming

variable (r : Renaming)

/-- What a scope, an object or a class may have an entry for, and what it has one for after the renaming. -/
inductive Names : String → String → Prop where
  | name {word : String} (h : IsName word) : Names word (r.rename word)
  | receiver : Names "this" "this"

variable {r}

theorem names_unique : Relator.BiUnique r.Names := by
  -- The receiver cannot be mistaken for a name, before or after the renaming, because `this` is a keyword.
  have hthis : ("this", Kind.thisWord) ∈ Kind.keywords := by decide
  constructor
  · intro name other name' h hother
    cases h with
    | name h =>
        generalize hname' : r.rename name = name' at hother
        cases hother with
        | name hother => exact r.injective h hother hname'
        | receiver => exact absurd hthis (hname' ▸ r.free h _)
    | receiver =>
        generalize hname' : "this" = name' at hother
        cases hother with
        | name hother => exact absurd hthis (hname' ▸ r.free hother _)
        | receiver => rfl
  · intro name name' other h hother
    cases h with
    | name h =>
        cases hother with
        | name => rfl
        | receiver => exact absurd hthis (h.not_keyword _)
    | receiver =>
        cases hother with
        | name hother => exact absurd hthis (hother.not_keyword _)
        | receiver => rfl

theorem eq_iff {name name' other other' : String} (h : r.Names name name') (hother : r.Names other other') :
    name = other ↔ name' = other' :=
  Relator.rel_eq names_unique h hother

theorem names_initializer : r.Names Class.initializer Class.initializer := by
  have htext : Class.initializer.toList = ['i', 'n', 'i', 't'] := rfl
  have hname : IsName Class.initializer := isName_of_word htext rfl rfl
  have h := Names.name (r := r) hname
  rwa [r.initializer] at h

theorem names_clock : r.Names Native.clock.name Native.clock.name := by
  have htext : Native.clock.name.toList = ['c', 'l', 'o', 'c', 'k'] := rfl
  have hname : IsName Native.clock.name := isName_of_word htext rfl rfl
  have h := Names.name (r := r) hname
  rwa [r.clock] at h

end Renaming

/-! ### Tokens -/

def Literal.renamed (r : Renaming) : Literal → Literal
  | .identifier name => .identifier (r.rename name)
  | literal => literal

/-- A token with its name renamed, if it is an identifier. -/
def Token.renamed (r : Renaming) (token : Token) : Token :=
  if token.kind = .identifier then
    { token with lexeme := r.rename token.lexeme, literal := token.literal.renamed r }
  else token

def Scan.renamed (r : Renaming) (scanned : Scan) : Scan :=
  { scanned with tokens := scanned.tokens.map (Token.renamed r) }

section Tokens

variable {r : Renaming} {token token' : Token}

theorem Token.renamed_of_ne (h : token.kind ≠ .identifier) : token.renamed r = token :=
  if_neg h

theorem Token.lexeme_renamed (h : token.kind = .identifier) : (token.renamed r).lexeme = r.rename token.lexeme := by
  rw [renamed, if_pos h]

@[simp]
theorem Token.kind_renamed (token : Token) : (token.renamed r).kind = token.kind := by
  unfold renamed
  split <;> rfl

/-- Tokens correspond that are renamed. Names can be names, and receivers are `this`. -/
def Renaming.matching (r : Renaming) : Matching := fun use token token' =>
  token' = token.renamed r ∧
    match use with
    | .name => token.kind = .identifier ∧ IsName token.lexeme
    | .receiver => token.kind = .thisWord ∧ token.lexeme = "this"
    | _ => True

theorem Renaming.kind_eq {use : Use} (h : r.matching use token token') : token'.kind = token.kind := by
  rw [h.1, Token.kind_renamed]

theorem Renaming.lexeme_eq (h : r.matching .name token token') : token'.lexeme = r.rename token.lexeme := by
  rw [h.1, Token.lexeme_renamed h.2.1]

theorem Renaming.names_of_name (h : r.matching .name token token') : r.Names token.lexeme token'.lexeme := by
  rw [lexeme_eq h]
  exact .name h.2.2

theorem Renaming.names_of_receiver (h : r.matching .receiver token token') :
    r.Names token.lexeme token'.lexeme := by
  obtain ⟨rfl, hkind, hlexeme⟩ := h
  rw [Token.renamed_of_ne (by rw [hkind]; decide), hlexeme]
  exact .receiver

theorem twin_renamed_of_mem_scan {source : String} (r : Renaming) (h : token ∈ (scan source).tokens) :
    token.Twin r.matching (token.renamed r) := by
  refine ⟨Token.kind_renamed token, fun hkind => by rw [Token.renamed_of_ne hkind], ?_⟩
  rcases List.mem_append.mp h with hpiece | hclosing
  · obtain ⟨text, hlexeme, hword⟩ := exists_lexeme_of_mem hpiece
    intro use hkind
    refine ⟨rfl, ?_⟩
    cases use with
    | name =>
        obtain hkind : token.kind = .identifier := hkind
        rw [hkind] at hlexeme hword
        refine ⟨hkind, ?_⟩
        rwa [IsName, show token.lexeme = String.ofList text from hword, String.toList_ofList]
    | receiver =>
        obtain hkind : token.kind = .thisWord := hkind
        rw [hkind] at hlexeme hword
        exact ⟨hkind, hword.trans hlexeme.eq_of_thisWord⟩
    | operator | sign | paren | mark => trivial
  · rw [List.mem_singleton.mp hclosing]
    intro use hkind
    refine ⟨rfl, ?_⟩
    cases use with
    | name | receiver => cases hkind
    | operator | sign | paren | mark => trivial

end Tokens

/-! ### Trees -/

/-- The rest of a list of tokens up to its closing mark, and the same tokens renamed. -/
structure Parser.Renamed (r : Renaming) (tokens near far : List Token) : Prop where
  rest : near <:+ tokens
  closed : ∃ closing ∈ near, closing.kind = .endMark
  renamed : far = near.map (Token.renamed r)

section Trees

variable {r : Renaming} {tokens near far : List Token}

theorem Parser.Renamed.tail {token token' : Token} (h : Renamed r tokens (token :: near) (token' :: far))
    (hend : token.kind ≠ .endMark) : Renamed r tokens near far := by
  obtain ⟨hrest, ⟨closing, hmem, hkind⟩, hrenamed⟩ := h
  refine ⟨(List.suffix_cons token near).trans hrest, ⟨closing, ?_, hkind⟩, (List.cons.inj hrenamed).2⟩
  refine (List.mem_cons.mp hmem).resolve_left ?_
  rintro rfl
  exact hend hkind

theorem Parser.tracks_renamed (htwins : ∀ token ∈ tokens, token.Twin r.matching (token.renamed r)) :
    Tracks r.matching (Renamed r tokens) := by
  refine tracks_of_cons fun near far h => ?_
  cases near with
  | nil => exact .inl ⟨rfl, h.renamed⟩
  | cons token near =>
      obtain rfl := h.renamed
      exact .inr ⟨token, _, near, _, rfl, rfl, htwins token (h.rest.subset List.mem_cons_self), h.tail⟩

theorem Parser.through_renamed : Through (Renamed r tokens) := by
  rintro near far ⟨stop, stop', hstop, h⟩
  exact h.tail (by rw [hstop]; decide)

/-- The same error, on a line or at a token that is renamed. -/
inductive Diagnostic.Renamed (r : Renaming) (tokens : List Token) : Diagnostic → Diagnostic → Prop where
  | atLine (line : Nat) (message : String) : Renamed r tokens (.atLine line message) (.atLine line message)
  | atToken {token : Token} (hmem : token ∈ tokens) (message : String) :
      Renamed r tokens (.atToken token message) (.atToken (token.renamed r) message)

theorem Parser.renamed_diagnostics {reports reports' : List Report}
    (h : List.Forall₂ (Report.Alike (Renamed r tokens)) reports reports') (last last' : Nat) :
    List.Forall₂ (Diagnostic.Renamed r tokens) (reports.map (Report.diagnostic last))
      (reports'.map (Report.diagnostic last')) := by
  refine List.rel_map ?_ h
  rintro ⟨unread, error⟩ ⟨unread', _⟩ ⟨rfl, hunread⟩
  obtain ⟨closing, hmem, -⟩ := hunread.closed
  obtain ⟨token, near, rfl⟩ := List.exists_cons_of_ne_nil (List.ne_nil_of_mem hmem)
  obtain rfl := hunread.renamed
  exact .atToken (hunread.rest.subset List.mem_cons_self) error.message

/-- The renamed tokens of a source are read as the tokens are. -/
theorem parseProgram_renamed (r : Renaming) (source : String) :
    let parsed := parseProgram (scan source).tokens
    let parsed' := parseProgram ((scan source).renamed r).tokens
    List.Forall₂ (Stmt.Like r.matching) parsed.tree parsed'.tree ∧
      List.Forall₂ (Diagnostic.Renamed r (scan source).tokens) parsed.diagnostics parsed'.diagnostics := by
  have htwins : ∀ token ∈ (scan source).tokens, token.Twin r.matching (token.renamed r) :=
    fun _ => twin_renamed_of_mem_scan r
  have htracks := tracks_renamed htwins
  have hclosed : ∃ closing ∈ (scan source).tokens, closing.kind = .endMark :=
    ⟨_, List.mem_append_right _ (List.mem_singleton_self _), rfl⟩
  generalize hsource : (scan source).tokens = tokens at htracks hclosed
  have hrenamed : ((scan source).renamed r).tokens = tokens.map (Token.renamed r) := by rw [Scan.renamed, hsource]
  have halike := simulates_program htracks through_renamed (levels tokens) (levels (tokens.map (Token.renamed r)))
    tokens _ ⟨List.suffix_rfl, hclosed, rfl⟩
  have hnear := program_ne_exhausted tokens
  have hfar := program_ne_exhausted (tokens.map (Token.renamed r))
  simp only [hrenamed]
  refine ⟨?_, renamed_diagnostics (halike.reports hnear hfar) _ _⟩
  unfold parseProgram parse
  generalize program (levels tokens) tokens = outcome at halike hnear ⊢
  generalize program _ (tokens.map (Token.renamed r)) = outcome' at halike hfar ⊢
  cases outcome <;> cases outcome' <;> try contradiction
  · exact halike.1
  · exact .nil

end Trees

end Script
