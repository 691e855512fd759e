import Script.Proofs.Scanning.Lexeme
import Script.Token.Scan

/-!
# The cut of a source

What the pieces of a source have to be, and that there is one way to cut a source into such pieces,
which is how it is scanned.
-/

namespace Script

namespace Piece

/-- `Fits shape text rest`: with `rest` behind it, the text is a piece of the shape. Of the lexemes at
some place the longest is taken, unless a comment begins there. A character is stray if no piece of
another shape begins with it, and a string is unclosed if there is no quote in all the rest. -/
inductive Fits : Shape → List Char → List Char → Prop where
  | blank {c : Char} {rest : List Char} (hblank : isBlank c = true) : Fits .blank [c] rest
  | comment {body rest : List Char} (hbody : '\n' ∉ body) (hend : ∀ c ∈ rest.head?, c = '\n') :
      Fits .comment ('/' :: '/' :: body) rest
  | token {kind : Kind} {text rest : List Char} (hlongest : Longest kind text rest)
      (hcomment : ¬ ['/', '/'] <+: text ++ rest) : Fits (.token kind) text rest
  | stray {c : Char} {rest : List Char} (hblank : isBlank c = false) (hquote : c ≠ '"')
      (hlexeme : ∀ kind tail, ¬ Lexeme kind (c :: tail)) : Fits .stray [c] rest
  | unclosed {body : List Char} (hbody : '"' ∉ body) : Fits .unclosed ('"' :: body) []

/-! ### What is measured fits -/

variable {c : Char} {rest : List Char}

theorem prefix_commentMark_iff : ['/', '/'] <+: c :: rest ↔ c = '/' ∧ rest.head? = some '/' := by
  rw [List.cons_prefix_cons, eq_comm]
  refine and_congr_right fun _ => ?_
  cases rest with
  | nil => simp
  | cons d rest => simp [List.cons_prefix_cons, eq_comm]

/-- The characters up to one that stops, which the rest begins with. -/
theorem takeWhile_stops (p : Char → Bool) (text : List Char) :
    (∀ c ∈ text.takeWhile p, p c = true) ∧ ∀ c ∈ (text.dropWhile p).head?, p c = false := by
  refine ⟨List.all_eq_true.mp List.all_takeWhile, ?_⟩
  cases hdrop : text.dropWhile p with
  | nil => simp
  | cons c rest =>
      have hhead := List.head_dropWhile_not p (hdrop ▸ List.cons_ne_nil c rest)
      simpa [hdrop] using hhead

theorem fits_token {kind : Kind} {text remainder : List Char} (hlexeme : Lexeme kind (c :: text))
    (hlongest : ∀ other tail, Lexeme other (c :: tail) → tail <+: text ++ remainder →
      tail.length ≤ text.length) (hcomment : ¬ ['/', '/'] <+: c :: (text ++ remainder)) :
    Fits (.token kind) (c :: text) remainder := by
  refine .token ⟨hlexeme, fun other longer hlonger hread => ?_⟩ hcomment
  obtain ⟨tail, rfl, htail⟩ := hlonger.exists_cons_of_startsWith hread
  exact Nat.succ_le_succ (hlongest other tail hlonger htail)

theorem fits_comment (rest : List Char) : ∃ remainder,
    '/' :: rest = ('/' :: rest).takeWhile (· != '\n') ++ remainder ∧
      Fits .comment ('/' :: ('/' :: rest).takeWhile (· != '\n')) remainder := by
  obtain ⟨hbody, hend⟩ := takeWhile_stops (· != '\n') rest
  refine ⟨rest.dropWhile (· != '\n'), ?_, .comment ?_ ?_⟩
  · exact congrArg ('/' :: ·) List.takeWhile_append_dropWhile.symm
  · exact fun hmem => absurd rfl (bne_iff_ne.mp (hbody _ hmem))
  · exact fun c hc => by simpa using hend c hc

theorem fits_quote (rest : List Char) : ∃ remainder,
    let closing := (rest.dropWhile (· != '"')).take 1
    rest = rest.takeWhile (· != '"') ++ closing ++ remainder ∧
      Fits (if closing.isEmpty then .unclosed else .token .string)
        ('"' :: (rest.takeWhile (· != '"') ++ closing)) remainder := by
  obtain ⟨hbody, hend⟩ := takeWhile_stops (· != '"') rest
  have hfree : '"' ∉ rest.takeWhile (· != '"') :=
    fun hmem => absurd rfl (bne_iff_ne.mp (hbody _ hmem))
  have hwhole := List.takeWhile_append_dropWhile (p := (· != '"')) (l := rest)
  cases hdrop : rest.dropWhile (· != '"') with
  | nil =>
      rw [hdrop, List.append_nil] at hwhole
      exact ⟨[], by simp [hwhole], by simpa using Fits.unclosed hfree⟩
  | cons c remainder =>
      have hquote : c = '"' := by simpa [hdrop] using hend
      subst hquote
      rw [hdrop] at hwhole
      refine ⟨remainder, by simp [hwhole], ?_⟩
      have hstring : Fits (.token .string) ('"' :: (rest.takeWhile (· != '"') ++ ['"'])) remainder := by
        refine fits_token (.string hfree) (fun other tail hother hread => ?_) (by simp)
        obtain ⟨-, body, rfl, hbody'⟩ := hother.of_quote
        rw [List.append_assoc, List.singleton_append, hwhole] at hread
        have hlength := length_le_of_prefix_of_all (p := (· != '"'))
          (fun c hc => bne_iff_ne.mpr fun heq => hbody' (heq ▸ hc))
          ((List.prefix_append body ['"']).trans hread)
        simpa using hlength
      simpa using hstring

/-- A lexeme at some place, which no other lexeme there is longer than. -/
theorem exists_fits_token {kind : Kind} {text : List Char} (hlexeme : Lexeme kind text)
    (hstarts : text <+: c :: rest)
    (hlongest : ∀ other longer, Lexeme other longer → longer <+: c :: rest → longer.length ≤ text.length)
    (hcomment : ¬ ['/', '/'] <+: c :: rest) :
    ∃ remainder, rest = text.tail ++ remainder ∧ Fits (.token kind) (c :: text.tail) remainder := by
  obtain ⟨tail, rfl, remainder, rfl⟩ := hlexeme.exists_cons_of_startsWith hstarts
  exact ⟨remainder, rfl, .token ⟨hlexeme, hlongest⟩ hcomment⟩

/-- The piece that is measured at some place is one that fits there. -/
theorem fits_measure (c : Char) (rest : List Char) :
    ∃ remainder, rest = (measure c rest).2 ++ remainder ∧
      Fits (measure c rest).1 (c :: (measure c rest).2) remainder := by
  unfold measure
  split
  · next hblank => exact ⟨rest, rfl, .blank hblank⟩
  split
  · next hcomment =>
      simp only [Bool.and_eq_true, beq_iff_eq] at hcomment
      obtain ⟨rfl, hslash⟩ := hcomment
      obtain ⟨rest, rfl⟩ := List.head?_eq_some_iff.mp hslash
      exact fits_comment rest
  next hblank hcomment =>
  have hcomment : ¬ ['/', '/'] <+: c :: rest := by
    rw [prefix_commentMark_iff]
    simpa using hcomment
  split
  · next hquote =>
      rw [beq_iff_eq.mp hquote]
      exact fits_quote rest
  next hquote =>
  have hquote : c ≠ '"' := by simpa using hquote
  split
  · next hdigit =>
      refine exists_fits_token (.number (numeral_numeral hdigit rest)) (numeral_isPrefixOf _)
        (fun other longer hlonger hread => ?_) hcomment
      obtain ⟨tail, rfl, -⟩ := hlonger.exists_cons_of_startsWith hread
      exact (hlonger.of_isDigit hdigit).2.length_le hread
  next hdigit =>
  split
  · next hword =>
      have hrest := (takeWhile_stops continuesWord rest).1
      refine exists_fits_token (lexeme_ofWord hword hrest)
        (List.cons_prefix_cons.mpr ⟨rfl, List.takeWhile_prefix _⟩)
        (fun other longer hlonger hread => ?_) hcomment
      obtain ⟨tail, rfl, htail⟩ := hlonger.exists_cons_of_startsWith hread
      exact Nat.succ_le_succ (length_le_of_prefix_of_all (hlonger.of_startsWord hword).2 htail)
  next hword =>
  have hmarks {other : Kind} {tail : List Char} (h : Lexeme other (c :: tail)) :
      (c :: tail, other) ∈ marks :=
    h.of_other (Bool.eq_false_iff.mpr hword) (Bool.eq_false_iff.mpr hdigit) hquote
  split
  · next text kind hmark =>
      refine exists_fits_token (.mark (mem_marks_of_mark? hmark)) (mark?_isPrefixOf hmark)
        (fun other longer hlonger hread => ?_) hcomment
      obtain ⟨tail, rfl, -⟩ := hlonger.exists_cons_of_startsWith hread
      exact length_le_of_mark? hmark (hmarks hlonger) hread
  · next hmark =>
      refine ⟨rest, rfl, .stray (Bool.eq_false_iff.mpr hblank) hquote fun kind tail hlexeme => ?_⟩
      exact mark?_ne_none (hmarks hlexeme) rest hmark

/-! ### What fits is measured -/

theorem takeWhile_append_of_stops {p : Char → Bool} {body : List Char} (remainder : List Char)
    (hbody : ∀ c ∈ body, p c = true) (hend : ∀ c ∈ remainder.head?, p c = false) :
    (body ++ remainder).takeWhile p = body ∧ (body ++ remainder).dropWhile p = remainder := by
  rw [List.takeWhile_append_of_pos hbody, List.dropWhile_append_of_pos hbody]
  cases remainder with
  | nil => simp
  | cons c remainder => simp [hend c rfl]

/-- Where a lexeme is taken, no piece of another shape fits. -/
theorem Fits.eq_of_longest {kind : Kind} {text remainder : List Char}
    (hlongest : Longest kind text remainder) (hcomment : ¬ ['/', '/'] <+: text ++ remainder)
    {shape : Shape} {other : List Char} (h : Fits shape other rest)
    (heq : text ++ remainder = other ++ rest) : shape = .token kind ∧ other = text := by
  obtain ⟨c, tail, rfl, -⟩ := hlongest.lexeme.exists_begins
  have hlexeme := hlongest.lexeme
  cases h with
  | blank hblank =>
      rw [← (List.cons.inj heq).1, hlexeme.isBlank_eq_false] at hblank
      cases hblank
  | comment => exact absurd (by simp [heq]) hcomment
  | stray _ _ hnone =>
      rw [(List.cons.inj heq).1] at hlexeme
      exact absurd hlexeme (hnone _ _)
  | unclosed hbody =>
      rw [List.append_nil] at heq
      obtain ⟨rfl, rfl⟩ := List.cons.inj heq
      obtain ⟨-, body, rfl, -⟩ := hlexeme.of_quote
      exact absurd (by simp) hbody
  | token hother =>
      have hle := hlongest.longest _ other hother.lexeme (heq ▸ List.prefix_append other rest)
      have hge := hother.longest _ _ hlexeme (heq ▸ List.prefix_append (c :: tail) remainder)
      obtain ⟨rfl, -⟩ := List.append_inj heq (Nat.le_antisymm hge hle)
      exact ⟨congrArg Shape.token (hother.lexeme.kind_unique hlexeme), rfl⟩

theorem Fits.exists_cons {shape : Shape} {text : List Char} (h : Fits shape text rest) :
    ∃ c tail, text = c :: tail := by
  cases h with
  | token hlongest =>
      obtain ⟨c, tail, htext, -⟩ := hlongest.lexeme.exists_begins
      exact ⟨c, tail, htext⟩
  | blank | comment | stray | unclosed => exact ⟨_, _, rfl⟩

theorem Fits.eq_nil_of_unclosed {text : List Char} (h : Fits .unclosed text rest) : rest = [] := by
  cases h
  rfl

theorem Fits.measure_eq {shape : Shape} {tail : List Char} (h : Fits shape (c :: tail) rest) :
    measure c (tail ++ rest) = (shape, tail) := by
  obtain ⟨remainder, hremainder, hmeasured⟩ := fits_measure c (tail ++ rest)
  cases h with
  | blank hblank => rw [measure, if_pos hblank]
  | @comment body _ hbody hend =>
      have hread := (takeWhile_append_of_stops (p := (· != '\n')) rest
        (fun c hc => bne_iff_ne.mpr fun heq => hbody (heq ▸ hc))
        (fun c hc => bne_eq_false_iff_eq.mpr (hend c hc))).1
      simp [measure, isBlank, hread]
  | @unclosed body hbody =>
      have hread := takeWhile_append_of_stops (p := (· != '"')) []
        (fun c hc => bne_iff_ne.mpr fun heq => hbody (heq ▸ hc)) (by simp)
      rw [List.append_nil] at hread ⊢
      simp [measure, isBlank, hread]
  | token hlongest hcomment =>
      have heq : c :: tail ++ rest = c :: (measure c (tail ++ rest)).2 ++ remainder :=
        congrArg (c :: ·) hremainder
      obtain ⟨hshape, htail⟩ := hmeasured.eq_of_longest hlongest hcomment heq
      exact Prod.ext hshape (List.cons.inj htail).2
  | stray hblank hquote hlexeme =>
      generalize measure c ([] ++ rest) = measured at hmeasured
      obtain ⟨shape, tail⟩ := measured
      cases hmeasured with
      | blank hblank' => rw [hblank] at hblank'; cases hblank'
      | comment => exact absurd (.mark (by decide)) (hlexeme .slash [])
      | token hlongest => exact absurd hlongest.lexeme (hlexeme _ _)
      | stray => rfl
      | unclosed => exact absurd rfl hquote

end Piece

/-! ### Cuts -/

/-- `Cut line source pieces`: one after the other, the pieces are a source that begins on the line, each
fits where it stands, and each is given the line on which it ends. -/
inductive Cut : Nat → List Char → List Piece → Prop where
  | nil (line : Nat) : Cut line [] []
  | cons {line : Nat} {piece : Piece} {rest : List Char} {pieces : List Piece}
      (hfits : Piece.Fits piece.shape piece.text rest)
      (hline : piece.line = line + piece.text.count '\n') (hrest : Cut piece.line rest pieces) :
      Cut line (piece.text ++ rest) (piece :: pieces)

theorem Cut.flatMap_text {line : Nat} {source : List Char} {pieces : List Piece}
    (h : Cut line source pieces) : pieces.flatMap Piece.text = source := by
  induction h with
  | nil => rfl
  | cons _ _ _ ih => rw [List.flatMap_cons, ih]

theorem Cut.eq_nil {line : Nat} {cut : List Piece} (h : Cut line [] cut) : cut = [] := by
  generalize hsource : [] = source at h
  cases h with
  | nil => rfl
  | cons hfits =>
      obtain ⟨c, tail, htext⟩ := hfits.exists_cons
      rw [htext] at hsource
      cases hsource

/-- The rest of a cut is a cut of the rest. -/
theorem Cut.drop {line : Nat} {source : List Char} {before after : List Piece}
    (h : Cut line source (before ++ after)) :
    Cut (line + (before.flatMap Piece.text).count '\n') (after.flatMap Piece.text) after := by
  induction before generalizing line source with
  | nil =>
      rw [List.nil_append] at h
      rwa [h.flatMap_text]
  | cons first before ih =>
      cases h with
      | cons _ hline hrest =>
          rw [List.flatMap_cons, List.count_append, ← Nat.add_assoc, ← hline]
          exact ih hrest

/-- A piece of a cut fits where it stands, and ends on the line that the newlines up to there lead to. -/
theorem Cut.piece_at {line : Nat} {source : List Char} {before after : List Piece} {piece : Piece}
    (h : Cut line source (before ++ piece :: after)) :
    Piece.Fits piece.shape piece.text (after.flatMap Piece.text) ∧
      piece.line = line + ((before ++ [piece]).flatMap Piece.text).count '\n' := by
  have hrest := h.drop
  rw [List.flatMap_cons] at hrest
  generalize hsource : piece.text ++ after.flatMap Piece.text = source at hrest
  cases hrest with
  | cons hfits hline =>
      rw [List.append_cancel_left hsource]
      refine ⟨hfits, ?_⟩
      rw [hline, List.flatMap_append, List.count_append, Nat.add_assoc, List.flatMap_singleton]

/-- Behind an unclosed string nothing is left for another piece. -/
theorem Cut.eq_nil_of_unclosed {line : Nat} {source : List Char} {before after : List Piece}
    {piece : Piece} (h : Cut line source (before ++ piece :: after)) (hshape : piece.shape = .unclosed) :
    after = [] := by
  have hfits := h.piece_at.1
  rw [hshape] at hfits
  rw [List.append_cons] at h
  have hrest := h.drop
  rw [hfits.eq_nil_of_unclosed] at hrest
  exact hrest.eq_nil

/-- A cut of a source is the one that scanning makes. -/
theorem Cut.piecesAfter_eq {line : Nat} {source : List Char} {pieces : List Piece}
    (h : Cut line source pieces) (seen : List Piece) :
    piecesAfter line seen source = seen.reverse ++ pieces := by
  induction h generalizing seen with
  | nil => rw [piecesAfter, List.append_nil]
  | @cons line piece rest pieces hfits hline _ ih =>
      obtain ⟨shape, text, last⟩ := piece
      obtain ⟨c, tail, rfl⟩ := hfits.exists_cons
      have hfirst : Piece.first line c (tail ++ rest) = ⟨shape, c :: tail, last⟩ := by
        rw [Piece.first, hfits.measure_eq]
        exact congrArg (Piece.mk shape (c :: tail)) hline.symm
      have hdrop : (tail ++ rest).drop ((c :: tail).length - 1) = rest := by
        rw [List.length_cons, Nat.add_sub_cancel, List.drop_left]
      rw [List.cons_append, piecesAfter, hfirst]
      simp only [hdrop]
      rw [ih, List.reverse_cons, List.append_assoc, List.singleton_append]

theorem exists_cut (line : Nat) (source : List Char) : ∃ pieces, Cut line source pieces := by
  induction hlength : source.length using Nat.strongRecOn generalizing line source with
  | ind length ih =>
      cases source with
      | nil => exact ⟨[], .nil line⟩
      | cons c rest =>
          obtain ⟨remainder, hremainder, hfits⟩ := Piece.fits_measure c rest
          have hshorter : remainder.length < length := by
            have hsum := congrArg List.length hremainder
            rw [List.length_append] at hsum
            rw [← hlength, List.length_cons]
            omega
          let piece := Piece.first line c rest
          obtain ⟨pieces, hcut⟩ := ih _ hshorter piece.line remainder rfl
          refine ⟨piece :: pieces, ?_⟩
          have hwhole : c :: rest = piece.text ++ remainder := congrArg (c :: ·) hremainder
          rw [hwhole]
          exact .cons hfits rfl hcut

/-- There is one cut of a source, and scanning finds it. -/
theorem cut_iff {source : List Char} {cut : List Piece} : Cut 1 source cut ↔ cut = pieces source := by
  have hfound {cut : List Piece} (h : Cut 1 source cut) : pieces source = cut := h.piecesAfter_eq []
  refine ⟨fun h => (hfound h).symm, ?_⟩
  rintro rfl
  obtain ⟨cut, hcut⟩ := exists_cut 1 source
  rw [hfound hcut]
  exact hcut

/-- A token is made of a lexeme. -/
theorem exists_lexeme_of_mem {source : List Char} {token : Token}
    (h : token ∈ (pieces source).filterMap Piece.token?) :
    ∃ text, Lexeme token.kind text ∧ token.lexeme = Piece.lexeme token.kind text := by
  obtain ⟨piece, hmem, htoken⟩ := List.mem_filterMap.mp h
  obtain ⟨before, after, hpieces⟩ := List.append_of_mem hmem
  have hcut : Cut 1 source (before ++ piece :: after) := hpieces ▸ cut_iff.mpr rfl
  have hfits := hcut.piece_at.1
  obtain ⟨shape, text, line⟩ := piece
  generalize after.flatMap Piece.text = rest at hfits
  cases hfits with
  | token hlongest =>
      obtain rfl : _ = token := Option.some.inj htoken
      exact ⟨text, hlongest.lexeme, rfl⟩
  | blank | comment | stray | unclosed => cases htoken

end Script
