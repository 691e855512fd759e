import Script.Token.Piece

/-!
# Lexemes

The texts of tokens, by kind and without saying how to find them: marks, words, numerals and strings.
What a lexeme is shows in its first character, and its kind in its text. Of the lexemes that a text
begins with, the longest is measured.
-/

namespace Script

open Piece

/-- Digits, or digits on both sides of a point. -/
inductive Numeral : List Char → Prop where
  | whole {digits : List Char} (hne : digits ≠ []) (hdigits : ∀ d ∈ digits, d.isDigit = true) :
      Numeral digits
  | fraction {digits places : List Char} (hne : digits ≠ []) (hdigits : ∀ d ∈ digits, d.isDigit = true)
      (hplaces : places ≠ []) (hfraction : ∀ d ∈ places, d.isDigit = true) :
      Numeral (digits ++ '.' :: places)

/-- `Lexeme kind text`: the text is that of a token of the kind. A word is an identifier unless the
whole of it is a keyword. -/
inductive Lexeme : Kind → List Char → Prop where
  | mark {kind : Kind} {text : List Char} (hmark : (text, kind) ∈ marks) : Lexeme kind text
  | keyword {kind : Kind} {text : List Char} (hword : (String.ofList text, kind) ∈ Kind.keywords) :
      Lexeme kind text
  | identifier {c : Char} {rest : List Char} (hstart : startsWord c = true)
      (hrest : ∀ d ∈ rest, continuesWord d = true)
      (hfree : ∀ kind, (String.ofList (c :: rest), kind) ∉ Kind.keywords) :
      Lexeme .identifier (c :: rest)
  | number {text : List Char} (hnumeral : Numeral text) : Lexeme .number text
  | string {body : List Char} (hbody : '"' ∉ body) : Lexeme .string ('"' :: (body ++ ['"']))

/-! ### First characters -/

theorem isDigit_eq_false_of_startsWord {c : Char} (h : startsWord c = true) : c.isDigit = false := by
  have hletter : c.isAlpha =
      (decide (c.val ≥ 'A'.val ∧ c.val ≤ 'Z'.val) || (c.val ≥ 'a'.val && c.val ≤ 'z'.val)) := rfl
  simp only [startsWord, hletter, Bool.or_eq_true, Bool.and_eq_true, decide_eq_true_eq,
    UInt32.le_iff_toNat_le, beq_iff_eq] at h
  rcases h with h | rfl
  · simp only [Char.isDigit, Bool.and_eq_false_iff, decide_eq_false_iff_not, UInt32.le_iff_toNat_le]
    have hupper : 'A'.val.toNat = 65 := rfl
    have hlower : 'a'.val.toNat = 97 := rfl
    have hnine : '9'.val.toNat = 57 := rfl
    omega
  · rfl

/-- A mark begins with none of the characters that words, numerals and strings begin with. -/
theorem exists_of_mem_marks {kind : Kind} {text : List Char} (h : (text, kind) ∈ marks) :
    ∃ c rest, text = c :: rest ∧ isBlank c = false ∧ startsWord c = false ∧ c.isDigit = false ∧
      c ≠ '"' := by
  have hall : ∀ mark ∈ marks, mark.1.head?.any fun c =>
      !isBlank c && !startsWord c && !c.isDigit && c != '"' := by decide
  have hfirst := hall _ h
  cases text with
  | nil => cases hfirst
  | cons c rest =>
      refine ⟨c, rest, rfl, ?_⟩
      simpa [and_assoc] using hfirst

theorem keyword_isWord {word : String} {kind : Kind} (h : (word, kind) ∈ Kind.keywords) :
    Kind.ofWord word = kind ∧ word.toList.head?.any startsWord = true ∧
      word.toList.all continuesWord = true := by
  have hall : ∀ entry ∈ Kind.keywords, Kind.ofWord entry.1 = entry.2 ∧
      entry.1.toList.head?.any startsWord = true ∧ entry.1.toList.all continuesWord = true := by
    decide
  exact hall _ h

theorem ofWord_of_free {word : String} (h : ∀ kind, (word, kind) ∉ Kind.keywords) :
    Kind.ofWord word = .identifier := by
  have hnone : Kind.keywords.lookup word = none := by
    rw [List.lookup_eq_none_iff]
    rintro ⟨other, kind⟩ hmem
    rw [bne_iff_ne]
    rintro rfl
    exact h kind hmem
  rw [Kind.ofWord, hnone, Option.getD_none]

theorem lexeme_ofWord {c : Char} {rest : List Char} (hstart : startsWord c = true)
    (hrest : ∀ d ∈ rest, continuesWord d = true) :
    Lexeme (.ofWord (String.ofList (c :: rest))) (c :: rest) := by
  by_cases hkeyword : ∃ kind, (String.ofList (c :: rest), kind) ∈ Kind.keywords
  · obtain ⟨kind, hkind⟩ := hkeyword
    rw [(keyword_isWord hkind).1]
    exact .keyword hkind
  · have hfree := not_exists.mp hkeyword
    rw [ofWord_of_free hfree]
    exact .identifier hstart hrest hfree

/-- A lexeme after its first character, which tells the four sorts apart. -/
inductive Lexeme.Begins : Kind → Char → List Char → Prop where
  | word {c : Char} {rest : List Char} (hstart : startsWord c = true)
      (hrest : ∀ d ∈ rest, continuesWord d = true) :
      Begins (.ofWord (String.ofList (c :: rest))) c rest
  | number {c : Char} {rest : List Char} (hdigit : c.isDigit = true) (hnumeral : Numeral (c :: rest)) :
      Begins .number c rest
  | string {body : List Char} (hbody : '"' ∉ body) : Begins .string '"' (body ++ ['"'])
  | mark {kind : Kind} {c : Char} {rest : List Char} (hmark : (c :: rest, kind) ∈ marks) :
      Begins kind c rest

theorem Numeral.exists_cons {text : List Char} (h : Numeral text) :
    ∃ c rest, text = c :: rest ∧ c.isDigit = true := by
  cases h with
  | whole hne hdigits =>
      obtain ⟨c, rest, rfl⟩ := List.exists_cons_of_ne_nil hne
      exact ⟨c, rest, rfl, hdigits c List.mem_cons_self⟩
  | fraction hne hdigits =>
      obtain ⟨c, rest, rfl⟩ := List.exists_cons_of_ne_nil hne
      exact ⟨c, _, rfl, hdigits c List.mem_cons_self⟩

namespace Lexeme

variable {kind : Kind} {c : Char} {rest : List Char}

theorem exists_begins {text : List Char} (h : Lexeme kind text) :
    ∃ c rest, text = c :: rest ∧ Begins kind c rest := by
  cases h with
  | mark hmark =>
      obtain ⟨c, rest, rfl, -⟩ := exists_of_mem_marks hmark
      exact ⟨c, rest, rfl, .mark hmark⟩
  | keyword hword =>
      obtain ⟨hkind, hstart, hall⟩ := keyword_isWord hword
      rw [String.toList_ofList] at hstart hall
      cases text with
      | nil => cases hstart
      | cons c rest =>
          rw [← hkind]
          have hrest : ∀ d ∈ rest, continuesWord d = true := fun d hd =>
            List.all_eq_true.mp hall d (List.mem_cons_of_mem c hd)
          exact ⟨c, rest, rfl, .word hstart hrest⟩
  | identifier hstart hrest hfree =>
      rw [← ofWord_of_free hfree]
      exact ⟨_, _, rfl, .word hstart hrest⟩
  | number hnumeral =>
      obtain ⟨c, rest, rfl, hdigit⟩ := hnumeral.exists_cons
      exact ⟨c, rest, rfl, .number hdigit hnumeral⟩
  | string hbody => exact ⟨_, _, rfl, .string hbody⟩

theorem begins (h : Lexeme kind (c :: rest)) : Begins kind c rest := by
  obtain ⟨c', rest', heq, hbegins⟩ := h.exists_begins
  obtain ⟨rfl, rfl⟩ := List.cons.inj heq
  exact hbegins

theorem of_startsWord (h : Lexeme kind (c :: rest)) (hc : startsWord c = true) :
    kind = .ofWord (String.ofList (c :: rest)) ∧ ∀ d ∈ rest, continuesWord d = true := by
  cases h.begins with
  | word _ hrest => exact ⟨rfl, hrest⟩
  | number hdigit => rw [isDigit_eq_false_of_startsWord hc] at hdigit; cases hdigit
  | string => cases hc
  | mark hmark =>
      obtain ⟨_, _, heq, -, hword, -⟩ := exists_of_mem_marks hmark
      rw [(List.cons.inj heq).1, hword] at hc
      cases hc

theorem of_isDigit (h : Lexeme kind (c :: rest)) (hc : c.isDigit = true) :
    kind = .number ∧ Numeral (c :: rest) := by
  cases h.begins with
  | word hstart => rw [isDigit_eq_false_of_startsWord hstart] at hc; cases hc
  | number _ hnumeral => exact ⟨rfl, hnumeral⟩
  | string => cases hc
  | mark hmark =>
      obtain ⟨_, _, heq, -, -, hdigit, -⟩ := exists_of_mem_marks hmark
      rw [(List.cons.inj heq).1, hdigit] at hc
      cases hc

theorem of_quote (h : Lexeme kind ('"' :: rest)) :
    kind = .string ∧ ∃ body, rest = body ++ ['"'] ∧ '"' ∉ body := by
  cases h.begins with
  | word hstart => cases hstart
  | number hdigit => cases hdigit
  | string hbody => exact ⟨rfl, _, rfl, hbody⟩
  | mark hmark =>
      obtain ⟨_, _, heq, -, -, -, hquote⟩ := exists_of_mem_marks hmark
      exact absurd (List.cons.inj heq).1.symm hquote

theorem of_other (h : Lexeme kind (c :: rest)) (hword : startsWord c = false)
    (hdigit : c.isDigit = false) (hquote : c ≠ '"') : (c :: rest, kind) ∈ marks := by
  cases h.begins with
  | word hstart => rw [hword] at hstart; cases hstart
  | number hdigit' => rw [hdigit] at hdigit'; cases hdigit'
  | string => exact absurd rfl hquote
  | mark hmark => exact hmark

theorem isBlank_eq_false (h : Lexeme kind (c :: rest)) : isBlank c = false := by
  have hblank {c : Char} (hc : isBlank c = true) : startsWord c = false ∧ c.isDigit = false := by
    simp only [isBlank, Bool.or_eq_true, beq_iff_eq] at hc
    rcases hc with ((rfl | rfl) | rfl) | rfl <;> exact ⟨rfl, rfl⟩
  cases hc : isBlank c with
  | false => rfl
  | true =>
      cases h.begins with
      | word hstart => rw [(hblank hc).1] at hstart; cases hstart
      | number hdigit => rw [(hblank hc).2] at hdigit; cases hdigit
      | string => cases hc
      | mark hmark =>
          obtain ⟨_, _, heq, hmark, -⟩ := exists_of_mem_marks hmark
          rw [(List.cons.inj heq).1, hmark] at hc
          cases hc

/-- The kind of a token shows in its text. -/
theorem kind_unique {text : List Char} {other : Kind} (h : Lexeme kind text) (h' : Lexeme other text) :
    kind = other := by
  have hmarks : ∀ mark ∈ marks, ∀ mark' ∈ marks, mark.1 = mark'.1 → mark.2 = mark'.2 := by decide
  obtain ⟨c, rest, rfl, hbegins⟩ := h.exists_begins
  cases hbegins with
  | word hstart => exact (h'.of_startsWord hstart).1.symm
  | number hdigit => exact (h'.of_isDigit hdigit).1.symm
  | string => exact h'.of_quote.1.symm
  | mark hmark =>
      obtain ⟨_, _, heq, -, hword, hdigit, hquote⟩ := exists_of_mem_marks hmark
      obtain ⟨rfl, rfl⟩ := List.cons.inj heq
      exact hmarks _ hmark _ (h'.of_other hword hdigit hquote) rfl

theorem numeral {text : List Char} (h : Lexeme .number text) : Numeral text := by
  have hmarks : ∀ mark ∈ marks, mark.2 ≠ .number := by decide
  have hkeywords : ∀ entry ∈ Kind.keywords, entry.2 ≠ .number := by decide
  cases h with
  | mark hmark => exact absurd rfl (hmarks _ hmark)
  | keyword hword => exact absurd rfl (hkeywords _ hword)
  | number hnumeral => exact hnumeral

theorem exists_body {text : List Char} (h : Lexeme .string text) :
    ∃ body, text = '"' :: (body ++ ['"']) ∧ '"' ∉ body := by
  have hmarks : ∀ mark ∈ marks, mark.2 ≠ .string := by decide
  have hkeywords : ∀ entry ∈ Kind.keywords, entry.2 ≠ .string := by decide
  cases h with
  | mark hmark => exact absurd rfl (hmarks _ hmark)
  | keyword hword => exact absurd rfl (hkeywords _ hword)
  | string hbody => exact ⟨_, rfl, hbody⟩

end Lexeme

/-! ### The longest lexeme -/

/-- The text is a lexeme of the kind, and no lexeme at the start of `text ++ rest` is longer. -/
structure Longest (kind : Kind) (text rest : List Char) : Prop where
  lexeme : Lexeme kind text
  longest : ∀ other longer, Lexeme other longer → longer <+: text ++ rest →
    longer.length ≤ text.length

theorem length_le_of_prefix_of_all {p : Char → Bool} {read text : List Char}
    (hread : ∀ c ∈ read, p c = true) (hstarts : read <+: text) :
    read.length ≤ (text.takeWhile p).length := by
  obtain ⟨rest, rfl⟩ := hstarts
  rw [List.takeWhile_append_of_pos hread, List.length_append]
  exact Nat.le_add_right _ _

/-- Digits that a point and more digits follow are not all of the numeral. -/
theorem numeral_of_dropWhile {text rest : List Char} (h : text.dropWhile Char.isDigit = '.' :: rest) :
    numeral text = text.takeWhile Char.isDigit ++
      if (rest.takeWhile Char.isDigit).isEmpty then [] else '.' :: rest.takeWhile Char.isDigit := by
  rw [numeral, h]
  simp only
  split <;> simp

theorem takeWhile_isPrefixOf_numeral (text : List Char) :
    text.takeWhile Char.isDigit <+: numeral text := by
  unfold numeral
  simp only
  split
  · split
    · exact List.prefix_rfl
    · exact List.prefix_append _ _
  · exact List.prefix_rfl

theorem Numeral.length_le {read text : List Char} (h : Numeral read) (hstarts : read <+: text) :
    read.length ≤ (numeral text).length := by
  cases h with
  | whole _ hdigits =>
      exact Nat.le_trans (length_le_of_prefix_of_all hdigits hstarts)
        (takeWhile_isPrefixOf_numeral text).length_le
  | @fraction digits places _ hdigits hplaces hfraction =>
      obtain ⟨rest, rfl⟩ := hstarts
      have hdrop : (digits ++ '.' :: places ++ rest).dropWhile Char.isDigit = '.' :: (places ++ rest) := by
        rw [List.append_assoc, List.dropWhile_append_of_pos hdigits]
        rfl
      have htake : (digits ++ '.' :: places ++ rest).takeWhile Char.isDigit = digits := by
        rw [List.append_assoc, List.takeWhile_append_of_pos hdigits]
        exact List.append_nil digits
      have hplace := length_le_of_prefix_of_all hfraction (List.prefix_append places rest)
      have hpos : 0 < places.length := List.length_pos_iff.mpr hplaces
      have hsome : ((places ++ rest).takeWhile Char.isDigit).isEmpty = false := by
        rw [List.isEmpty_eq_false_iff, ← List.length_pos_iff]
        omega
      rw [numeral_of_dropWhile hdrop, htake, hsome]
      simp only [Bool.false_eq_true, ↓reduceIte, List.length_append, List.length_cons]
      omega

theorem numeral_numeral {c : Char} (hdigit : c.isDigit = true) (rest : List Char) :
    Numeral (numeral (c :: rest)) := by
  have hne : (c :: rest).takeWhile Char.isDigit ≠ [] := by simp [hdigit]
  have hdigits {text : List Char} : ∀ d ∈ text.takeWhile Char.isDigit, d.isDigit = true :=
    List.all_eq_true.mp List.all_takeWhile
  unfold numeral
  simp only
  split
  · split
    · exact .whole hne hdigits
    · next hplaces => exact .fraction hne hdigits (by simpa using hplaces) hdigits
  · exact .whole hne hdigits

/-- The marks come in the order of their lengths, so the first one that fits is the longest. -/
theorem length_le_of_mark? {text mark other : List Char} {kind kind' : Kind}
    (h : mark? text = some (mark, kind)) (hother : (other, kind') ∈ marks) (hstarts : other <+: text) :
    other.length ≤ mark.length := by
  have hsorted : marks.Pairwise fun first second => second.1.length ≤ first.1.length := by decide
  unfold mark? at h
  obtain ⟨-, before, after, hsplit, hbefore⟩ := List.find?_eq_some_iff_append.mp h
  rw [hsplit] at hother hsorted
  rcases List.mem_append.mp hother with hmem | hmem
  · have hskipped := hbefore _ hmem
    rw [List.isPrefixOf_iff_prefix.mpr hstarts] at hskipped
    cases hskipped
  · rcases List.mem_cons.mp hmem with heq | hlater
    · exact Nat.le_of_eq (congrArg List.length (Prod.mk.inj heq).1)
    · exact (List.pairwise_cons.mp (List.pairwise_append.mp hsorted).2.1).1 _ hlater

/-- Every mark of two characters goes on from one of a single character. -/
theorem mark?_ne_none {kind : Kind} {c : Char} {tail : List Char} (h : (c :: tail, kind) ∈ marks)
    (rest : List Char) : mark? (c :: rest) ≠ none := by
  have hall : ∀ mark ∈ marks, ∃ single ∈ marks, single.1 = mark.1.take 1 := by decide
  obtain ⟨⟨text, single⟩, hsingle, rfl⟩ := hall _ h
  intro hnone
  have hskipped := List.find?_eq_none.mp hnone _ hsingle
  simp at hskipped

theorem mem_marks_of_mark? {text mark : List Char} {kind : Kind} (h : mark? text = some (mark, kind)) :
    (mark, kind) ∈ marks :=
  List.mem_of_find?_eq_some h

/-- A prefix that is a lexeme goes on after the first character. -/
theorem Lexeme.exists_cons_of_startsWith {kind : Kind} {text rest : List Char} {c : Char}
    (h : Lexeme kind text) (hstarts : text <+: c :: rest) :
    ∃ tail, text = c :: tail ∧ tail <+: rest := by
  obtain ⟨d, tail, rfl, -⟩ := h.exists_begins
  obtain ⟨rfl, htail⟩ := List.cons_prefix_cons.mp hstarts
  exact ⟨tail, rfl, htail⟩

end Script
