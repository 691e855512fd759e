import Script.Parser

/-!
# Readings

A reading is an outcome that gives a value and reports nothing. What a parser reads is read by its
parts, one after the other: `reading_bind_iff` takes a reading apart, and `reading_bind` puts one
together.
-/

namespace Script.Parser

variable {α β σ : Type}

theorem next?_cons {token : Token} (htoken : token.kind ≠ .endMark) (rest : List Token) :
    next? (token :: rest) = some (token, rest) := by
  simp [next?, htoken]

theorem next?_eq_some_iff {tokens rest : List Token} {token : Token} :
    next? tokens = some (token, rest) ↔ tokens = token :: rest ∧ token.kind ≠ .endMark := by
  cases tokens with
  | nil => simp [next?]
  | cons first others =>
      by_cases hend : first.kind = .endMark
      · simp only [next?, hend, ↓reduceIte, reduceCtorEq, List.cons.injEq, false_iff]
        rintro ⟨⟨rfl, -⟩, hne⟩
        exact hne hend
      · simp only [next?, hend, ↓reduceIte, Option.some.injEq, Prod.mk.injEq, List.cons.injEq]
        constructor
        · rintro ⟨rfl, rfl⟩
          exact ⟨⟨rfl, rfl⟩, hend⟩
        · rintro ⟨⟨rfl, rfl⟩, -⟩
          exact ⟨rfl, rfl⟩

/-- Whether the next token is of some of the kinds. -/
def heads (kinds : Kind → Bool) (tokens : List Token) : Bool :=
  (next? tokens).any fun next => kinds next.1.kind

theorem heads_cons {kinds : Kind → Bool} {token : Token} (htoken : token.kind ≠ .endMark)
    (rest : List Token) : heads kinds (token :: rest) = kinds token.kind := by
  simp [heads, next?_cons htoken]

theorem sees_eq_heads (kind : Kind) (tokens : List Token) :
    sees kind tokens = heads (· == kind) tokens :=
  rfl

theorem sees_of_kind {kind : Kind} {token : Token} (hkind : token.kind = kind)
    (hend : kind ≠ .endMark) (rest : List Token) : sees kind (token :: rest) = true := by
  rw [sees_eq_heads, heads_cons (hkind ▸ hend)]
  simpa using hkind

theorem heads_eq_false_of_atEnd {tokens : List Token} (hend : atEnd tokens = true)
    (kinds : Kind → Bool) : heads kinds tokens = false := by
  rw [atEnd, Option.isNone_iff_eq_none] at hend
  simp [heads, hend]

/-! ### Taking a reading apart -/

theorem reading_bind_iff {parser : Parser α} {next : α → Parser β} {tokens unread : List Token}
    {value : β} :
    (parser >>= next) tokens = .done value unread [] ↔
      ∃ first rest, parser tokens = .done first rest [] ∧ next first rest = .done value unread [] := by
  rw [bind_apply]
  cases parser tokens with
  | done first rest reports =>
      constructor
      · intro h
        cases hnext : next first rest with
        | done last rest' reports' =>
            simp only [hnext, Parse.after_done, Parse.done.injEq, List.append_eq_nil_iff] at h
            obtain ⟨rfl, rfl, rfl, rfl⟩ := h
            exact ⟨first, rest, rfl, hnext⟩
        | failed | exhausted => simp [hnext, Parse.after] at h
      · rintro ⟨first', rest', hfirst, hnext⟩
        cases hfirst
        simp [hnext]
  | failed | exhausted => simp

theorem reading_pure_iff {first value : α} {tokens unread : List Token} :
    (pure first : Parser α) tokens = .done value unread [] ↔ first = value ∧ tokens = unread := by
  simp [pure_apply]

theorem reading_map_iff {f : α → β} {parser : Parser α} {tokens unread : List Token} {value : β} :
    (f <$> parser) tokens = .done value unread [] ↔
      ∃ first, parser tokens = .done first unread [] ∧ f first = value := by
  rw [map_eq_pure_bind, reading_bind_iff]
  simp [reading_pure_iff]

theorem reading_expect_iff {kind : Kind} {expected : Expected} {token : Token}
    {tokens unread : List Token} :
    expect kind expected tokens = .done token unread [] ↔
      tokens = token :: unread ∧ token.kind = kind ∧ kind ≠ .endMark := by
  unfold expect fail
  cases tokens with
  | nil => simp [next?]
  | cons first rest =>
      by_cases hend : first.kind = .endMark
      · rw [next?, if_pos hend]
        grind
      · rw [next?_cons hend]
        grind

theorem reading_accept_some_iff {kinds : Kind → Bool} {token : Token}
    {tokens unread : List Token} :
    accept kinds tokens = .done (some token) unread [] ↔
      tokens = token :: unread ∧ kinds token.kind = true ∧ token.kind ≠ .endMark := by
  unfold accept
  cases tokens with
  | nil => simp [next?]
  | cons first rest =>
      by_cases hend : first.kind = .endMark
      · rw [next?, if_pos hend]
        grind
      · rw [next?_cons hend]
        grind

theorem reading_accept_none_iff {kinds : Kind → Bool} {tokens unread : List Token} :
    accept kinds tokens = .done none unread [] ↔ tokens = unread ∧ heads kinds unread = false := by
  unfold accept heads
  cases hnext : next? tokens with
  | none => grind
  | some next => by_cases hkind : kinds next.1.kind = true <;> grind

theorem reading_unlessSees_iff {kind : Kind} {parser : Parser α} {value : Option α}
    {tokens unread : List Token} :
    unlessSees kind parser tokens = .done value unread [] ↔
      (value = none ∧ tokens = unread ∧ sees kind unread = true) ∨
        ∃ first, value = some first ∧ sees kind tokens = false ∧
          parser tokens = .done first unread [] := by
  unfold unlessSees
  cases hsees : sees kind tokens with
  | true => grind
  | false =>
      simp only [Bool.false_eq_true, ↓reduceIte, reading_map_iff]
      grind

/-! ### Putting a reading together -/

theorem bind_of_reading {parser : Parser α} {tokens rest : List Token} {value : α}
    (hparser : parser tokens = .done value rest []) (next : α → Parser β) :
    (parser >>= next) tokens = next value rest := by
  rw [bind_apply, hparser]
  exact Parse.after_nil _

theorem reading_bind {parser : Parser α} {next : α → Parser β} {tokens rest unread : List Token}
    {first : α} {value : β} (hparser : parser tokens = .done first rest [])
    (hnext : next first rest = .done value unread []) :
    (parser >>= next) tokens = .done value unread [] :=
  (bind_of_reading hparser next).trans hnext

theorem expect_cons {token : Token} {kind : Kind} (hkind : token.kind = kind)
    (hend : kind ≠ .endMark) (expected : Expected) (rest : List Token) :
    expect kind expected (token :: rest) = .done token rest [] :=
  reading_expect_iff.mpr ⟨rfl, hkind, hend⟩

theorem accept_cons {token : Token} {kinds : Kind → Bool} (hkind : kinds token.kind = true)
    (hend : token.kind ≠ .endMark) (rest : List Token) :
    accept kinds (token :: rest) = .done (some token) rest [] :=
  reading_accept_some_iff.mpr ⟨rfl, hkind, hend⟩

theorem accept_of_not_heads {kinds : Kind → Bool} {tokens : List Token}
    (htokens : heads kinds tokens = false) : accept kinds tokens = .done none tokens [] :=
  reading_accept_none_iff.mpr ⟨rfl, htokens⟩

end Script.Parser
