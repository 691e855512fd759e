import Script.Proofs.Grammar.Tolerant
import Script.Proofs.Parser.Loops

/-!
# What is read with slips

A parser that comes to a value may have met errors that it went on after. `Yields` tells them as slips, and nothing
else is reported. With no slips it is a reading. What a parser yields is put together from what its parts yield, their
slips in order.
-/

namespace Script

open Grammar

variable {α β σ : Type}

/-- The error and the token it is at, unless the list ends there. -/
def Report.slip? (report : Report) : Option Slip :=
  report.unread.head?.map (⟨·, report.error⟩)

namespace Parser

/-- The parser comes to the value, leaves the tokens unread, and reports the slips. -/
def Yields (parser : Parser α) (tokens : List Token) (value : α) (unread : List Token) (slips : List Slip) : Prop :=
  ∃ reports, parser tokens = .done value unread reports ∧ reports.map Report.slip? = slips.map some

section Combinators

variable {parser : Parser α} {next : α → Parser β} {tokens rest unread : List Token} {first : α} {value : β}
  {slips slips' : List Slip}

theorem yields_of_reading (h : parser tokens = .done first rest []) : Yields parser tokens first rest [] :=
  ⟨[], h, rfl⟩

theorem Yields.reading (h : Yields parser tokens first rest []) : parser tokens = .done first rest [] := by
  obtain ⟨reports, hread, hslips⟩ := h
  rw [List.map_nil, List.map_eq_nil_iff] at hslips
  rwa [hslips] at hread

theorem yields_pure (first : α) (tokens : List Token) : Yields (pure first) tokens first tokens [] :=
  yields_of_reading rfl

theorem Yields.bind (h : Yields parser tokens first rest slips) (hnext : Yields (next first) rest value unread slips') :
    Yields (parser >>= next) tokens value unread (slips ++ slips') := by
  obtain ⟨reports, hread, hslips⟩ := h
  obtain ⟨reports', hread', hslips'⟩ := hnext
  refine ⟨reports ++ reports', ?_, by rw [List.map_append, List.map_append, hslips, hslips']⟩
  rw [bind_apply, hread]
  simp only [hread', Parse.after_done]

theorem Yields.bind_reading (h : Yields parser tokens first rest slips)
    (hnext : next first rest = .done value unread []) : Yields (parser >>= next) tokens value unread slips := by
  have hboth := h.bind (yields_of_reading hnext)
  rwa [List.append_nil] at hboth

theorem yields_bind (h : parser tokens = .done first rest []) (hnext : Yields (next first) rest value unread slips) :
    Yields (parser >>= next) tokens value unread slips := by
  rw [Yields, bind_of_reading h]
  exact hnext

theorem Yields.map (h : Yields parser tokens first rest slips) (f : α → β) :
    Yields (f <$> parser) tokens (f first) rest slips := by
  rw [map_eq_pure_bind]
  exact h.bind_reading rfl

theorem yields_report {place : List Token} {token : Token} (hplace : place.head? = some token) (error : SyntaxError)
    (tokens : List Token) : Yields (report place error) tokens () tokens [⟨token, error⟩] :=
  ⟨[⟨place, error⟩], rfl, by simp [Report.slip?, hplace]⟩

theorem Yields.unlessSees {kind : Kind} (h : Yields parser tokens first rest slips)
    (hsees : sees kind tokens = false) : Yields (unlessSees kind parser) tokens (some first) rest slips := by
  have hparser : Parser.unlessSees kind parser tokens = (some <$> parser) tokens := by
    rw [Parser.unlessSees, hsees, if_neg Bool.false_ne_true]
  rw [Yields, hparser]
  exact h.map some

end Combinators

/-! ### Loops -/

section Loops

variable {turn : σ → Parser (Turn σ)} {state next final : σ} {tokens rest unread : List Token}
  {slips slips' : List Slip}

theorem Yields.iterate_last (h : Yields (turn state) tokens (.last final) unread slips) (turns : Nat) :
    Yields (iterate turn (turns + 1) state) tokens final unread slips := by
  rw [iterate_succ]
  exact h.bind_reading rfl

theorem Yields.iterate_again (h : Yields (turn state) tokens (.again next) rest slips) {turns : Nat}
    (hnext : Yields (iterate turn turns next) rest final unread slips') :
    Yields (iterate turn (turns + 1) state) tokens final unread (slips ++ slips') := by
  rw [iterate_succ]
  exact h.bind hnext

end Loops

/-! ### Entries -/

section Entries

variable {item : Parser α} {tokens rest : List Token} {value : α} {slips : List Slip}

theorem Yields.oneMore_again {comma : Token} (hitem : Yields item tokens value (comma :: rest) slips)
    (hcomma : comma.kind = .comma) (before : Array α) :
    Yields (oneMore item before) tokens (.again (before.push value)) rest slips := by
  refine hitem.bind_reading ?_
  exact reading_bind (accept_cons (by simp [hcomma]) (by simp [hcomma]) rest) rfl

theorem Yields.oneMore_last (hitem : Yields item tokens value rest slips) (hcomma : heads (· == .comma) rest = false)
    (before : Array α) : Yields (oneMore item before) tokens (.last (before.push value)) rest slips := by
  refine hitem.bind_reading ?_
  exact reading_bind (accept_of_not_heads hcomma) rfl

/-- An entry is reported, if it is one too many, before what is in it. -/
theorem Yields.entry {before : Array α} {turn : Turn (Array α)} {read : List Token} (hread : read ≠ [])
    (h : Yields (oneMore item before) (read ++ tokens) turn rest slips) (which : Entries) :
    Yields (entry which item before) (read ++ tokens) turn rest
      ((if Entries.most ≤ before.size then (Slip.tooMany? which read).toList else []) ++ slips) := by
  obtain ⟨token, others, rfl⟩ := List.exists_cons_of_ne_nil hread
  unfold Parser.entry
  split
  · refine yields_bind rfl ?_
    exact (yields_report rfl (.tooMany which) _).bind h
  · exact h

end Entries

end Parser

end Script
