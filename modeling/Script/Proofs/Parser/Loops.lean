import Script.Parser.Statement
import Script.Proofs.Parser.Reading

/-!
# Loops of the parser

What one turn of a loop reads. There are two kinds of loop besides those over operators and calls:
`entry` takes the entries of a list up to the first that no comma follows, and `collecting` takes
declarations or methods until its end is in sight.
-/

namespace Script.Parser

variable {α β σ : Type}

theorem reading_iterate_succ_iff {turn : σ → Parser (Turn σ)} {turns : Nat}
    {state final : σ} {tokens unread : List Token} :
    iterate turn (turns + 1) state tokens = .done final unread [] ↔
      turn state tokens = .done (.last final) unread [] ∨
        ∃ next rest, turn state tokens = .done (.again next) rest [] ∧
          iterate turn turns next rest = .done final unread [] := by
  rw [iterate_succ, reading_bind_iff]
  constructor
  · rintro ⟨next, rest, hturn, hnext⟩
    cases next with
    | again next => exact Or.inr ⟨next, rest, hturn, hnext⟩
    | last state =>
        obtain ⟨rfl, rfl⟩ := reading_pure_iff.mp hnext
        exact Or.inl hturn
  · rintro (hturn | ⟨next, rest, hturn, hnext⟩)
    · exact ⟨_, _, hturn, reading_pure_iff.mpr ⟨rfl, rfl⟩⟩
    · exact ⟨_, _, hturn, hnext⟩

theorem not_reading_iterate_zero {turn : σ → Parser (Turn σ)} {state final : σ}
    {tokens unread : List Token} : iterate turn 0 state tokens ≠ .done final unread [] := by
  intro h
  cases h

/-! ### Parameters and arguments -/

theorem not_reading_report {place tokens unread : List Token} {error : SyntaxError} {value : Unit} :
    report place error tokens ≠ .done value unread [] := by
  intro h
  cases h

theorem reading_oneMore_iff {item : Parser α} {read : Array α} {tokens unread : List Token}
    {turn : Turn (Array α)} :
    oneMore item read tokens = .done turn unread [] ↔
      ∃ value rest, item tokens = .done value rest [] ∧
        ((∃ comma, comma.kind = .comma ∧ rest = comma :: unread ∧ turn = .again (read.push value)) ∨
          (rest = unread ∧ heads (· == .comma) unread = false ∧ turn = .last (read.push value))) := by
  unfold oneMore
  constructor
  · intro h
    rw [reading_bind_iff] at h
    obtain ⟨value, rest, hitem, h⟩ := h
    rw [reading_bind_iff] at h
    obtain ⟨mark, rest', hmark, h⟩ := h
    refine ⟨value, rest, hitem, ?_⟩
    cases mark with
    | some comma =>
        obtain ⟨rfl, hcomma, -⟩ := reading_accept_some_iff.mp hmark
        obtain ⟨rfl, rfl⟩ := reading_pure_iff.mp h
        exact Or.inl ⟨comma, by simpa using hcomma, rfl, rfl⟩
    | none =>
        obtain ⟨rfl, hcomma⟩ := reading_accept_none_iff.mp hmark
        obtain ⟨rfl, rfl⟩ := reading_pure_iff.mp h
        exact Or.inr ⟨rfl, hcomma, rfl⟩
  · rintro ⟨value, rest, hitem, ⟨comma, hkind, rfl, rfl⟩ | ⟨rfl, hcomma, rfl⟩⟩
    · have hmark : accept (· == .comma) (comma :: unread) = .done (some comma) unread [] :=
        accept_cons (by simp [hkind]) (by simp [hkind]) unread
      exact reading_bind hitem (reading_bind hmark rfl)
    · exact reading_bind hitem (reading_bind (accept_of_not_heads hcomma) rfl)

theorem reading_entry_iff {which : Entries} {item : Parser α} {read : Array α}
    {tokens unread : List Token} {turn : Turn (Array α)} :
    entry which item read tokens = .done turn unread [] ↔
      read.size < Entries.most ∧ ∃ value rest, item tokens = .done value rest [] ∧
        ((∃ comma, comma.kind = .comma ∧ rest = comma :: unread ∧ turn = .again (read.push value)) ∨
          (rest = unread ∧ heads (· == .comma) unread = false ∧ turn = .last (read.push value))) := by
  rw [← reading_oneMore_iff]
  unfold entry
  by_cases hsize : Entries.most ≤ read.size
  · rw [if_pos hsize]
    constructor
    · intro h
      rw [reading_bind_iff] at h
      obtain ⟨_, _, _, h⟩ := h
      rw [reading_bind_iff] at h
      obtain ⟨_, _, hreport, _⟩ := h
      exact absurd hreport not_reading_report
    · rintro ⟨hlt, -⟩
      omega
  · rw [if_neg hsize]
    exact ⟨fun h => ⟨Nat.lt_of_not_le hsize, h⟩, And.right⟩

/-- What `parser` reads is collected until the end is in sight. -/
def collecting (stop : List Token → Bool) (collect : α → Option β) (parser : Parser α)
    (read : Array β) : Parser (Turn (Array β)) :=
  fun tokens =>
    if stop tokens then .done (.last read) tokens []
    else ((fun value => .again ((collect value).elim read read.push)) <$> parser) tokens

def closes (tokens : List Token) : Bool :=
  sees .rightBrace tokens || atEnd tokens

theorem member_eq_collecting (declaration : Parser (Option Stmt)) :
    member declaration = collecting closes id declaration :=
  rfl

theorem topLevel_eq_collecting (declaration : Parser (Option Stmt)) :
    topLevel declaration = collecting atEnd id declaration :=
  rfl

theorem method_eq_collecting (block : Parser (List Stmt)) (turns : Nat) :
    method block turns = collecting closes some (function .method block turns) :=
  rfl

section Collecting

variable {stop : List Token → Bool} {collect : α → Option β} {parser : Parser α}
  {read final : Array β} {tokens unread : List Token}

theorem reading_collecting_last_iff :
    collecting stop collect parser read tokens = .done (.last final) unread [] ↔
      stop unread = true ∧ tokens = unread ∧ read = final := by
  unfold collecting
  split
  · next hstop => grind
  · next hstop =>
      rw [reading_map_iff]
      grind

theorem reading_collecting_again_iff :
    collecting stop collect parser read tokens = .done (.again final) unread [] ↔
      stop tokens = false ∧ ∃ value, parser tokens = .done value unread [] ∧
        (collect value).elim read read.push = final := by
  unfold collecting
  split
  · next hstop => grind
  · next hstop =>
      rw [reading_map_iff]
      grind

theorem iterate_collecting_last (collect : α → Option β) (parser : Parser α) (hstop : stop tokens = true)
    (turns : Nat) (before : Array β) :
    iterate (collecting stop collect parser) (turns + 1) before tokens = .done before tokens [] :=
  reading_iterate_succ_iff.mpr (Or.inl (reading_collecting_last_iff.mpr ⟨hstop, rfl, rfl⟩))

theorem iterate_collecting_again (collect : α → Option β) {value : α} {reports : List Report}
    (hstop : stop tokens = false) (hparser : parser tokens = .done value unread reports)
    (turns : Nat) (before : Array β) :
    iterate (collecting stop collect parser) (turns + 1) before tokens =
      (iterate (collecting stop collect parser) turns
        ((collect value).elim before before.push) unread).after reports := by
  have hturn : collecting stop collect parser before tokens =
      .done (.again ((collect value).elim before before.push)) unread reports := by
    rw [collecting, hstop, if_neg Bool.false_ne_true, map_eq_pure_bind, bind_apply, hparser]
    simp only [pure_apply, Parse.after_done, List.append_nil]
  rw [iterate_succ, bind_apply, hturn]

end Collecting

end Script.Parser
