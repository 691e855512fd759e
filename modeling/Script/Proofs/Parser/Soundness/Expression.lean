import Script.Proofs.Parser.Levels
import Script.Proofs.Parser.Loops

/-!
# Readings are derivations

Whatever a part of the parser reads, the grammar derives from the tokens read, with the same tree.
The parts of the parser take the parsers of their own parts, so each has a lemma of its own; the
induction is on the levels of nesting and stands at the end of each half.
-/

namespace Script.Parser

open Grammar

variable {α : Type}

/-- Whatever the parser reads is a phrase. -/
def ReadsOnly (parser : Parser α) (phrase : List Token → α → Prop) : Prop :=
  ∀ tokens value unread, parser tokens = .done value unread [] →
    ∃ read, tokens = read ++ unread ∧ phrase read value

theorem readsOnly_exhausted (phrase : List Token → α → Prop) :
    ReadsOnly (exhausted : Parser α) phrase := by
  intro tokens value unread h
  cases h

/-! ### Parameters and arguments -/

/-- A row of phrases with commas between them, not longer than the greatest length. -/
def Listed (phrase : List Token → α → Prop) (read : List Token) (values : List α) : Prop :=
  ∃ items : List (List Token × α), values = items.map Prod.snd ∧
    (∀ item ∈ items, phrase item.1 item.2) ∧ items.length ≤ Entries.most ∧
      Separated (items.map Prod.fst) read

theorem readsOnly_iterate_entry {which : Entries} {item : Parser α}
    {phrase : List Token → α → Prop} (hitem : ReadsOnly item phrase) {turns : Nat}
    {before final : Array α} {tokens unread : List Token}
    (h : iterate (entry which item) turns before tokens = .done final unread []) :
    ∃ (items : List (List Token × α)) (read : List Token), tokens = read ++ unread ∧
      items ≠ [] ∧ final.toList = before.toList ++ items.map Prod.snd ∧
        (∀ item ∈ items, phrase item.1 item.2) ∧ final.size ≤ Entries.most ∧
          Separated (items.map Prod.fst) read := by
  induction turns generalizing before tokens with
  | zero => exact absurd h not_reading_iterate_zero
  | succ turns ih =>
      rcases reading_iterate_succ_iff.mp h with hlast | ⟨next, rest, hturn, hnext⟩
      · obtain ⟨hsize, value, rest, hvalue, hend⟩ := reading_entry_iff.mp hlast
        obtain ⟨read, rfl, hphrase⟩ := hitem _ _ _ hvalue
        rcases hend with ⟨comma, -, -, hagain⟩ | ⟨rfl, -, hfinal⟩
        · cases hagain
        · cases hfinal
          refine ⟨[(read, value)], read, rfl, by simp, by simp, by simpa using hphrase, ?_, .single read⟩
          rw [Array.size_push]
          exact hsize
      · obtain ⟨hsize, value, rest', hvalue, hend⟩ := reading_entry_iff.mp hturn
        obtain ⟨read, rfl, hphrase⟩ := hitem _ _ _ hvalue
        rcases hend with ⟨comma, hcomma, rfl, hagain⟩ | ⟨-, -, hlast⟩
        · cases hagain
          obtain ⟨items, others, rfl, hne, hfinal, hitems, hmost, hread⟩ := ih hnext
          obtain ⟨second, items, rfl⟩ := List.exists_cons_of_ne_nil hne
          refine ⟨(read, value) :: second :: items, read ++ comma :: others, by simp, by simp,
            by simp [hfinal], ?_, hmost, .cons read ⟨comma, hcomma⟩ hread⟩
          rw [List.forall_mem_cons]
          exact ⟨hphrase, hitems⟩
        · cases hlast

theorem readsOnly_entries {which : Entries} {item : Parser α} {phrase : List Token → α → Prop}
    (hitem : ReadsOnly item phrase) (turns : Nat) :
    ReadsOnly (entries which item turns) (Listed phrase) := by
  intro tokens values unread h
  unfold entries at h
  rw [reading_bind_iff] at h
  obtain ⟨read?, rest, hread, h⟩ := h
  rcases reading_unlessSees_iff.mp hread with ⟨rfl, rfl, -⟩ | ⟨final, rfl, -, hfinal⟩
  · obtain ⟨rfl, rfl⟩ := reading_pure_iff.mp h
    exact ⟨[], rfl, [], rfl, by simp, Nat.zero_le _, .nil⟩
  · obtain ⟨rfl, rfl⟩ := reading_pure_iff.mp h
    obtain ⟨items, read, rfl, -, hvalues, hitems, hmost, hread⟩ := readsOnly_iterate_entry hitem hfinal
    refine ⟨read, rfl, items, by simpa using hvalues, hitems, ?_, hread⟩
    have hsize : final.size = items.length := by
      rw [← Array.length_toList, hvalues]
      simp
    omega

/-! ### Expressions -/

theorem readsOnly_expect (kind : Kind) (expected : Expected) :
    ReadsOnly (expect kind expected)
      fun read token => ∃ word : Word kind, read = [word.1] ∧ token = word := by
  intro tokens token unread h
  obtain ⟨rfl, hkind, -⟩ := reading_expect_iff.mp h
  exact ⟨[token], rfl, ⟨token, hkind⟩, rfl, rfl⟩

section Chains

variable {operand : Parser Expr} {symbol : ExprSymbol} {row : Grammar.Chain} {level : Level}

theorem readsOnly_iterate_operation (hrow : symbol.chain? = some row)
    (hhas : ∀ kind, level.has kind = true → kind ∈ row.operators) (hjoin : level.join = row.node)
    (hoperand : ReadsOnly operand (Expression row.operand)) {turns : Nat} {before : List Token}
    {left tree : Expr} (hleft : Expression symbol before left) {tokens unread : List Token}
    (h : iterate (operation level operand) turns left tokens = .done tree unread []) :
    ∃ read, tokens = read ++ unread ∧ Expression symbol (before ++ read) tree := by
  induction turns generalizing before left tokens with
  | zero => exact absurd h not_reading_iterate_zero
  | succ turns ih =>
      rcases reading_iterate_succ_iff.mp h with hlast | ⟨next, rest, hturn, hnext⟩
      · unfold operation at hlast
        rw [reading_bind_iff] at hlast
        obtain ⟨mark, rest, hmark, hlast⟩ := hlast
        cases mark with
        | some operator =>
            rw [reading_bind_iff] at hlast
            obtain ⟨right, rest', -, hlast⟩ := hlast
            cases hlast
        | none =>
            obtain ⟨rfl, -⟩ := reading_accept_none_iff.mp hmark
            cases hlast
            exact ⟨[], rfl, by simpa using hleft⟩
      · unfold operation at hturn
        rw [reading_bind_iff] at hturn
        obtain ⟨mark, rest', hmark, hturn⟩ := hturn
        cases mark with
        | some operator =>
            obtain ⟨rfl, hoperator, -⟩ := reading_accept_some_iff.mp hmark
            rw [reading_bind_iff] at hturn
            obtain ⟨right, rest'', hright, hturn⟩ := hturn
            cases hturn
            obtain ⟨read, rfl, hphrase⟩ := hoperand _ _ _ hright
            have hjoined := Expression.operation hrow hleft operator (hhas _ hoperator) hphrase rfl
            rw [← hjoin] at hjoined
            obtain ⟨others, rfl, htree⟩ := ih hjoined hnext
            exact ⟨operator :: (read ++ others), by simp, by simpa using htree⟩
        | none => cases hturn

theorem readsOnly_chain (hrow : symbol.chain? = some row)
    (hhas : ∀ kind, level.has kind = true → kind ∈ row.operators) (hjoin : level.join = row.node)
    (hoperand : ReadsOnly operand (Expression row.operand)) (turns : Nat) :
    ReadsOnly (chain level operand turns) (Expression symbol) := by
  intro tokens tree unread h
  unfold chain at h
  rw [reading_bind_iff] at h
  obtain ⟨left, rest, hleft, h⟩ := h
  obtain ⟨before, rfl, hphrase⟩ := hoperand _ _ _ hleft
  obtain ⟨read, rfl, htree⟩ :=
    readsOnly_iterate_operation hrow hhas hjoin hoperand (.operand hrow hphrase) h
  exact ⟨before ++ read, by simp, htree⟩

end Chains

theorem readsOnly_chains {operand : Parser Expr} (hoperand : ReadsOnly operand (Expression .unary))
    (turns : Nat) {symbol : ExprSymbol} {levels : List Level} (haligned : Aligned symbol levels) :
    ReadsOnly (chains operand turns levels) (Expression symbol) := by
  induction haligned with
  | nil => exact hoperand
  | cons hrow hhas hjoin _ _ ih =>
      exact readsOnly_chain hrow (fun kind => (hhas kind).mp) hjoin ih turns

section Parts

variable {expression : Parser Expr} (hexpression : ReadsOnly expression (Expression .expression))

include hexpression

theorem readsOnly_primary : ReadsOnly (primary expression) (Expression .primary) := by
  intro tokens tree unread h
  unfold primary at h
  split at h
  · cases h
  · next token rest hnext =>
      obtain ⟨rfl, -⟩ := next?_eq_some_iff.mp hnext
      split at h
      case h_1 hkind => cases h; exact ⟨[token], rfl, .falseLiteral ⟨token, hkind⟩⟩
      case h_2 hkind => cases h; exact ⟨[token], rfl, .trueLiteral ⟨token, hkind⟩⟩
      case h_3 hkind => cases h; exact ⟨[token], rfl, .nilLiteral ⟨token, hkind⟩⟩
      case h_4 hkind => cases h; exact ⟨[token], rfl, .number ⟨token, hkind⟩⟩
      case h_5 hkind => cases h; exact ⟨[token], rfl, .string ⟨token, hkind⟩⟩
      case h_6 hkind => cases h; exact ⟨[token], rfl, .name ⟨token, hkind⟩⟩
      case h_7 hkind => cases h; exact ⟨[token], rfl, .this ⟨token, hkind⟩⟩
      case h_8 hkind =>
        unfold primary.group at h
        rw [reading_bind_iff] at h
        obtain ⟨inner, rest', hinner, h⟩ := h
        rw [reading_bind_iff] at h
        obtain ⟨closing, rest'', hclosing, h⟩ := h
        cases h
        obtain ⟨read, rfl, hphrase⟩ := hexpression _ _ _ hinner
        obtain ⟨rfl, hright, -⟩ := reading_expect_iff.mp hclosing
        exact ⟨token :: (read ++ [closing]), by simp,
          .grouping ⟨token, hkind⟩ hphrase ⟨closing, hright⟩⟩
      case h_9 => cases h

theorem readsOnly_iterate_suffix {turns levels : Nat} {before : List Token} {callee tree : Expr}
    (hcallee : Expression .call before callee) {tokens unread : List Token}
    (h : iterate (suffix expression levels) turns callee tokens = .done tree unread []) :
    ∃ read, tokens = read ++ unread ∧ Expression .call (before ++ read) tree := by
  induction turns generalizing before callee tokens with
  | zero => exact absurd h not_reading_iterate_zero
  | succ turns ih =>
      rw [reading_iterate_succ_iff] at h
      unfold suffix at h
      simp only [reading_bind_iff] at h
      rcases h with ⟨mark, rest, hmark, h⟩ | ⟨next, rest, ⟨mark, rest₁, hmark, h⟩, hnext⟩
      · cases mark with
        | none =>
            obtain ⟨rfl, -⟩ := reading_accept_none_iff.mp hmark
            cases h
            exact ⟨[], rfl, by simpa using hcallee⟩
        | some mark =>
            simp only at h
            split at h
            · rw [reading_bind_iff] at h
              obtain ⟨_, _, _, h⟩ := h
              cases h
            · rw [reading_bind_iff] at h
              obtain ⟨_, _, _, h⟩ := h
              rw [reading_bind_iff] at h
              obtain ⟨_, _, _, h⟩ := h
              cases h
      · cases mark with
        | none => cases h
        | some mark =>
            obtain ⟨rfl, hkind, -⟩ := reading_accept_some_iff.mp hmark
            simp only at h
            split at h
            · next hdot =>
                rw [reading_bind_iff] at h
                obtain ⟨name, rest₂, hname, h⟩ := h
                cases h
                obtain ⟨rfl, hidentifier, -⟩ := reading_expect_iff.mp hname
                have hget := Expression.get hcallee ⟨mark, hdot⟩ ⟨name, hidentifier⟩
                obtain ⟨others, rfl, htree⟩ := ih hget hnext
                exact ⟨mark :: name :: others, rfl, by simpa using htree⟩
            · next hdot =>
                rw [reading_bind_iff] at h
                obtain ⟨values, rest₂, hvalues, h⟩ := h
                rw [reading_bind_iff] at h
                obtain ⟨closing, rest₃, hclosing, h⟩ := h
                cases h
                obtain ⟨read, rfl, items, rfl, hitems, hmost, hread⟩ :=
                  readsOnly_entries hexpression _ _ _ _ hvalues
                obtain ⟨rfl, hright, -⟩ := reading_expect_iff.mp hclosing
                have hopening : mark.kind = .leftParen := by simpa [hdot] using hkind
                have hcall := Expression.call hcallee ⟨mark, hopening⟩ items hitems hmost hread
                  ⟨closing, hright⟩
                obtain ⟨others, rfl, htree⟩ := ih hcall hnext
                exact ⟨mark :: (read ++ closing :: others), by simp, by simpa using htree⟩

theorem readsOnly_call (turns : Nat) : ReadsOnly (call expression turns) (Expression .call) := by
  intro tokens tree unread h
  unfold call at h
  rw [reading_bind_iff] at h
  obtain ⟨callee, rest, hcallee, h⟩ := h
  obtain ⟨before, rfl, hphrase⟩ := readsOnly_primary hexpression _ _ _ hcallee
  obtain ⟨read, rfl, htree⟩ := readsOnly_iterate_suffix hexpression (.bare hphrase) h
  exact ⟨before ++ read, by simp, htree⟩

end Parts

theorem readsOnly_signed {operand call : Parser Expr} (hoperand : ReadsOnly operand (Expression .unary))
    (hcall : ReadsOnly call (Expression .call)) :
    ReadsOnly (signed operand call) (Expression .unary) := by
  intro tokens tree unread h
  unfold signed at h
  rw [reading_bind_iff] at h
  obtain ⟨mark, rest, hmark, h⟩ := h
  cases mark with
  | some operator =>
      obtain ⟨rfl, hkind, -⟩ := reading_accept_some_iff.mp hmark
      rw [reading_bind_iff] at h
      obtain ⟨right, rest₁, hright, h⟩ := h
      cases h
      obtain ⟨read, rfl, hphrase⟩ := hoperand _ _ _ hright
      exact ⟨operator :: read, rfl, .sign operator (by simpa using hkind) hphrase⟩
  | none =>
      obtain ⟨rfl, -⟩ := reading_accept_none_iff.mp hmark
      obtain ⟨read, rfl, hphrase⟩ := hcall _ _ _ h
      exact ⟨read, rfl, .unsigned hphrase⟩

theorem readsOnly_assignment {target value : Parser Expr}
    (htarget : ReadsOnly target (Expression .logicOr))
    (hvalue : ReadsOnly value (Expression .expression)) :
    ReadsOnly (assignment target value) (Expression .expression) := by
  intro tokens tree unread h
  unfold assignment at h
  rw [reading_bind_iff] at h
  obtain ⟨left, rest, hleft, h⟩ := h
  obtain ⟨before, rfl, hphrase⟩ := htarget _ _ _ hleft
  rw [reading_bind_iff] at h
  obtain ⟨place, rest₁, hplace, h⟩ := h
  cases hplace
  rw [reading_bind_iff] at h
  obtain ⟨mark, rest₂, hmark, h⟩ := h
  cases mark with
  | none =>
      obtain ⟨rfl, -⟩ := reading_accept_none_iff.mp hmark
      cases h
      exact ⟨before, rfl, .value hphrase⟩
  | some equals =>
      obtain ⟨rfl, hequals, -⟩ := reading_accept_some_iff.mp hmark
      rw [reading_bind_iff] at h
      obtain ⟨right, rest₃, hright, h⟩ := h
      obtain ⟨read, rfl, hassigned⟩ := hvalue _ _ _ hright
      have hequal : equals.kind = .equal := by simpa using hequals
      split at h
      · cases h
        obtain ⟨name, rfl, rfl⟩ := hphrase.of_variable
        exact ⟨name.1 :: equals :: read, rfl, .assign name ⟨equals, hequal⟩ hassigned⟩
      · cases h
        obtain ⟨first, dot, name, rfl, rfl, hobject⟩ := hphrase.of_get
        exact ⟨first ++ dot.1 :: name.1 :: equals :: read, by simp,
          .set hobject dot name ⟨equals, hequal⟩ hassigned⟩
      · rw [reading_bind_iff] at h
        obtain ⟨_, _, hreport, -⟩ := h
        exact absurd hreport not_reading_report

theorem readsOnly_expression_unary (level : Nat) :
    ReadsOnly (expression level) (Expression .expression) ∧
      ReadsOnly (unary level) (Expression .unary) := by
  induction level with
  | zero => exact ⟨readsOnly_exhausted _, readsOnly_exhausted _⟩
  | succ level ih =>
      obtain ⟨hexpression, hunary⟩ := ih
      constructor
      · exact readsOnly_assignment (readsOnly_chains hunary level aligned_all) hexpression
      · exact readsOnly_signed hunary (readsOnly_call hexpression level)

theorem readsOnly_expression (level : Nat) :
    ReadsOnly (expression level) (Expression .expression) :=
  (readsOnly_expression_unary level).1

end Script.Parser
