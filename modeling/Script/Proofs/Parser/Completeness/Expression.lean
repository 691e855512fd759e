import Script.Proofs.Grammar.Tokens
import Script.Proofs.Parser.Levels
import Script.Proofs.Parser.Slips

/-!
# Derivations are read

A phrase is read whole, with the tree and the slips of its derivation, wherever the next token cannot go on with it.
The grammar of a chain recurses to the left and its loop goes to the right, so the lemmas about loops
say that a phrase takes the loop to the tree so far and leaves it some turns.
-/

namespace Script.Parser

open Grammar

variable {α : Type} {size : Nat}

theorem heads_or (first second : Kind → Bool) (tokens : List Token) :
    heads (fun kind => first kind || second kind) tokens =
      (heads first tokens || heads second tokens) := by
  unfold heads
  cases next? tokens <;> rfl

theorem heads_word {kind : Kind} (word : Word kind) (hkind : kind ≠ .endMark) (kinds : Kind → Bool)
    (rest : List Token) : heads kinds (word.1 :: rest) = kinds kind := by
  rw [heads_cons (word.kind_ne hkind), word.2]

theorem accept_word {kind : Kind} (word : Word kind) (hkind : kind ≠ .endMark) {kinds : Kind → Bool}
    (hkinds : kinds kind = true) (rest : List Token) :
    accept kinds (word.1 :: rest) = .done (some word.1) rest [] := by
  refine accept_cons ?_ (word.kind_ne hkind) rest
  rw [word.2]
  exact hkinds

/-- What a token list can begin with decides which kinds of token it does not begin with. -/
theorem heads_eq_false_of_opens {opens kinds : Kind → Bool} {first : Token}
    (hfirst : opens first.kind = true) (hend : opens .endMark = false)
    (hkinds : ∀ kind, opens kind = true → kinds kind = false) (rest : List Token) :
    heads kinds (first :: rest) = false := by
  have hkind : first.kind ≠ .endMark := by
    intro hkind
    rw [hkind, hend] at hfirst
    cases hfirst
  rw [heads_cons hkind]
  exact hkinds _ hfirst

/-- The parser reads the phrases of at most `size` tokens, unless a token follows that could go on
with the phrase. -/
def YieldsAll (size : Nat) (goesOn : Kind → Bool) (parser : Parser α)
    (phrase : List Token → α → List Slip → Prop) : Prop :=
  ∀ read value slips rest, phrase read value slips → read.length ≤ size → heads goesOn rest = false →
    Yields parser (read ++ rest) value rest slips

/-! ### Parameters and arguments -/

section Entries

variable {goesOn : Kind → Bool} {item : Parser α} {phrase : List Token → α → List Slip → Prop}
  (hitem : YieldsAll size goesOn item phrase)
  (hbegins : ∀ read value slips, phrase read value slips → ∃ first others, read = first :: others ∧
    first.kind ≠ .endMark ∧ first.kind ≠ .rightParen)
  (hcomma : goesOn .comma = false) (hclosing : goesOn .rightParen = false) (which : Entries)
  (closing : Word .rightParen) (rest : List Token)

include hitem hbegins hcomma hclosing

theorem yields_iterate_entry {items : List (Entry α)} {first : Entry α}
    (hitems : ∀ entry ∈ first :: items, phrase entry.read entry.value entry.slips) (before : Array α)
    {read : List Token} (hread : Separated ((first :: items).map Entry.read) read) (hsize : read.length ≤ size)
    {turns : Nat} (hturns : (first :: items).length ≤ turns) :
    ∃ final : Array α, final.toList = before.toList ++ (first :: items).map Entry.value ∧
      Yields (iterate (entry which item) turns before) (read ++ closing.1 :: rest) final (closing.1 :: rest)
        (slipsFrom which before.size (first :: items)) := by
  have hends : heads goesOn (closing.1 :: rest) = false := by
    rw [heads_word closing (by decide), hclosing]
  have hnonempty {entry : Entry α} (h : phrase entry.read entry.value entry.slips) : entry.read ≠ [] := by
    obtain ⟨_, _, hentry, -⟩ := hbegins _ _ _ h
    rw [hentry]
    exact List.cons_ne_nil _ _
  induction items generalizing first before read turns with
  | nil =>
      obtain ⟨turns, rfl⟩ := Nat.exists_eq_add_of_le' hturns
      cases hread with
      | single =>
          have hfirst := hitems first (List.mem_singleton_self _)
          have hvalue := hitem _ _ _ (closing.1 :: rest) hfirst hsize hends
          have hlast := hvalue.oneMore_last (heads_word closing (by decide) _ _) before
          have hentry := (hlast.entry (hnonempty hfirst) which).iterate_last turns
          refine ⟨before.push first.value, by simp, ?_⟩
          rwa [slipsFrom, slipsFrom, List.append_nil]
  | cons second items ih =>
      rw [List.length_cons] at hturns
      obtain ⟨turns, rfl⟩ := Nat.exists_eq_add_of_le' (Nat.le_of_add_left_le hturns)
      replace hturns := Nat.le_of_add_le_add_right hturns
      cases hread with
      | cons _ comma hothers =>
          rename_i others
          rw [List.forall_mem_cons] at hitems
          rw [List.length_append, List.length_cons] at hsize
          obtain ⟨final, hfinal, hiterate⟩ := ih hitems.2 (before.push first.value) hothers (by omega)
            (show (second :: items).length ≤ turns from hturns)
          have hvalue := hitem _ _ _ (comma.1 :: (others ++ closing.1 :: rest)) hitems.1 (by omega)
            (by rw [heads_word comma (by decide), hcomma])
          have hagain := hvalue.oneMore_again comma.2 before
          have hentry := (hagain.entry (hnonempty hitems.1) which).iterate_again hiterate
          refine ⟨final, by simp [hfinal], ?_⟩
          rw [List.append_assoc, List.cons_append, slipsFrom, ← List.append_assoc, ← Array.size_push first.value]
          exact hentry

theorem yields_entries {items : List (Entry α)}
    (hitems : ∀ entry ∈ items, phrase entry.read entry.value entry.slips) {read : List Token}
    (hread : Separated (items.map Entry.read) read) (hsize : read.length ≤ size) {turns : Nat}
    (hturns : read.length < turns) :
    Yields (entries which item turns) (read ++ closing.1 :: rest) (items.map Entry.value) (closing.1 :: rest)
      (slipsFrom which 0 items) := by
  unfold entries
  cases items with
  | nil =>
      cases hread
      have hnone : unlessSees .rightParen (iterate (entry which item) turns #[]) (closing.1 :: rest) =
          .done none (closing.1 :: rest) [] :=
        reading_unlessSees_iff.mpr (Or.inl ⟨rfl, rfl, sees_of_kind closing.2 (by decide) rest⟩)
      exact yields_bind hnone (yields_pure _ _)
  | cons first items =>
      have hlength := hread.length_le
      rw [List.length_map] at hlength
      obtain ⟨final, hfinal, hiterate⟩ := yields_iterate_entry hitem hbegins hcomma hclosing which closing
        rest hitems #[] hread hsize (show (first :: items).length ≤ turns by omega)
      have hsees : sees .rightParen (read ++ closing.1 :: rest) = false := by
        obtain ⟨token, others, hfirst, hend, hkind⟩ := hbegins _ _ _ (hitems first List.mem_cons_self)
        obtain ⟨behind, rfl⟩ := hread.exists_append
        rw [hfirst, List.append_assoc, List.cons_append, sees_eq_heads, heads_cons hend]
        simpa using hkind
      refine (hiterate.unlessSees hsees).bind_reading (reading_pure_iff.mpr ⟨?_, rfl⟩)
      simpa using hfinal

end Entries

/-! ### Chains -/

section Chains

variable {operand : Parser Expr} {symbol : ExprSymbol} {row : Grammar.Chain} {level : Level}
  {tighter : List Level} {turns : Nat}

theorem Yields.operation {tokens rest : List Token} {right : Expr} {slips : List Slip}
    (hoperand : Yields operand tokens right rest slips) {operator : Token} (hkind : level.has operator.kind = true)
    (left : Expr) :
    Yields (operation level operand left) (operator :: tokens) (.again (level.join left operator right)) rest
      slips := by
  have hend : operator.kind ≠ .endMark := by
    intro hend
    rw [hend] at hkind
    cases level <;> cases hkind
  exact yields_bind (accept_cons hkind hend _) (hoperand.bind_reading rfl)

/-- A chain takes the loop as far as its tree, and leaves it turns. -/
theorem yields_chain_of_iterate (hrow : symbol.chain? = some row)
    (hhas : ∀ kind, level.has kind = true ↔ kind ∈ row.operators) (hjoin : level.join = row.node)
    (hfresh : ∀ kind, level.has kind = true → continues tighter kind = false)
    (hoperand : YieldsAll size (continues tighter) operand (Tolerant.Expression row.operand))
    {read : List Token} {tree : Expr} {slips : List Slip} (h : Tolerant.Expression symbol read tree slips)
    (hsize : read.length ≤ size) (hturns : size ≤ turns) :
    ∃ left, turns < left + read.length ∧ ∀ rest final unread later,
      heads (continues tighter) rest = false →
        Yields (iterate (operation level operand) left tree) rest final unread later →
          Yields (chain level operand turns) (read ++ rest) final unread (slips ++ later) := by
  induction h with
  | operand hchain hphrase =>
      rw [hrow, Option.some.injEq] at hchain
      subst hchain
      obtain ⟨first, others, rfl, -⟩ := hphrase.begins
      refine ⟨turns, by rw [List.length_cons]; omega, fun rest final unread later hrest hloop => ?_⟩
      exact (hoperand _ _ _ rest hphrase hsize hrest).bind hloop
  | operation hchain hleft operator hoperator hright htree ihleft ihright =>
      rename_i read right tree _
      rw [hrow, Option.some.injEq] at hchain
      subst hchain
      rw [List.length_append, List.length_cons] at hsize
      obtain ⟨left, hleft, hbefore⟩ := ihleft hrow (by omega)
      obtain ⟨left, rfl⟩ := Nat.exists_eq_succ_of_ne_zero (by omega : left ≠ 0)
      refine ⟨left, by rw [List.length_append, List.length_cons]; omega,
        fun rest final unread later hrest hloop => ?_⟩
      have hkind := (hhas operator.kind).mpr hoperator
      have hoperation := (hoperand _ _ _ rest hright (by omega) hrest).operation hkind
      rw [hjoin] at hoperation
      rw [htree] at hloop
      rw [List.append_assoc, List.cons_append, List.append_assoc]
      refine hbefore _ final unread _ ?_ ((hoperation _).iterate_again hloop)
      refine heads_eq_false_of_opens hkind ?_ hfresh _
      cases level <;> rfl
  | _ => cases hrow

theorem yieldsAll_chain (hrow : symbol.chain? = some row)
    (hhas : ∀ kind, level.has kind = true ↔ kind ∈ row.operators) (hjoin : level.join = row.node)
    (hfresh : ∀ kind, level.has kind = true → continues tighter kind = false)
    (hoperand : YieldsAll size (continues tighter) operand (Tolerant.Expression row.operand))
    (hturns : size ≤ turns) :
    YieldsAll size (continues (level :: tighter)) (chain level operand turns) (Tolerant.Expression symbol) := by
  intro read tree slips rest h hsize hrest
  obtain ⟨hlevel, htighter⟩ := Bool.or_eq_false_iff.mp ((heads_or _ _ _).symm.trans hrest)
  obtain ⟨left, hleft, hchain⟩ :=
    yields_chain_of_iterate hrow hhas hjoin hfresh hoperand h hsize hturns
  obtain ⟨left, rfl⟩ := Nat.exists_eq_succ_of_ne_zero (by omega : left ≠ 0)
  have hlast : Yields (operation level operand tree) rest (.last tree) rest [] :=
    yields_bind (accept_of_not_heads hlevel) (yields_pure _ _)
  rw [← List.append_nil slips]
  exact hchain rest tree rest [] htighter (hlast.iterate_last left)

theorem yieldsAll_chains {levels : List Level} (haligned : Aligned symbol levels)
    (hoperand : YieldsAll size (continues []) operand (Tolerant.Expression .unary)) (hturns : size ≤ turns) :
    YieldsAll size (continues levels) (chains operand turns levels) (Tolerant.Expression symbol) := by
  induction haligned with
  | nil => exact hoperand
  | cons hrow hhas hjoin hfresh _ ih => exact yieldsAll_chain hrow hhas hjoin hfresh ih hturns

end Chains

/-! ### Calls -/

theorem argument_begins {read : List Token} {tree : Expr} {slips : List Slip}
    (h : Tolerant.Expression .expression read tree slips) :
    ∃ first others, read = first :: others ∧ first.kind ≠ .endMark ∧ first.kind ≠ .rightParen := by
  obtain ⟨first, others, rfl, hfirst⟩ := h.opens
  refine ⟨first, others, rfl, ?_, ?_⟩
  all_goals
    intro hkind
    rw [hkind] at hfirst
    cases hfirst

theorem reading_primary_of_single {expression : Parser Expr} {token : Token} {tree : Expr}
    (h : Expression .primary [token] tree) (rest : List Token) :
    primary expression (token :: rest) = .done tree rest [] := by
  generalize hread : [token] = read at h
  cases h with
  | operand hchain | operation hchain => cases hchain
  | falseLiteral word | trueLiteral word | nilLiteral word | number word | string word | name word | this word =>
      cases hread
      rw [primary, next?_cons (word.kind_ne (by decide))]
      simp only [word.2]
  | grouping => simp at hread

section Parts

variable {expression : Parser Expr} (hexpression : ∀ smaller < size,
    YieldsAll smaller continuesExpression expression (Tolerant.Expression .expression))

include hexpression

theorem yieldsAll_primary (goesOn : Kind → Bool) :
    YieldsAll size goesOn (primary expression) (Tolerant.Expression .primary) := by
  intro read tree slips rest h hsize hrest
  cases h with
  | operand hchain | operation hchain => cases hchain
  | atom hatom => exact yields_of_reading (reading_primary_of_single hatom rest)
  | grouping opening hinner closing =>
      rename_i read inner
      rw [List.length_cons, List.length_append, List.length_singleton] at hsize
      have hread := hexpression (size - 1) (by omega) read inner slips (closing.1 :: rest) hinner (by omega)
        (by rw [heads_word closing (by decide)]; rfl)
      have hgroup : Yields (primary.group expression) (read ++ closing.1 :: rest) (.grouping inner) rest slips :=
        hread.bind_reading (reading_bind (expect_cons closing.2 (by decide) _ _) rfl)
      have hprimary : primary expression (opening.1 :: (read ++ closing.1 :: rest)) =
          primary.group expression (read ++ closing.1 :: rest) := by
        rw [primary, next?_cons (opening.kind_ne (by decide))]
        simp only [opening.2]
      rw [List.cons_append, List.append_assoc, List.singleton_append, Yields, hprimary]
      exact hgroup

/-- The arguments of a call are given with it, however many they are. -/
theorem yields_suffix_call {turns : Nat} (callee : Expr) (opening : Word .leftParen) {arguments : List (Entry Expr)}
    (harguments : ∀ argument ∈ arguments,
      Tolerant.Expression .expression argument.read argument.value argument.slips)
    {read : List Token} (hread : Separated (arguments.map Entry.read) read) (closing : Word .rightParen)
    (hsize : read.length < size) (hturns : read.length < turns) (rest : List Token) :
    Yields (suffix expression turns callee) (opening.1 :: (read ++ closing.1 :: rest))
      (.again (.call callee closing (arguments.map Entry.value))) rest (slipsFrom .arguments 0 arguments) := by
  unfold suffix
  refine yields_bind (accept_word opening (by decide) (by decide) _) ?_
  simp only
  rw [if_neg (by rw [opening.2]; decide)]
  have hentries := yields_entries (hexpression read.length hsize)
    (fun _ _ _ => argument_begins) rfl rfl .arguments closing rest harguments hread
    (Nat.le_refl _) hturns
  exact hentries.bind_reading (reading_bind (expect_cons closing.2 (by decide) _ _) rfl)

/-- A call takes the loop over its suffixes as far as its tree, and leaves it turns. -/
theorem yields_call_of_iterate {turns : Nat} (hturns : size ≤ turns) {read : List Token}
    {tree : Expr} {slips : List Slip} (h : Tolerant.Expression .call read tree slips) (hsize : read.length ≤ size) :
    ∃ left, turns < left + read.length ∧ ∀ rest final unread later,
      Yields (iterate (suffix expression turns) left tree) rest final unread later →
        Yields (call expression turns) (read ++ rest) final unread (slips ++ later) := by
  generalize hsymbol : ExprSymbol.call = symbol at h
  induction h with
  | bare hphrase =>
      obtain ⟨first, others, rfl, -⟩ := hphrase.begins
      refine ⟨turns, by rw [List.length_cons]; omega, fun rest final unread later hloop => ?_⟩
      have hread := yieldsAll_primary hexpression (fun _ => false) _ _ _ rest hphrase hsize
        (by unfold heads; cases next? rest <;> rfl)
      exact hread.bind hloop
  | call hcallee opening arguments harguments hread closing ihcallee iharguments =>
      rename_i before callee _ read
      simp only [List.length_append, List.length_cons, List.length_nil] at hsize
      obtain ⟨left, hleft, hbefore⟩ := ihcallee (by omega) rfl
      obtain ⟨left, rfl⟩ := Nat.exists_eq_succ_of_ne_zero (by omega : left ≠ 0)
      refine ⟨left, by simp only [List.length_append, List.length_cons]; omega,
        fun rest final unread later hloop => ?_⟩
      rw [List.append_assoc, List.cons_append, List.append_assoc, List.append_assoc]
      have hcall := yields_suffix_call hexpression callee opening harguments hread closing (by omega)
        (show read.length < turns by omega) rest
      exact hbefore _ final unread _ (hcall.iterate_again hloop)
  | get hobject dot name ihobject =>
      simp only [List.length_append, List.length_cons] at hsize
      obtain ⟨left, hleft, hbefore⟩ := ihobject (by omega) rfl
      obtain ⟨left, rfl⟩ := Nat.exists_eq_succ_of_ne_zero (by omega : left ≠ 0)
      refine ⟨left, by simp only [List.length_append, List.length_cons]; omega,
        fun rest final unread later hloop => ?_⟩
      rename_i object _
      have hget : suffix expression turns object (dot.1 :: name.1 :: rest) =
          .done (.again (.get object name)) rest [] := by
        unfold suffix
        apply reading_bind (accept_word dot (by decide) (by decide) _)
        simp only
        rw [if_pos dot.2]
        exact reading_bind (expect_cons name.2 (by decide) _ _) rfl
      rw [List.append_assoc]
      exact hbefore _ final unread _ ((yields_of_reading hget).iterate_again hloop)
  | operand hchain => subst hsymbol; cases hchain
  | operation hchain => subst hsymbol; cases hchain
  | _ => cases hsymbol

theorem yieldsAll_call {turns : Nat} (hturns : size ≤ turns) :
    YieldsAll size (continues []) (call expression turns) (Tolerant.Expression .call) := by
  intro read tree slips rest h hsize hrest
  obtain ⟨left, hleft, hcall⟩ := yields_call_of_iterate hexpression hturns h hsize
  obtain ⟨left, rfl⟩ := Nat.exists_eq_succ_of_ne_zero (by omega : left ≠ 0)
  have hlast : Yields (suffix expression turns tree) rest (.last tree) rest [] :=
    yields_bind (accept_of_not_heads hrest) (yields_pure _ _)
  rw [← List.append_nil slips]
  exact hcall rest tree rest [] (hlast.iterate_last left)

end Parts

/-! ### Signs and assignments -/

theorem yieldsAll_signed {operand call : Parser Expr}
    (hoperand : ∀ smaller < size, YieldsAll smaller (continues []) operand (Tolerant.Expression .unary))
    (hcall : YieldsAll size (continues []) call (Tolerant.Expression .call)) :
    YieldsAll size (continues []) (signed operand call) (Tolerant.Expression .unary) := by
  intro read tree slips rest h hsize hrest
  unfold signed
  cases h with
  | operand hchain => cases hchain
  | operation hchain => cases hchain
  | sign operator hoperator hphrase =>
      rw [List.length_cons] at hsize
      have hkind : (operator.kind == .bang || operator.kind == .minus) = true := by
        simpa using hoperator
      have hend : operator.kind ≠ .endMark := by
        rcases hoperator with hoperator | hoperator <;> simp [hoperator]
      refine yields_bind (accept_cons hkind hend _) ?_
      exact (hoperand (size - 1) (by omega) _ _ _ rest hphrase (by omega) hrest).bind_reading rfl
  | unsigned hphrase =>
      have hsign : heads (fun kind => kind == .bang || kind == .minus) (read ++ rest) = false := by
        obtain ⟨first, others, rfl, hfirst | ⟨-, hne, -⟩⟩ := hphrase.begins
        · refine heads_eq_false_of_opens hfirst rfl ?_ _
          intro kind
          cases kind <;> decide
        · exact absurd rfl hne
      refine yields_bind (accept_of_not_heads hsign) ?_
      exact hcall read tree slips rest hphrase hsize hrest

theorem yieldsAll_assignment {target value : Parser Expr}
    (htarget : YieldsAll size (continues Level.all) target (Tolerant.Expression .logicOr))
    (hvalue : ∀ smaller < size,
      YieldsAll smaller continuesExpression value (Tolerant.Expression .expression)) :
    YieldsAll size continuesExpression (assignment target value) (Tolerant.Expression .expression) := by
  intro read tree slips rest h hsize hrest
  obtain ⟨hall, hequal⟩ := Bool.or_eq_false_iff.mp ((heads_or _ _ _).symm.trans hrest)
  have hstops (equals : Word .equal) (read : List Token) :
      heads (continues Level.all) (equals.1 :: (read ++ rest)) = false := by
    rw [heads_word equals (by decide)]
    rfl
  unfold assignment
  cases h with
  | operand hchain => cases hchain
  | operation hchain => cases hchain
  | assign name equals hphrase =>
      rename_i read value
      simp only [List.length_cons] at hsize
      have hleft := htarget [name.1] (.variable name) [] (equals.1 :: (read ++ rest))
        (logicOr_of_call (.bare (.atom (.name name)))) (by rw [List.length_singleton]; omega) (hstops equals read)
      refine yields_bind hleft.reading (yields_bind rfl ?_)
      refine yields_bind (accept_word equals (by decide) (by decide) _) ?_
      exact (hvalue (size - 1) (by omega) _ _ _ rest hphrase (by omega) hrest).bind_reading rfl
  | set hobject dot name equals hphrase =>
      rename_i before object first read value second
      simp only [List.length_append, List.length_cons] at hsize
      have hleft := htarget (before ++ [dot.1, name.1]) (.get object name) first
        (equals.1 :: (read ++ rest)) (logicOr_of_call (.get hobject dot name))
        (by simp only [List.length_append, List.length_cons, List.length_nil]; omega) (hstops equals read)
      rw [List.append_assoc] at hleft ⊢
      refine hleft.bind (yields_bind rfl ?_)
      refine yields_bind (accept_word equals (by decide) (by decide) _) ?_
      exact (hvalue (size - 1) (by omega) _ _ _ rest hphrase (by omega) hrest).bind_reading rfl
  | misplaced hphrase hkind equals hvalue' =>
      rename_i before first read value' second
      simp only [List.length_append, List.length_cons] at hsize
      have hleft := htarget before tree first (equals.1 :: (read ++ rest)) hphrase (by omega) (hstops equals read)
      have hright := hvalue (size - 1) (by omega) _ _ _ rest hvalue' (by omega) hrest
      have hreport : Yields (report (equals.1 :: (read ++ rest)) .assignmentTarget) rest () rest
          [⟨equals.1, .assignmentTarget⟩] := yields_report rfl .assignmentTarget rest
      rw [List.append_assoc]
      refine hleft.bind (yields_bind rfl ?_)
      refine yields_bind (accept_word equals (by decide) (by decide) _) (hright.bind ?_)
      cases tree with
      | «variable» | get => cases hkind
      | _ => exact hreport.bind_reading rfl
  | value hphrase =>
      refine (htarget _ _ _ rest hphrase hsize hall).bind_reading ?_
      apply reading_bind rfl
      exact reading_bind (accept_of_not_heads hequal) rfl

theorem yieldsAll_expression_unary (level : Nat) :
    (∀ size, 2 * size + 2 ≤ level →
        YieldsAll size continuesExpression (expression level) (Tolerant.Expression .expression)) ∧
      ∀ size, 2 * size + 1 ≤ level →
        YieldsAll size (continues []) (unary level) (Tolerant.Expression .unary) := by
  induction level with
  | zero => exact ⟨fun size h => by omega, fun size h => by omega⟩
  | succ level ih =>
      obtain ⟨hexpression, hunary⟩ := ih
      constructor
      · intro size hlevel
        exact yieldsAll_assignment (yieldsAll_chains aligned_all (hunary size (by omega)) (by omega))
          fun smaller hsmaller => hexpression smaller (by omega)
      · intro size hlevel
        exact yieldsAll_signed (fun smaller hsmaller => hunary smaller (by omega))
          (yieldsAll_call (fun smaller hsmaller => hexpression smaller (by omega)) (by omega))

theorem yieldsAll_expression {level : Nat} (hlevel : 2 * size + 2 ≤ level) :
    YieldsAll size continuesExpression (expression level) (Tolerant.Expression .expression) :=
  (yieldsAll_expression_unary level).1 size hlevel

/-- A phrase of the grammar is read without a report. -/
theorem reading_expression {level : Nat} {read : List Token} {tree : Expr} (h : Expression .expression read tree)
    (hlevel : 2 * read.length + 2 ≤ level) {rest : List Token} (hrest : heads continuesExpression rest = false) :
    expression level (read ++ rest) = .done tree rest [] :=
  (yieldsAll_expression hlevel read tree [] rest h.tolerant (Nat.le_refl _) hrest).reading

end Script.Parser
