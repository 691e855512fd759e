import Script.Proofs.Parser.Completeness.Expression
import Script.Proofs.Parser.Soundness.Statement

/-!
# Derivations of statements are read

An `else` goes to the nearest `if`, so a statement that could take an `else` is read whole only where
none follows.
-/

namespace Script.Parser

open Grammar

variable {α β : Type} {size turns : Nat}

/-- Whether a statement goes on where a token of the kind comes next. -/
def takesElse (mayDangle : Bool) (kind : Kind) : Bool :=
  mayDangle && kind == .elseWord

theorem heads_takesElse_of_closed (tokens : List Token) : heads (takesElse false) tokens = false := by
  unfold heads
  cases next? tokens <;> rfl

/-- Some token ends the expression before it. -/
theorem heads_continuesExpression {kind : Kind} (word : Word kind) (hend : kind ≠ .endMark)
    (hkind : continuesExpression kind = false) (rest : List Token) :
    heads continuesExpression (word.1 :: rest) = false := by
  rw [heads_word word hend, hkind]

/-! ### Parts of statements -/

section Expression

variable {expression : Parser Expr}
  (hexpression : YieldsAll size continuesExpression expression (Tolerant.Expression .expression))
  {slips : List Slip}

include hexpression

theorem yields_condition (opening closing : Expected) (left : Word .leftParen) {test : List Token}
    {tree : Expr} (htest : Tolerant.Expression .expression test tree slips) (hsize : test.length ≤ size)
    (right : Word .rightParen) (rest : List Token) :
    Yields (condition expression opening closing) (left.1 :: (test ++ right.1 :: rest)) tree rest slips := by
  have hread := hexpression test tree slips (right.1 :: rest) htest hsize
    (heads_continuesExpression right (by decide) rfl rest)
  refine yields_bind (expect_cons left.2 (by decide) _ _) (hread.bind_reading ?_)
  exact reading_bind (expect_cons right.2 (by decide) _ _) rfl

theorem yields_expressionStatement {read : List Token} {tree : Stmt}
    (h : Tolerant.ExpressionStatement read tree slips) (hsize : read.length ≤ size) (rest : List Token) :
    Yields (expressionStatement expression) (read ++ rest) tree rest slips := by
  cases h with
  | mk hphrase stop =>
      rename_i read tree
      rw [List.length_append] at hsize
      rw [List.append_assoc]
      have hread := hexpression read tree slips (stop.1 :: rest) hphrase (by omega)
        (heads_continuesExpression stop (by decide) rfl rest)
      exact hread.bind_reading (reading_bind (expect_cons stop.2 (by decide) _ _) rfl)

theorem yields_varDeclaration {read : List Token} {tree : Stmt} (h : Tolerant.VarDeclaration read tree slips)
    (hsize : read.length ≤ size) :
    ∃ (keyword : Word .varWord) (tail : List Token), read = keyword.1 :: tail ∧
      ∀ rest, Yields (varDeclaration expression) (tail ++ rest) tree rest slips := by
  cases h with
  | plain keyword name stop =>
      refine ⟨keyword, [name.1, stop.1], rfl, fun rest => yields_of_reading ?_⟩
      apply reading_bind (expect_cons name.2 (by decide) _ _)
      have hequal : heads (· == .equal) (stop.1 :: rest) = false := heads_word stop (by decide) _ _
      apply reading_bind (accept_of_not_heads hequal)
      exact reading_bind (expect_cons stop.2 (by decide) _ _) rfl
  | initialized keyword name equals hvalue stop =>
      rename_i read value
      refine ⟨keyword, name.1 :: equals.1 :: (read ++ [stop.1]), rfl, fun rest => ?_⟩
      simp only [List.length_cons, List.length_append] at hsize
      have hread := hexpression read value slips (stop.1 :: rest) hvalue (by omega)
        (heads_continuesExpression stop (by decide) rfl rest)
      rw [List.cons_append, List.cons_append, List.append_assoc]
      refine yields_bind (expect_cons name.2 (by decide) _ _) ?_
      refine yields_bind (accept_word equals (by decide) (by decide) _) (hread.bind_reading ?_)
      exact reading_bind (expect_cons stop.2 (by decide) _ _) rfl

theorem yields_optional {kind : Kind} (stop : Word kind)
    (hstop : kind = .semicolon ∨ kind = .rightParen) {read : List Token} {value : Option Expr}
    (h : Tolerant.Optional read value slips) (hsize : read.length ≤ size) (rest : List Token) :
    Yields (unlessSees kind expression) (read ++ stop.1 :: rest) value (stop.1 :: rest) slips := by
  have hend : kind ≠ .endMark := by
    rcases hstop with rfl | rfl <;> decide
  cases h with
  | none =>
      exact yields_of_reading (reading_unlessSees_iff.mpr (Or.inl ⟨rfl, rfl, sees_of_kind stop.2 hend rest⟩))
  | some hphrase =>
      rename_i tree
      have hstops : continuesExpression kind = false := by
        rcases hstop with rfl | rfl <;> rfl
      have hread := hexpression read tree slips _ hphrase hsize (heads_continuesExpression stop hend hstops rest)
      refine hread.unlessSees ?_
      obtain ⟨first, others, rfl, hfirst⟩ := hphrase.opens
      rw [List.cons_append, sees_eq_heads]
      refine heads_eq_false_of_opens hfirst rfl ?_ _
      intro other
      rcases hstop with rfl | rfl <;> cases other <;> decide

theorem yields_print {read : List Token} {tree : Expr} (h : Tolerant.Expression .expression read tree slips)
    (stop : Word .semicolon) (hsize : read.length ≤ size) (rest : List Token) :
    Yields (print expression) (read ++ stop.1 :: rest) (.print tree) rest slips := by
  have hread := hexpression read tree slips (stop.1 :: rest) h hsize
    (heads_continuesExpression stop (by decide) rfl rest)
  exact hread.bind_reading (reading_bind (expect_cons stop.2 (by decide) _ _) rfl)

theorem yields_returned (keyword : Token) {read : List Token} {value : Option Expr}
    (h : Tolerant.Optional read value slips) (stop : Word .semicolon) (hsize : read.length ≤ size)
    (rest : List Token) :
    Yields (returned expression keyword) (read ++ stop.1 :: rest) (.return keyword value) rest slips := by
  have hread := yields_optional hexpression stop (Or.inl rfl) h hsize rest
  exact hread.bind_reading (reading_bind (expect_cons stop.2 (by decide) _ _) rfl)

theorem yields_initializer {read : List Token} {tree : Stmt}
    (h : Tolerant.VarDeclaration read tree slips ∨ Tolerant.ExpressionStatement read tree slips)
    (hsize : read.length ≤ size) (rest : List Token) :
    Yields (initializer expression) (read ++ rest) (some tree) rest slips := by
  unfold initializer
  rcases h with hvar | hstatement
  · obtain ⟨keyword, tail, rfl, hread⟩ := yields_varDeclaration hexpression hvar hsize
    refine yields_bind (accept_word keyword (by decide) (by decide) _) ?_
    simp only
    rw [if_neg (by rw [keyword.2]; decide)]
    exact (hread rest).bind_reading rfl
  · have hread := yields_expressionStatement hexpression hstatement hsize rest
    refine yields_bind (accept_of_not_heads ?_) (hread.bind_reading rfl)
    cases hstatement with
    | mk hphrase stop =>
        obtain ⟨first, others, rfl, hfirst⟩ := hphrase.opens
        refine heads_eq_false_of_opens hfirst rfl ?_ _
        intro kind
        cases kind <;> decide

end Expression

theorem reading_initializer_semicolon {expression : Parser Expr} (stop : Word .semicolon)
    (rest : List Token) : initializer expression ([stop.1] ++ rest) = .done none rest [] := by
  unfold initializer
  apply reading_bind (accept_word stop (by decide) (by decide) _)
  simp only
  rw [if_pos stop.2]
  rfl

/-! ### Statements -/

theorem statementOf_of_opensExpression {expression : Parser Expr} {statement : Parser Stmt}
    {block : Parser (List Stmt)} {token : Token} (htoken : opensExpression token.kind = true)
    (rest : List Token) :
    statementOf expression statement block (token :: rest) =
      expressionStatement expression (token :: rest) := by
  have hend : token.kind ≠ .endMark := by
    intro hend
    rw [hend] at htoken
    cases htoken
  rw [statementOf, next?_cons hend]
  simp only
  generalize token.kind = kind at htoken
  cases kind <;> first | rfl | cases htoken

/-- A block from its opening brace on. -/
def TolerantBlockTail (read : List Token) (statements : List Stmt) (slips : List Slip) : Prop :=
  ∃ (items : List (Entry Stmt)) (closing : Word .rightBrace),
    (∀ item ∈ items, Tolerant.Statement .declaration item.read item.value item.slips) ∧
      read = items.flatMap Entry.read ++ [closing.1] ∧ statements = items.map Entry.value ∧
        slips = items.flatMap Entry.slips

section Parts

variable {expression : Parser Expr}
  (hexpression : YieldsAll size continuesExpression expression (Tolerant.Expression .expression))
  {statement : Parser Stmt} (hstatement : ∀ smaller < size, ∀ mayDangle,
    YieldsAll smaller (takesElse mayDangle) statement (Tolerant.Statement (.statement mayDangle)))

include hexpression hstatement

theorem yields_forLoop {mayDangle : Bool} (opening : Word .leftParen) {first : List Token}
    {initializer? : Option Stmt} {before : List Slip}
    (hfirst : ∀ rest, Yields (initializer expression) (first ++ rest) initializer? rest before)
    {read : List Token} {tree : Stmt} {slips : List Slip}
    (h : Tolerant.Statement (.forTail mayDangle) read tree slips)
    (hsize : read.length < size) {rest : List Token}
    (hrest : heads (takesElse mayDangle) rest = false) :
    Yields (forLoop expression statement) (opening.1 :: (first ++ (read ++ rest)))
      (initializer?.elim tree fun initializer => .block [initializer, tree]) rest (before ++ slips) := by
  unfold forLoop
  refine yields_bind (expect_cons opening.2 (by decide) _ _) ((hfirst _).bind ?_)
  cases h with
  | forTail hcondition stop closing hbody =>
      simp only [List.length_append, List.length_cons] at hsize
      simp only [List.append_assoc, List.cons_append]
      refine (yields_optional hexpression stop (Or.inl rfl) hcondition (by omega) _).bind ?_
      refine yields_bind (expect_cons stop.2 (by decide) _ _) ?_
      refine yields_bind (reading_unlessSees_iff.mpr
        (Or.inl ⟨rfl, rfl, sees_of_kind closing.2 (by decide) _⟩)) ?_
      refine yields_bind (expect_cons closing.2 (by decide) _ _) ?_
      refine (hstatement (size - 1) (by omega) _ _ _ _ rest hbody (by omega) hrest).bind_reading ?_
      cases initializer? <;> rfl
  | forTailStep hcondition stop hincrement closing hbody =>
      simp only [List.length_append, List.length_cons] at hsize
      simp only [List.append_assoc, List.cons_append]
      refine (yields_optional hexpression stop (Or.inl rfl) hcondition (by omega) _).bind ?_
      refine yields_bind (expect_cons stop.2 (by decide) _ _) ?_
      refine (yields_optional hexpression closing (Or.inr rfl) (.some hincrement) (by omega) _).bind ?_
      refine yields_bind (expect_cons closing.2 (by decide) _ _) ?_
      refine (hstatement (size - 1) (by omega) _ _ _ _ rest hbody (by omega) hrest).bind_reading ?_
      cases initializer? <;> rfl

theorem yields_conditional {test read : List Token} {condition : Expr} {whenTrue : Stmt} {first second : List Slip}
    (opening : Word .leftParen) (hcondition : Tolerant.Expression .expression test condition first)
    (closing : Word .rightParen) (htrue : Tolerant.Statement (.statement true) read whenTrue second)
    (htest : test.length < size) (hread : read.length < size) {rest : List Token}
    (hrest : heads (takesElse true) rest = false) :
    Yields (conditional expression statement) (opening.1 :: (test ++ closing.1 :: (read ++ rest)))
      (.conditional condition whenTrue none) rest (first ++ second) := by
  have hcondition := yields_condition hexpression .ifOpening .ifClosing opening hcondition
    (Nat.le_of_lt htest) closing (read ++ rest)
  have htrue := hstatement (size - 1) (by omega) true _ _ _ rest htrue (by omega) hrest
  exact hcondition.bind (htrue.bind_reading (reading_bind (accept_of_not_heads hrest) rfl))

theorem yields_conditional_else {mayDangle : Bool} {test before read : List Token}
    {condition : Expr} {whenTrue whenFalse : Stmt} {first second third : List Slip} (opening : Word .leftParen)
    (hcondition : Tolerant.Expression .expression test condition first) (closing : Word .rightParen)
    (htrue : Tolerant.Statement (.statement false) before whenTrue second) (otherwise : Word .elseWord)
    (hfalse : Tolerant.Statement (.statement mayDangle) read whenFalse third)
    (htest : test.length < size) (hbefore : before.length < size) (hread : read.length < size)
    {rest : List Token} (hrest : heads (takesElse mayDangle) rest = false) :
    Yields (conditional expression statement)
      (opening.1 :: (test ++ closing.1 :: (before ++ otherwise.1 :: (read ++ rest))))
      (.conditional condition whenTrue (some whenFalse)) rest (first ++ (second ++ third)) := by
  have hcondition := yields_condition hexpression .ifOpening .ifClosing opening hcondition
    (Nat.le_of_lt htest) closing (before ++ otherwise.1 :: (read ++ rest))
  -- The first branch ends at the `else` because it can take none itself.
  have htrue := hstatement (size - 1) (by omega) false _ _ _ (otherwise.1 :: (read ++ rest)) htrue
    (by omega) (heads_takesElse_of_closed _)
  have hfalse := hstatement (size - 1) (by omega) mayDangle _ _ _ rest hfalse (by omega) hrest
  refine hcondition.bind (htrue.bind ?_)
  exact yields_bind (accept_word otherwise (by decide) (by decide) _) (hfalse.bind_reading rfl)

theorem yields_loop {mayDangle : Bool} {test read : List Token} {condition : Expr} {body : Stmt}
    {first second : List Slip} (opening : Word .leftParen)
    (hcondition : Tolerant.Expression .expression test condition first)
    (closing : Word .rightParen) (hbody : Tolerant.Statement (.statement mayDangle) read body second)
    (htest : test.length < size) (hread : read.length < size) {rest : List Token}
    (hrest : heads (takesElse mayDangle) rest = false) :
    Yields (loop expression statement) (opening.1 :: (test ++ closing.1 :: (read ++ rest)))
      (.loop condition body) rest (first ++ second) := by
  have hcondition := yields_condition hexpression .whileOpening .whileClosing opening hcondition
    (Nat.le_of_lt htest) closing (read ++ rest)
  have hbody := hstatement (size - 1) (by omega) mayDangle _ _ _ rest hbody (by omega) hrest
  exact hcondition.bind (hbody.bind_reading rfl)

theorem yieldsAll_statementOf {block : Parser (List Stmt)}
    (hblock : ∀ smaller < size, YieldsAll smaller (fun _ => false) block TolerantBlockTail)
    (mayDangle : Bool) :
    YieldsAll size (takesElse mayDangle) (statementOf expression statement block)
      (Tolerant.Statement (.statement mayDangle)) := by
  have hkeyword {kind : Kind} (keyword : Word kind) (hend : kind ≠ .endMark) (rest : List Token) :
      next? (keyword.1 :: rest) = some (keyword.1, rest) := next?_cons (keyword.kind_ne hend) rest
  intro read tree slips rest h hsize hrest
  cases h with
  | nested hnested =>
      cases hnested with
      | block opening items hitems closing =>
          rw [List.length_cons] at hsize
          have hread := hblock (size - 1) (by omega) _ _ _ rest ⟨items, closing, hitems, rfl, rfl, rfl⟩ (by omega)
            (heads_takesElse_of_closed rest)
          rw [List.cons_append, Yields, statementOf, hkeyword opening (by decide)]
          simp only [opening.2]
          exact hread.map Stmt.block
  | ifOnly keyword opening hcondition closing htrue =>
      simp only [List.length_append, List.length_cons] at hsize
      simp only [List.append_assoc, List.cons_append]
      rw [Yields, statementOf, hkeyword keyword (by decide)]
      simp only [keyword.2]
      exact yields_conditional hexpression hstatement opening hcondition closing htrue (by omega)
        (by omega) hrest
  | ifElse keyword opening hcondition closing htrue otherwise hfalse =>
      simp only [List.length_append, List.length_cons] at hsize
      simp only [List.append_assoc, List.cons_append]
      rw [Yields, statementOf, hkeyword keyword (by decide)]
      simp only [keyword.2]
      exact yields_conditional_else hexpression hstatement opening hcondition closing htrue otherwise
        hfalse (by omega) (by omega) (by omega) hrest
  | whileLoop keyword opening hcondition closing hbody =>
      simp only [List.length_append, List.length_cons] at hsize
      simp only [List.append_assoc, List.cons_append]
      rw [Yields, statementOf, hkeyword keyword (by decide)]
      simp only [keyword.2]
      exact yields_loop hexpression hstatement opening hcondition closing hbody (by omega) (by omega)
        hrest
  | forOnly keyword opening stop hloop =>
      simp only [List.length_cons] at hsize
      simp only [List.cons_append]
      rw [Yields, statementOf, hkeyword keyword (by decide)]
      simp only [keyword.2]
      exact yields_forLoop hexpression hstatement opening
        (fun rest => yields_of_reading (reading_initializer_semicolon stop rest)) hloop (by omega) hrest
  | forFrom keyword opening hfirst hloop =>
      simp only [List.length_append, List.length_cons] at hsize
      simp only [List.append_assoc, List.cons_append]
      rw [Yields, statementOf, hkeyword keyword (by decide)]
      simp only [keyword.2]
      exact yields_forLoop hexpression hstatement opening
        (yields_initializer hexpression hfirst (by omega)) hloop (by omega) hrest
  | print keyword hphrase stop =>
      simp only [List.length_append, List.length_cons] at hsize
      simp only [List.append_assoc, List.cons_append]
      rw [Yields, statementOf, hkeyword keyword (by decide)]
      simp only [keyword.2]
      exact yields_print hexpression hphrase stop (by omega) rest
  | «return» keyword hvalue stop =>
      simp only [List.length_append, List.length_cons] at hsize
      simp only [List.append_assoc, List.cons_append]
      rw [Yields, statementOf, hkeyword keyword (by decide)]
      simp only [keyword.2]
      exact yields_returned hexpression keyword.1 hvalue stop (by omega) rest
  | expression htree =>
      have hread := yields_expressionStatement hexpression htree hsize rest
      cases htree with
      | mk hphrase stop =>
          obtain ⟨first, others, rfl, hfirst⟩ := hphrase.opens
          rw [List.cons_append, List.cons_append] at hread ⊢
          rw [Yields, statementOf_of_opensExpression hfirst]
          exact hread

end Parts

/-! ### Blocks, functions and classes -/

section Collecting

variable {stop : List Token → Bool} {collect : α → Option β} {parser : Parser α} {goesOn : Kind → Bool}
  {phrase : List Token → β → List Slip → Prop}
  (hparser : ∀ read item slips rest, phrase read item slips → read.length ≤ size → heads goesOn rest = false →
    ∃ value, collect value = some item ∧ Yields parser (read ++ rest) value rest slips)
  (hbegins : ∀ read item slips, phrase read item slips → 0 < read.length ∧ ∀ rest,
    stop (read ++ rest) = false ∧ heads goesOn (read ++ rest) = false)

include hparser hbegins

/-- The loop reads the items, one in each turn, and goes on behind them. -/
theorem iterate_collecting_append {items : List (Entry β)}
    (hitems : ∀ item ∈ items, phrase item.read item.value item.slips)
    (hsize : (items.flatMap Entry.read).length ≤ size)
    {rest : List Token} (hrest : heads goesOn rest = false) (before : Array β) :
    ∃ (between : Array β) (reports : List Report), between.toList = before.toList ++ items.map Entry.value ∧
      reports.map Report.slip? = (items.flatMap Entry.slips).map some ∧ ∀ turns,
        iterate (collecting stop collect parser) (items.length + turns) before
            (items.flatMap Entry.read ++ rest) =
          (iterate (collecting stop collect parser) turns between rest).after reports := by
  induction items generalizing before with
  | nil => exact ⟨before, [], by simp, rfl, fun turns => by simp⟩
  | cons item items ih =>
      rw [List.forall_mem_cons] at hitems
      rw [List.flatMap_cons, List.length_append] at hsize
      obtain ⟨-, hfirst⟩ := hbegins _ _ _ hitems.1
      have hnext : heads goesOn (items.flatMap Entry.read ++ rest) = false := by
        cases items with
        | nil => exact hrest
        | cons second items =>
            rw [List.flatMap_cons, List.append_assoc]
            exact ((hbegins _ _ _ (hitems.2 second List.mem_cons_self)).2 _).2
      obtain ⟨value, hvalue, reports, hread, hslips⟩ := hparser _ _ _ _ hitems.1 (by omega) hnext
      obtain ⟨between, later, hbetween, hlater, hloop⟩ := ih hitems.2 (by omega) (before.push item.value)
      refine ⟨between, reports ++ later, by simp [hbetween], ?_, fun turns => ?_⟩
      · rw [List.flatMap_cons, List.map_append, List.map_append, hslips, hlater]
      · rw [List.flatMap_cons, List.append_assoc, List.length_cons, Nat.add_right_comm,
          iterate_collecting_again collect (hfirst _).1 hread, hvalue, Option.elim_some, hloop,
          Parse.after_after]

omit hparser in
/-- There are no more items than tokens. -/
theorem length_le_of_phrases {items : List (Entry β)}
    (hitems : ∀ item ∈ items, phrase item.read item.value item.slips) :
    items.length ≤ (items.flatMap Entry.read).length := by
  induction items with
  | nil => exact Nat.le_refl 0
  | cons item items ih =>
      rw [List.forall_mem_cons] at hitems
      have hlength := (hbegins _ _ _ hitems.1).1
      have hothers := ih hitems.2
      rw [List.flatMap_cons, List.length_append, List.length_cons]
      omega

theorem yields_iterate_collecting {items : List (Entry β)}
    (hitems : ∀ item ∈ items, phrase item.read item.value item.slips)
    (hsize : (items.flatMap Entry.read).length ≤ size)
    (hturns : (items.flatMap Entry.read).length < turns) {rest : List Token} (hstop : stop rest = true)
    (hrest : heads goesOn rest = false) (before : Array β) :
    ∃ final : Array β, final.toList = before.toList ++ items.map Entry.value ∧
      Yields (iterate (collecting stop collect parser) turns before) (items.flatMap Entry.read ++ rest)
        final rest (items.flatMap Entry.slips) := by
  obtain ⟨final, reports, hfinal, hslips, hloop⟩ :=
    iterate_collecting_append hparser hbegins hitems hsize hrest before
  have hlength := length_le_of_phrases hbegins hitems
  obtain ⟨more, rfl⟩ := Nat.exists_eq_add_of_lt (Nat.lt_of_le_of_lt hlength hturns)
  refine ⟨final, hfinal, reports, ?_, hslips⟩
  rw [Nat.add_assoc, hloop, iterate_collecting_last collect parser hstop, Parse.after_done, List.append_nil]

end Collecting

/-- What begins with a declaration is not at the end of a block, nor of a list. -/
theorem closes_cons {first : Token} (hend : first.kind ≠ .endMark)
    (hbrace : first.kind ≠ .rightBrace) (rest : List Token) : closes (first :: rest) = false := by
  simp [closes, sees_eq_heads, heads_cons hend, hbrace, atEnd, next?_cons hend]

/-- The parser reads every declaration, as one value. -/
def YieldsDeclarations (size : Nat) (parser : Parser (Option Stmt)) : Prop :=
  ∀ read tree slips rest, Tolerant.Statement .declaration read tree slips → read.length ≤ size →
    heads (takesElse true) rest = false → Yields parser (read ++ rest) (some tree) rest slips

theorem YieldsDeclarations.exists_value {parser : Parser (Option Stmt)} (h : YieldsDeclarations size parser)
    (read : List Token) (tree : Stmt) (slips : List Slip) (rest : List Token)
    (hphrase : Tolerant.Statement .declaration read tree slips) (hread : read.length ≤ size)
    (hrest : heads (takesElse true) rest = false) :
    ∃ value, id value = some tree ∧ Yields parser (read ++ rest) value rest slips :=
  ⟨some tree, rfl, h read tree slips rest hphrase hread hrest⟩

theorem declaration_begins {read : List Token} {tree : Stmt} {slips : List Slip}
    (h : Tolerant.Statement .declaration read tree slips) : 0 < read.length ∧ ∀ rest,
      closes (read ++ rest) = false ∧ heads (takesElse true) (read ++ rest) = false := by
  obtain ⟨first, others, rfl, hfirst⟩ := h.opens_declaration
  refine ⟨Nat.zero_lt_succ _, fun rest => ⟨?_, ?_⟩⟩
  · refine closes_cons ?_ ?_ _
    all_goals
      intro hkind
      rw [hkind] at hfirst
      cases hfirst
  · refine heads_eq_false_of_opens hfirst rfl ?_ _
    intro kind
    cases kind <;> decide

theorem yieldsAll_block {declaration : Parser (Option Stmt)}
    (hdeclaration : YieldsDeclarations size declaration) (hturns : size < turns) :
    YieldsAll size (fun _ => false) (block declaration turns) TolerantBlockTail := by
  intro read statements slips rest h hsize _
  obtain ⟨items, closing, hitems, rfl, rfl, rfl⟩ := h
  rw [List.length_append] at hsize
  rw [List.append_assoc, List.singleton_append]
  have hstop : closes (closing.1 :: rest) = true := by
    rw [closes, sees_of_kind closing.2 (by decide), Bool.true_or]
  have hnext : heads (takesElse true) (closing.1 :: rest) = false := heads_word closing (by decide) _ _
  obtain ⟨final, hfinal, hloop⟩ := yields_iterate_collecting hdeclaration.exists_value
    (fun _ _ _ => declaration_begins) hitems (by omega) (show _ < turns by omega) hstop hnext #[]
  unfold block
  rw [member_eq_collecting]
  refine hloop.bind_reading (reading_bind (expect_cons closing.2 (by decide) _ _) ?_)
  exact reading_pure_iff.mpr ⟨by simpa using hfinal, rfl⟩

/-- The parameters are read with the parenthesis behind them next, however many they are. -/
theorem yields_parameters {params : List (Word .identifier)} {read : List Token}
    (hread : Separated (params.map fun param => [param.1]) read) (closing : Word .rightParen)
    (hturns : read.length < turns) (rest : List Token) :
    Yields (entries .parameters (expect .identifier .parameterName) turns) (read ++ closing.1 :: rest)
      (params.map Subtype.val) (closing.1 :: rest) (slipsFrom .parameters 0 (params.map Entry.word)) := by
  have hexpect : YieldsAll read.length (fun _ => false) (expect .identifier .parameterName)
      fun read token slips => ∃ word : Word .identifier, read = [word.1] ∧ token = word.1 ∧ slips = [] := by
    rintro _ _ _ rest ⟨word, rfl, rfl, rfl⟩ - -
    exact yields_of_reading (expect_cons word.2 (by decide) _ _)
  have hbegins (read : List Token) (token : Token) (slips : List Slip)
      (hword : ∃ word : Word .identifier, read = [word.1] ∧ token = word.1 ∧ slips = []) :
      ∃ first others, read = first :: others ∧ first.kind ≠ .endMark ∧ first.kind ≠ .rightParen := by
    obtain ⟨word, rfl, -⟩ := hword
    exact ⟨word.1, [], rfl, by rw [word.2]; decide, by rw [word.2]; decide⟩
  have hwords : ∀ entry ∈ params.map Entry.word,
      ∃ word : Word .identifier, entry.read = [word.1] ∧ entry.value = word.1 ∧ entry.slips = [] :=
    List.forall_mem_map.mpr fun word _ => ⟨word, rfl, rfl, rfl⟩
  have hreads : (params.map Entry.word).map Entry.read = params.map fun param => [param.1] := List.map_map
  have hvalues : (params.map Entry.word).map Entry.value = params.map Subtype.val := List.map_map
  rw [← hreads] at hread
  rw [← hvalues]
  exact yields_entries hexpect hbegins rfl rfl .parameters closing rest hwords hread (Nat.le_refl _) hturns

/-- A function gets the parameters that are read, whatever becomes of its body. -/
theorem function_apply (role : Role) (block : Parser (List Stmt)) (name : Word .identifier)
    (opening : Word .leftParen) {params : List Token} {read rest : List Token} (closing : Word .rightParen)
    (brace : Word .leftBrace) {reports : List Report}
    (hparams : entries .parameters (expect .identifier .parameterName) turns (read ++ closing.1 :: brace.1 :: rest) =
      .done params (closing.1 :: brace.1 :: rest) reports) :
    function role block turns (name.1 :: opening.1 :: (read ++ closing.1 :: brace.1 :: rest)) =
      (((fun body => { name := name.1, params, body }) <$> block) rest).after reports := by
  unfold function
  rw [bind_of_reading (expect_cons name.2 (by decide) _ _), bind_of_reading (expect_cons opening.2 (by decide) _ _),
    bind_apply, hparams]
  simp only
  rw [bind_of_reading (expect_cons closing.2 (by decide) _ _), bind_of_reading (expect_cons brace.2 (by decide) _ _),
    map_eq_pure_bind]

section Block

variable {block : Parser (List Stmt)}
  (hblock : YieldsAll size (fun _ => false) block TolerantBlockTail)

include hblock

theorem yields_function (hturns : size < turns) (role : Role) {read : List Token}
    {declaration : Declaration} {slips : List Slip}
    (h : Tolerant.Statement .function read (.function declaration) slips)
    (hsize : read.length ≤ size) (rest : List Token) :
    Yields (function role block turns) (read ++ rest) declaration rest slips := by
  cases h with
  | function name opening params hread closing hbody =>
      cases hbody with
      | block brace items hitems last =>
          simp only [List.length_append, List.length_cons, List.length_nil] at hsize
          simp only [List.append_assoc, List.cons_append]
          have hbody := hblock _ _ _ rest ⟨items, last, hitems, rfl, rfl, rfl⟩
            (by rw [List.length_append, List.length_singleton]; omega) (heads_takesElse_of_closed rest)
          obtain ⟨reports, hparams, hslips⟩ := yields_parameters hread closing (show _ < turns by omega)
            (brace.1 :: (items.flatMap Entry.read ++ ([last.1] ++ rest)))
          rw [List.append_assoc] at hbody
          obtain ⟨later, hlater, hrest⟩ := hbody.map
            fun body => ({ name := name.1, params := params.map Subtype.val, body } : Declaration)
          refine ⟨reports ++ later, ?_, by rw [List.map_append, List.map_append, hslips, hrest]⟩
          refine (function_apply role block name opening closing brace hparams).trans ?_
          rw [hlater, Parse.after_done]

theorem yields_classDeclaration (hturns : size < turns) (name : Word .identifier)
    (opening : Word .leftBrace) {methods : List (Entry Declaration)}
    (hmethods : ∀ method ∈ methods, Tolerant.Statement .function method.read (.function method.value) method.slips)
    (hsize : (methods.flatMap Entry.read).length ≤ size) (closing : Word .rightBrace)
    (rest : List Token) :
    Yields (classDeclaration block turns)
      (name.1 :: opening.1 :: (methods.flatMap Entry.read ++ closing.1 :: rest))
      (.classDecl name (methods.map Entry.value)) rest (methods.flatMap Entry.slips) := by
  have hstop : closes (closing.1 :: rest) = true := by
    rw [closes, sees_of_kind closing.2 (by decide), Bool.true_or]
  have hread (read : List Token) (declaration : Declaration) (slips : List Slip) (rest : List Token)
      (h : Tolerant.Statement .function read (.function declaration) slips) (hread : read.length ≤ size)
      (_ : heads (fun _ => false) rest = false) :
      ∃ value, some value = some declaration ∧
        Yields (function .method block turns) (read ++ rest) value rest slips :=
    ⟨declaration, rfl, yields_function hblock hturns .method h hread rest⟩
  have hbegins (read : List Token) (declaration : Declaration) (slips : List Slip)
      (h : Tolerant.Statement .function read (.function declaration) slips) : 0 < read.length ∧ ∀ rest,
        closes (read ++ rest) = false ∧ heads (fun _ => false) (read ++ rest) = false := by
    cases h with
    | function name =>
        refine ⟨Nat.zero_lt_succ _, fun rest => ⟨?_, heads_takesElse_of_closed _⟩⟩
        exact closes_cons (name.kind_ne (by decide)) (by rw [name.2]; decide) _
  obtain ⟨final, hfinal, hloop⟩ := yields_iterate_collecting hread hbegins hmethods hsize
    (show _ < turns by omega) hstop (heads_takesElse_of_closed _) #[]
  unfold classDeclaration
  rw [method_eq_collecting]
  refine yields_bind (expect_cons name.2 (by decide) _ _) ?_
  refine yields_bind (expect_cons opening.2 (by decide) _ _) (hloop.bind_reading ?_)
  apply reading_bind (expect_cons closing.2 (by decide) _ _)
  refine reading_pure_iff.mpr ⟨?_, rfl⟩
  rw [hfinal]
  rfl

end Block

/-! ### Declarations -/

theorem declarationOf_of_opensStatement {expression : Parser Expr} {statement : Parser Stmt}
    {block : Parser (List Stmt)} {token : Token} (htoken : opensStatement token.kind = true)
    (rest : List Token) :
    declarationOf expression statement block turns (token :: rest) = statement (token :: rest) := by
  have hend : token.kind ≠ .endMark := by
    intro hend
    rw [hend] at htoken
    cases htoken
  rw [declarationOf, next?_cons hend]
  simp only
  generalize token.kind = kind at htoken
  cases kind <;> first | rfl | cases htoken

theorem yields_declarationOf {expression : Parser Expr}
    (hexpression : YieldsAll size continuesExpression expression (Tolerant.Expression .expression))
    {statement : Parser Stmt} (hstatement :
      YieldsAll size (takesElse true) statement (Tolerant.Statement (.statement true)))
    {block : Parser (List Stmt)}
    (hblock : ∀ smaller < size, YieldsAll smaller (fun _ => false) block TolerantBlockTail)
    (hturns : size ≤ turns) {read : List Token} {tree : Stmt} {slips : List Slip} {rest : List Token}
    (h : Tolerant.Statement .declaration read tree slips) (hsize : read.length ≤ size)
    (hrest : heads (takesElse true) rest = false) :
    Yields (declarationOf expression statement block turns) (read ++ rest) tree rest slips := by
  cases h with
  | classDecl keyword name opening methods hmethods closing =>
      simp only [List.length_append, List.length_cons] at hsize
      simp only [List.append_assoc, List.cons_append]
      rw [Yields, declarationOf, next?_cons (keyword.kind_ne (by decide))]
      simp only [keyword.2]
      exact yields_classDeclaration (hblock (size - 1) (by omega)) (by omega) name opening hmethods
        (by omega) closing rest
  | functionDecl keyword hfunction =>
      rw [List.length_cons] at hsize
      rw [List.cons_append, Yields, declarationOf, next?_cons (keyword.kind_ne (by decide))]
      simp only [keyword.2]
      cases hfunction with
      | function name opening params hread closing hbody =>
          have hfunction := yields_function (hblock (size - 1) (by omega)) (show _ < turns by omega) .function
            (.function name opening params hread closing hbody) (by omega) rest
          exact hfunction.map Stmt.function
  | varDecl hvar =>
      obtain ⟨keyword, tail, rfl, hread⟩ := yields_varDeclaration hexpression hvar hsize
      rw [List.cons_append, Yields, declarationOf, next?_cons (keyword.kind_ne (by decide))]
      simp only [keyword.2]
      exact hread rest
  | statement hphrase =>
      have hread := hstatement read tree slips rest hphrase hsize hrest
      obtain ⟨first, others, rfl, hfirst⟩ := hphrase.opens
      rw [List.cons_append] at hread ⊢
      rw [Yields, declarationOf_of_opensStatement hfirst]
      exact hread

theorem Yields.recovering {parser : Parser α} {tokens rest : List Token} {value : α} {slips : List Slip}
    (h : Yields parser tokens value rest slips) : Yields (recovering parser) tokens (some value) rest slips := by
  obtain ⟨reports, hread, hslips⟩ := h
  exact ⟨reports, by rw [Parser.recovering, hread], hslips⟩

theorem yieldsAll_statement_declaration (level : Nat) :
    (∀ size, 2 * size + 3 ≤ level → ∀ mayDangle, YieldsAll size (takesElse mayDangle)
        (statement level) (Tolerant.Statement (.statement mayDangle))) ∧
      ∀ size, 2 * size + 4 ≤ level → YieldsDeclarations size (declaration level) := by
  induction level with
  | zero => exact ⟨fun size h => by omega, fun size h => by omega⟩
  | succ level ih =>
      obtain ⟨hstatement, hdeclaration⟩ := ih
      have hblock {size : Nat} (hlevel : 2 * size + 2 ≤ level) : ∀ smaller < size,
          YieldsAll smaller (fun _ => false) (block (declaration level) level) TolerantBlockTail :=
        fun smaller hsmaller => yieldsAll_block (hdeclaration smaller (by omega)) (by omega)
      constructor
      · intro size hlevel mayDangle
        exact yieldsAll_statementOf (yieldsAll_expression (by omega))
          (fun smaller hsmaller => hstatement smaller (by omega)) (hblock (by omega)) mayDangle
      · intro size hlevel read tree slips rest h hsize hrest
        have hexpression : YieldsAll size continuesExpression _ _ :=
          yieldsAll_expression (show 2 * size + 2 ≤ level by omega)
        have hread := yields_declarationOf hexpression (hstatement size (by omega) true)
          (hblock (by omega)) (show size ≤ level by omega) h hsize hrest
        exact hread.recovering

theorem declaration_begins_topLevel (read : List Token) (tree : Stmt) (slips : List Slip)
    (h : Tolerant.Statement .declaration read tree slips) : 0 < read.length ∧ ∀ rest,
      atEnd (read ++ rest) = false ∧ heads (takesElse true) (read ++ rest) = false := by
  obtain ⟨hlength, hnext⟩ := declaration_begins h
  refine ⟨hlength, fun rest => ⟨?_, (hnext rest).2⟩⟩
  exact (Bool.or_eq_false_iff.mp (hnext rest).1).2

/-- A program is read to the end of the list. -/
theorem yields_program {level : Nat} {read rest : List Token} {tree : List Stmt} {slips : List Slip}
    (h : Tolerant.Program read tree slips) (hlevel : 2 * read.length + 4 ≤ level)
    (hrest : atEnd rest = true) : Yields (program level) (read ++ rest) tree rest slips := by
  obtain ⟨items, hitems, rfl, rfl, rfl⟩ := h
  have hdeclaration := (yieldsAll_statement_declaration level).2 _ hlevel
  obtain ⟨final, hfinal, hloop⟩ := yields_iterate_collecting hdeclaration.exists_value declaration_begins_topLevel
    hitems (Nat.le_refl _) (show _ < level by omega) hrest (heads_eq_false_of_atEnd hrest _) #[]
  unfold program
  rw [topLevel_eq_collecting]
  exact hloop.bind_reading (reading_pure_iff.mpr ⟨by simpa using hfinal, rfl⟩)

/-! ### Programs without slips -/

section Program

variable {level : Nat} {items : List (List Token × Stmt)}
  (hitems : ∀ item ∈ items, Statement .nearest .declaration item.1 item.2)
  (hlevel : 2 * (items.flatMap Prod.fst).length + 4 ≤ level)

include hitems

theorem tolerant_plain : ∀ item ∈ items.map Entry.plain,
    Tolerant.Statement .declaration item.read item.value item.slips :=
  List.forall_mem_map.mpr fun item hitem => (hitems item hitem).tolerant

include hlevel

/-- The loop over the declarations of a program reads those that come first, and goes on behind them
unless an `else` follows. -/
theorem iterate_topLevel_append {rest : List Token} (hrest : heads (takesElse true) rest = false)
    (before : Array Stmt) :
    ∃ between : Array Stmt, between.toList = before.toList ++ items.map Prod.snd ∧ ∀ turns,
      iterate (topLevel (declaration level)) (items.length + turns) before
          (items.flatMap Prod.fst ++ rest) =
        iterate (topLevel (declaration level)) turns between rest := by
  rw [← flatMap_read_plain] at hlevel
  have hdeclaration := (yieldsAll_statement_declaration level).2 _ hlevel
  obtain ⟨between, reports, hbetween, hslips, hloop⟩ := iterate_collecting_append hdeclaration.exists_value
    declaration_begins_topLevel (tolerant_plain hitems) (Nat.le_refl _) hrest before
  rw [flatMap_slips_plain, List.map_nil, List.map_eq_nil_iff] at hslips
  simp only [hslips, flatMap_read_plain, List.length_map, Parse.after_nil] at hloop
  rw [map_value_plain] at hbetween
  exact ⟨between, hbetween, hloop⟩

/-- There are turns for the declarations, and one more. -/
theorem exists_turns : ∃ turns, level = items.length + (turns + 1) := by
  have hlength := length_le_of_phrases declaration_begins_topLevel (tolerant_plain hitems)
  rw [flatMap_read_plain, List.length_map] at hlength
  exact ⟨level - items.length - 1, by omega⟩

end Program

/-- A program by the grammar where an `else` goes to the nearest `if` is read to the end of the list. -/
theorem reading_of_program {level : Nat} {read rest : List Token} {tree : List Stmt}
    (h : Program .nearest read tree) (hlevel : 2 * read.length + 4 ≤ level)
    (hrest : atEnd rest = true) : program level (read ++ rest) = .done tree rest [] := by
  obtain ⟨items, hitems, rfl, rfl⟩ := h
  refine (yields_program ⟨items.map Entry.plain, tolerant_plain hitems, ?_, ?_, ?_⟩ hlevel hrest).reading
  · exact (flatMap_read_plain items).symm
  · exact (map_value_plain items).symm
  · exact (flatMap_slips_plain items).symm

end Script.Parser
