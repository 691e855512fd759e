import Mathlib.Data.List.Infix
import Script.Proofs.Formed.Trees
import Script.Proofs.Recovery.Places

/-!
# The parser gives well formed trees

What the parser gives is made of the tokens up to the end of the list, and well formed, on whatever list and whatever
errors it meets. What is read after an error is read as it would be without it, so one judgment on parsers does for
both: of a list with tokens of some sort they leave a list with such tokens, and their values are such.
-/

namespace Script

variable {α β σ : Type} {P : Token → Prop} {p : α → Prop} {q : β → Prop}

namespace Parser

/-- The tokens up to the end of the list are such. -/
def From (P : Token → Prop) (tokens : List Token) : Prop :=
  ∀ token ∈ upToEnd tokens, P token

theorem From.passes {tokens unread : List Token} {least : Nat} (h : From P tokens)
    (hpasses : Passes least tokens unread) : From P unread := by
  obtain ⟨read, rfl, hread, -⟩ := hpasses
  intro token htoken
  refine h token ?_
  rw [upToEnd_append_of_unmarked hread]
  exact List.mem_append_right read htoken

theorem From.next {tokens rest : List Token} {token : Token} (h : From P tokens)
    (hnext : next? tokens = some (token, rest)) : P token ∧ From P rest := by
  obtain ⟨rfl, hend⟩ := next?_eq_some_iff.mp hnext
  have hwhole : upToEnd (token :: rest) = token :: upToEnd rest := by simp [upToEnd, hend]
  rw [From, hwhole, List.forall_mem_cons] at h
  exact h

end Parser

/-- The value is such, and the tokens that are left are of those given. -/
def Parse.Drawn (P : Token → Prop) (p : α → Prop) : Parse α → Prop
  | .done value unread _ => p value ∧ Parser.From P unread
  | .failed unread _ _ => Parser.From P unread
  | .exhausted => True

theorem Parse.Drawn.after {outcome : Parse α} (h : outcome.Drawn P p) (earlier : List Report) :
    (outcome.after earlier).Drawn P p := by
  cases outcome <;> exact h

theorem Parse.Drawn.mono {outcome : Parse α} (h : outcome.Drawn P p) {r : α → Prop}
    (hp : ∀ value, p value → r value) : outcome.Drawn P r := by
  cases outcome with
  | done => exact h.imp_left (hp _)
  | failed | exhausted => exact h

namespace Parser

def Draws (P : Token → Prop) (parser : Parser α) (p : α → Prop) : Prop :=
  ∀ tokens, From P tokens → (parser tokens).Drawn P p

section Combinators

variable {parser : Parser α}

theorem Draws.mono (h : Draws P parser p) {r : α → Prop} (hp : ∀ value, p value → r value) : Draws P parser r :=
  fun tokens htokens => (h tokens htokens).mono hp

theorem draws_exhausted : Draws P (exhausted : Parser α) p :=
  fun _ _ => trivial

theorem draws_pure {value : α} (hvalue : p value) : Draws P (pure value) p :=
  fun _ htokens => ⟨hvalue, htokens⟩

theorem Draws.bind (h : Draws P parser p) {next : α → Parser β} (hnext : ∀ value, p value → Draws P (next value) q) :
    Draws P (parser >>= next) q := by
  intro tokens htokens
  have hfirst := h tokens htokens
  rw [bind_apply]
  cases hparse : parser tokens with
  | done value unread reports =>
      rw [hparse] at hfirst
      exact (hnext value hfirst.1 unread hfirst.2).after reports
  | failed unread reports cause =>
      rw [hparse] at hfirst
      exact hfirst
  | exhausted => trivial

theorem Draws.map (h : Draws P parser p) {f : α → β} (hf : ∀ value, p value → q (f value)) :
    Draws P (f <$> parser) q := by
  rw [map_eq_pure_bind]
  exact h.bind fun value hvalue => draws_pure (hf value hvalue)

theorem draws_unread : Draws P unread fun _ => True :=
  fun _ htokens => ⟨trivial, htokens⟩

theorem draws_report (place : List Token) (error : SyntaxError) : Draws P (report place error) fun _ => True :=
  fun _ htokens => ⟨trivial, htokens⟩

theorem draws_expect (kind : Kind) (expected : Expected) :
    Draws P (expect kind expected) fun token => P token ∧ token.kind = kind := by
  intro tokens htokens
  unfold expect
  split
  · next token rest hnext =>
      obtain ⟨htoken, hrest⟩ := htokens.next hnext
      split
      · next hkind => exact ⟨⟨htoken, hkind⟩, hrest⟩
      · exact htokens
  · exact htokens

theorem draws_accept (kinds : Kind → Bool) :
    Draws P (accept kinds) fun mark => ∀ token ∈ mark, P token ∧ kinds token.kind = true := by
  have hnone {tokens : List Token} (htokens : From P tokens) :
      (Parse.done none tokens []).Drawn P fun mark => ∀ token ∈ mark, P token ∧ kinds token.kind = true :=
    ⟨nofun, htokens⟩
  intro tokens htokens
  unfold accept
  split
  · next token rest hnext =>
      obtain ⟨htoken, hrest⟩ := htokens.next hnext
      split
      · next hkind => exact ⟨by rintro _ ⟨⟩; exact ⟨htoken, hkind⟩, hrest⟩
      · exact hnone htokens
  · exact hnone htokens

theorem draws_unlessSees (h : Draws P parser p) (kind : Kind) :
    Draws P (unlessSees kind parser) fun read => ∀ value ∈ read, p value := by
  intro tokens htokens
  unfold unlessSees
  split
  · exact ⟨nofun, htokens⟩
  · exact h.map (by rintro value hvalue _ ⟨⟩; exact hvalue) tokens htokens

/-- The state that a turn makes is such. -/
def Turn.Makes (p : α → Prop) : Turn α → Prop
  | .again state | .last state => p state

theorem draws_iterate {p : σ → Prop} {turn : σ → Parser (Turn σ)}
    (hturn : ∀ state, p state → Draws P (turn state) (Turn.Makes p)) (turns : Nat) {state : σ} (hstate : p state) :
    Draws P (iterate turn turns state) p := by
  induction turns generalizing state with
  | zero => exact draws_exhausted
  | succ turns ih =>
      rw [iterate_succ]
      refine (hturn state hstate).bind fun next hnext => ?_
      cases next with
      | again state => exact ih hnext
      | last state => exact draws_pure hnext

theorem forall_mem_push {read : Array α} (hread : ∀ item ∈ read, p item) {item : α} (hitem : p item) :
    ∀ other ∈ read.push item, p other := by
  intro other hother
  rcases Array.mem_push.mp hother with hold | rfl
  · exact hread other hold
  · exact hitem

theorem draws_collecting {collect : α → Option β} (h : Draws P parser fun value => ∀ item ∈ collect value, q item)
    (stop : List Token → Bool) (turns : Nat) :
    Draws P (iterate (collecting stop collect parser) turns #[]) fun final => ∀ item ∈ final.toList, q item := by
  have hturn (read : Array β) (hread : ∀ item ∈ read, q item) :
      Draws P (collecting stop collect parser read) (Turn.Makes fun final => ∀ item ∈ final, q item) := by
    intro tokens htokens
    unfold collecting
    split
    · exact ⟨hread, htokens⟩
    · refine h.map (fun value hvalue => ?_) tokens htokens
      cases hcollect : collect value with
      | none => exact hread
      | some item => exact forall_mem_push hread (hvalue item hcollect)
  refine (draws_iterate hturn turns fun _ hmem => nomatch Array.not_mem_empty _ hmem).mono fun final hfinal => ?_
  exact fun item hmem => hfinal item (Array.mem_toList_iff.mp hmem)

theorem draws_entries (h : Draws P parser p) (which : Entries) (turns : Nat) :
    Draws P (entries which parser turns) fun values => ∀ value ∈ values, p value := by
  have honeMore (read : Array α) (hread : ∀ item ∈ read, p item) :
      Draws P (oneMore parser read) (Turn.Makes fun final => ∀ item ∈ final, p item) := by
    refine h.bind fun value hvalue => (draws_accept _).bind fun mark _ => ?_
    cases mark with
    | some mark => exact draws_pure (forall_mem_push hread hvalue)
    | none => exact draws_pure (forall_mem_push hread hvalue)
  have hentry (read : Array α) (hread : ∀ item ∈ read, p item) :
      Draws P (entry which parser read) (Turn.Makes fun final => ∀ item ∈ final, p item) := by
    unfold entry
    split
    · exact draws_unread.bind fun place _ => (draws_report place _).bind fun _ _ => honeMore read hread
    · exact honeMore read hread
  have hloop : Draws P (iterate (entry which parser) turns #[]) fun final => ∀ item ∈ final, p item :=
    draws_iterate hentry turns fun _ hmem => nomatch Array.not_mem_empty _ hmem
  refine (draws_unlessSees hloop _).bind fun read hread => ?_
  cases read with
  | some read => exact draws_pure fun value hmem => hread read rfl value (Array.mem_toList_iff.mp hmem)
  | none => exact draws_pure nofun

end Combinators

/-! ### Expressions -/

/-- A well formed tree that binds at least so tightly. -/
def Bound (P : Token → Prop) (least : Nat) (tree : Expr) : Prop :=
  tree.Formed P ∧ least ≤ tree.rank

theorem Bound.loosen {tree : Expr} {least : Nat} (h : Bound P least tree) {less : Nat} (hless : less ≤ least) :
    Bound P less tree :=
  h.imp_right hless.trans

/-- How tightly binds what the levels read: as their loosest operator, or as a sign where there are none. -/
def floor : List Level → Nat
  | [] => 7
  | level :: _ => level.rank

theorem bound_join {level : Level} {left right : Expr} {operator : Token} (hleft : Bound P level.rank left)
    (hoperator : P operator) (hhas : level.has operator.kind = true) (hright : Bound P (level.rank + 1) right) :
    Bound P level.rank (level.join left operator right) := by
  have hrank := Level.rank_of_has hhas
  have hlogical (hkind : operator.kind = .orWord ∨ operator.kind = .andWord) :
      Bound P level.rank (.logical left operator right) := by
    refine ⟨.logical hleft.1 hoperator hkind hright.1 ?_ ?_, Nat.le_of_eq hrank.symm⟩
    · rw [hrank]
      exact hleft.2
    · rw [hrank]
      exact hright.2
  have hbinary (hlevel : level ≠ .disjunction ∧ level ≠ .conjunction) :
      Bound P level.rank (.binary left operator right) := by
    refine ⟨.binary hleft.1 ⟨hoperator, Level.mem_operators_of_has hhas hlevel⟩ hright.1 ?_ ?_,
      Nat.le_of_eq hrank.symm⟩
    · rw [hrank]
      exact hleft.2
    · rw [hrank]
      exact hright.2
  have hkind (hword : level = .disjunction ∨ level = .conjunction) :
      operator.kind = .orWord ∨ operator.kind = .andWord := by
    revert hhas hword
    cases level <;> cases operator.kind <;> decide
  cases level with
  | disjunction => exact hlogical (hkind (.inl rfl))
  | conjunction => exact hlogical (hkind (.inr rfl))
  | equality | comparison | sum | product => exact hbinary ⟨nofun, nofun⟩

theorem draws_operation {level : Level} {operand : Parser Expr}
    (hoperand : Draws P operand (Bound P (level.rank + 1))) {left : Expr} (hleft : Bound P level.rank left) :
    Draws P (operation level operand left) (Turn.Makes (Bound P level.rank)) := by
  refine (draws_accept _).bind fun mark hmark => ?_
  cases mark with
  | none => exact draws_pure hleft
  | some operator =>
      obtain ⟨hoperator, hhas⟩ := hmark operator rfl
      exact hoperand.bind fun right hright => draws_pure (bound_join hleft hoperator hhas hright)

theorem draws_chains {operand : Parser Expr} (hoperand : Draws P operand (Bound P 7)) (turns : Nat)
    {levels : List Level} (hlevels : levels <:+ Level.all) :
    Draws P (chains operand turns levels) (Bound P (floor levels)) := by
  have htighter : ∀ levels ∈ Level.all.tails, ∀ level ∈ levels.head?, floor levels.tail = level.rank + 1 := by decide
  induction levels with
  | nil => exact hoperand
  | cons level tighter ih =>
      have hfloor : floor tighter = level.rank + 1 :=
        htighter (level :: tighter) ((List.mem_tails _ _).mpr hlevels) level rfl
      have hoperand := ih ((List.suffix_cons level tighter).trans hlevels)
      rw [hfloor] at hoperand
      exact hoperand.bind fun left hleft =>
        draws_iterate (fun left hleft => draws_operation hoperand hleft) turns (hleft.loosen (Nat.le_succ _))

section Parts

variable {expression : Parser Expr} (hexpression : Draws P expression (Expr.Formed P))

include hexpression

theorem draws_primary : Draws P (primary expression) (Bound P 9) := by
  have hgroup : Draws P (primary.group expression) (Bound P 9) :=
    hexpression.bind fun inner hinner =>
      (draws_expect _ _).bind fun _ _ => draws_pure ⟨.grouping hinner, Nat.le_refl 9⟩
  intro tokens htokens
  unfold primary
  split
  · exact htokens
  · next token rest hnext =>
      obtain ⟨htoken, hrest⟩ := htokens.next hnext
      split
      case h_1 => exact ⟨⟨.truth false, Nat.le_refl 9⟩, hrest⟩
      case h_2 => exact ⟨⟨.truth true, Nat.le_refl 9⟩, hrest⟩
      case h_3 => exact ⟨⟨.nil, Nat.le_refl 9⟩, hrest⟩
      case h_4 hkind => exact ⟨⟨.constant htoken (.inl hkind), Nat.le_refl 9⟩, hrest⟩
      case h_5 hkind => exact ⟨⟨.constant htoken (.inr hkind), Nat.le_refl 9⟩, hrest⟩
      case h_6 hkind => exact ⟨⟨.variable ⟨htoken, hkind⟩, Nat.le_refl 9⟩, hrest⟩
      case h_7 hkind => exact ⟨⟨.this ⟨htoken, hkind⟩, Nat.le_refl 9⟩, hrest⟩
      case h_8 => exact hgroup rest hrest
      case h_9 => exact htokens

theorem draws_suffix (turns : Nat) {callee : Expr} (hcallee : Bound P 8 callee) :
    Draws P (suffix expression turns callee) (Turn.Makes (Bound P 8)) := by
  refine (draws_accept _).bind fun mark _ => ?_
  cases mark with
  | none => exact draws_pure hcallee
  | some mark =>
      simp only
      split
      · exact (draws_expect _ _).bind fun name hname => draws_pure ⟨.get hcallee.1 hname hcallee.2, Nat.le_refl 8⟩
      · refine (draws_entries hexpression _ turns).bind fun arguments harguments => ?_
        refine (draws_expect _ _).bind fun paren hparen => draws_pure ⟨?_, Nat.le_refl 8⟩
        exact .call hcallee.1 hparen harguments hcallee.2

theorem draws_call (turns : Nat) : Draws P (call expression turns) (Bound P 8) :=
  (draws_primary hexpression).bind fun _ hcallee =>
    draws_iterate (fun _ hcallee => draws_suffix hexpression turns hcallee) turns (hcallee.loosen (by decide))

end Parts

theorem draws_signed {operand call : Parser Expr} (hoperand : Draws P operand (Bound P 7))
    (hcall : Draws P call (Bound P 8)) : Draws P (signed operand call) (Bound P 7) := by
  refine (draws_accept _).bind fun mark hmark => ?_
  cases mark with
  | none => exact hcall.mono fun tree htree => htree.loosen (by decide)
  | some operator =>
      obtain ⟨hoperator, hkind⟩ := hmark operator rfl
      have hsign : Use.sign.Fits operator.kind := by simpa [Use.Fits] using hkind
      exact hoperand.bind fun right hright =>
        draws_pure ⟨.unary ⟨hoperator, hsign⟩ hright.1 hright.2, Nat.le_refl 7⟩

theorem draws_assignment {target value : Parser Expr} (htarget : Draws P target (Bound P 1))
    (hvalue : Draws P value (Expr.Formed P)) : Draws P (assignment target value) (Expr.Formed P) := by
  refine htarget.bind fun target htarget => draws_unread.bind fun equals _ => (draws_accept _).bind fun mark _ => ?_
  cases mark with
  | none => exact draws_pure htarget.1
  | some mark =>
      refine hvalue.bind fun value hvalue => ?_
      split
      · cases htarget.1 with
        | «variable» hname => exact draws_pure (.assign hname hvalue)
      · cases htarget.1 with
        | get hobject hname htight => exact draws_pure (.set hobject hname hvalue htight)
      · exact (draws_report equals _).bind fun _ _ => draws_pure htarget.1

theorem draws_expression_unary (level : Nat) :
    Draws P (expression level) (Expr.Formed P) ∧ Draws P (unary level) (Bound P 7) := by
  induction level with
  | zero => exact ⟨draws_exhausted, draws_exhausted⟩
  | succ level ih =>
      obtain ⟨hexpression, hunary⟩ := ih
      exact ⟨draws_assignment (draws_chains hunary level List.suffix_rfl) hexpression,
        draws_signed hunary (draws_call hexpression level)⟩

theorem draws_expression (level : Nat) : Draws P (expression level) (Expr.Formed P) :=
  (draws_expression_unary level).1

/-! ### Statements -/

/-- A well formed statement that is no declaration. -/
def Plain (P : Token → Prop) (statement : Stmt) : Prop :=
  statement.Formed P ∧ statement.defines = none

/-- Of what stands for a `for` statement, only the condition may be without tokens. -/
theorem plain_desugared {clauses : ForClauses} (hinitializer : ∀ first ∈ clauses.initializer, first.Formed P)
    (hcondition : ∀ condition ∈ clauses.condition, condition.Formed P)
    (hincrement : ∀ increment ∈ clauses.increment, increment.Formed P) (hbody : Plain P clauses.body) :
    Plain P clauses.desugared := by
  have htest : (clauses.condition.getD (.literal (.bool true))).Formed P := by
    cases hclause : clauses.condition with
    | none => exact .truth true
    | some condition => exact hcondition condition hclause
  have hround : Plain P (clauses.body.withIncrement clauses.increment) := by
    unfold Stmt.withIncrement
    split
    · exact hbody
    · next increment hclause =>
        have hlast : (Stmt.expression increment).Formed P := .expression (hincrement increment hclause)
        exact ⟨.block (List.forall_mem_cons.mpr ⟨hbody.1, List.forall_mem_singleton.mpr hlast⟩), rfl⟩
  have hloop : Stmt.Formed P (.loop (clauses.condition.getD (.literal (.bool true)))
      (clauses.body.withIncrement clauses.increment)) :=
    .loop htest hround.1 hround.2
  unfold ForClauses.desugared Stmt.forLoop
  split
  · exact ⟨hloop, rfl⟩
  · next first hclause =>
      have hfirst := hinitializer first hclause
      exact ⟨.block (List.forall_mem_cons.mpr ⟨hfirst, List.forall_mem_singleton.mpr hloop⟩), rfl⟩

section Statements

variable {expression : Parser Expr} (hexpression : Draws P expression (Expr.Formed P))

include hexpression

theorem draws_condition (opening closing : Expected) :
    Draws P (condition expression opening closing) (Expr.Formed P) :=
  (draws_expect _ _).bind fun _ _ =>
    hexpression.bind fun _ htree => (draws_expect _ _).bind fun _ _ => draws_pure htree

theorem draws_expressionStatement : Draws P (expressionStatement expression) (Plain P) :=
  hexpression.bind fun _ htree => (draws_expect _ _).bind fun _ _ => draws_pure ⟨.expression htree, rfl⟩

theorem draws_varDeclaration : Draws P (varDeclaration expression) (Stmt.Formed P) := by
  refine (draws_expect _ _).bind fun name hname => (draws_accept _).bind fun mark _ => ?_
  cases mark with
  | some mark =>
      refine hexpression.bind fun value hvalue => (draws_expect _ _).bind fun _ _ => draws_pure (.var hname ?_)
      rintro _ ⟨⟩
      exact hvalue
  | none => exact (draws_expect _ _).bind fun _ _ => draws_pure (.var hname nofun)

theorem draws_initializer : Draws P (initializer expression) fun clause => ∀ first ∈ clause, first.Formed P := by
  have hsome {first : Stmt} (h : first.Formed P) : ∀ other ∈ some first, other.Formed P := by
    rintro _ ⟨⟩
    exact h
  refine (draws_accept _).bind fun mark _ => ?_
  cases mark with
  | none => exact (draws_expressionStatement hexpression).bind fun _ h => draws_pure (hsome h.1)
  | some mark =>
      simp only
      split
      · exact draws_pure nofun
      · exact (draws_varDeclaration hexpression).bind fun _ h => draws_pure (hsome h)

theorem draws_print : Draws P (print expression) (Plain P) :=
  hexpression.bind fun _ htree => (draws_expect _ _).bind fun _ _ => draws_pure ⟨.print htree, rfl⟩

theorem draws_returned {keyword : Token} (hkeyword : P keyword) (hkind : keyword.kind = .returnWord) :
    Draws P (returned expression keyword) (Plain P) :=
  (draws_unlessSees hexpression _).bind fun _ hvalue =>
    (draws_expect _ _).bind fun _ _ => draws_pure ⟨.return hkeyword hkind hvalue, rfl⟩

section Substatement

variable {statement : Parser Stmt} (hstatement : Draws P statement (Plain P))

include hstatement

theorem draws_conditional : Draws P (conditional expression statement) (Plain P) := by
  refine (draws_condition hexpression _ _).bind fun condition hcondition => hstatement.bind fun whenTrue htrue => ?_
  refine (draws_accept _).bind fun mark _ => ?_
  cases mark with
  | none => exact draws_pure ⟨.conditional hcondition htrue.1 htrue.2 nofun nofun, rfl⟩
  | some mark =>
      refine hstatement.bind fun whenFalse hfalse => draws_pure ⟨.conditional hcondition htrue.1 htrue.2 ?_ ?_, rfl⟩
      · rintro _ ⟨⟩
        exact hfalse.1
      · rintro _ ⟨⟩
        exact hfalse.2

theorem draws_loop : Draws P (loop expression statement) (Plain P) :=
  (draws_condition hexpression _ _).bind fun _ hcondition =>
    hstatement.bind fun _ hbody => draws_pure ⟨.loop hcondition hbody.1 hbody.2, rfl⟩

theorem draws_forLoop : Draws P (forLoop expression statement) (Plain P) := by
  rw [forLoop_eq]
  have hclauses : Draws P (forClauses expression statement) fun clauses => Plain P clauses.desugared := by
    refine (draws_expect _ _).bind fun _ _ => (draws_initializer hexpression).bind fun first hfirst => ?_
    refine (draws_unlessSees hexpression _).bind fun test htest => (draws_expect _ _).bind fun _ _ => ?_
    refine (draws_unlessSees hexpression _).bind fun step hstep => (draws_expect _ _).bind fun _ _ => ?_
    exact hstatement.bind fun body hbody => draws_pure (plain_desugared hfirst htest hstep hbody)
  exact hclauses.map fun _ => id

end Substatement

end Statements

section Declarations

variable {block : Parser (List Stmt)} (hblock : Draws P block fun statements => ∀ inner ∈ statements, inner.Formed P)

include hblock

theorem draws_function (role : Role) (turns : Nat) : Draws P (function role block turns) fun declaration =>
    declaration.Named P ∧ ∀ inner ∈ declaration.body, inner.Formed P := by
  refine (draws_expect _ _).bind fun name hname => (draws_expect _ _).bind fun _ _ => ?_
  refine (draws_entries (draws_expect _ _) _ turns).bind fun params hparams => ?_
  refine (draws_expect _ _).bind fun _ _ => (draws_expect _ _).bind fun _ _ => ?_
  exact hblock.bind fun body hbody => draws_pure ⟨⟨hname, hparams⟩, hbody⟩

theorem draws_classDeclaration (turns : Nat) : Draws P (classDeclaration block turns) (Stmt.Formed P) := by
  refine (draws_expect _ _).bind fun name hname => (draws_expect _ _).bind fun _ _ => ?_
  have hmethods : Draws P (iterate (method block turns) turns #[]) fun methods =>
      ∀ declaration ∈ methods.toList, declaration.Named P ∧ ∀ inner ∈ declaration.body, inner.Formed P := by
    rw [method_eq_collecting]
    refine draws_collecting ((draws_function hblock .method turns).mono fun declaration h => ?_) closes turns
    rintro _ ⟨⟩
    exact h
  refine hmethods.bind fun methods hmethods => (draws_expect _ _).bind fun _ _ => draws_pure ?_
  exact .classDecl hname (fun method hmem => (hmethods method hmem).1) fun method hmem => (hmethods method hmem).2

variable {expression : Parser Expr} (hexpression : Draws P expression (Expr.Formed P)) {statement : Parser Stmt}
  (hstatement : Draws P statement (Plain P))

include hexpression hstatement

theorem draws_statementOf : Draws P (statementOf expression statement block) (Plain P) := by
  intro tokens htokens
  unfold statementOf
  split
  · exact draws_expressionStatement hexpression tokens htokens
  · next token rest hnext =>
      obtain ⟨htoken, hrest⟩ := htokens.next hnext
      split
      · exact draws_conditional hexpression hstatement rest hrest
      · exact draws_loop hexpression hstatement rest hrest
      · exact draws_forLoop hexpression hstatement rest hrest
      · exact draws_print hexpression rest hrest
      · next hkind => exact draws_returned hexpression htoken hkind rest hrest
      · exact hblock.map (q := Plain P) (fun _ h => ⟨.block h, rfl⟩) rest hrest
      · exact draws_expressionStatement hexpression tokens htokens

theorem draws_declarationOf (turns : Nat) :
    Draws P (declarationOf expression statement block turns) (Stmt.Formed P) := by
  have hplain : Draws P statement (Stmt.Formed P) := hstatement.mono fun _ => And.left
  intro tokens htokens
  unfold declarationOf
  split
  · exact hplain tokens htokens
  · next token rest hnext =>
      have hrest := (htokens.next hnext).2
      split
      · exact draws_classDeclaration hblock turns rest hrest
      · have hfunction := draws_function hblock .function turns
        exact hfunction.map (q := Stmt.Formed P) (fun _ h => .function h.1 h.2) rest hrest
      · exact draws_varDeclaration hexpression rest hrest
      · exact hplain tokens htokens

end Declarations

/-- After an error there is no value, and the tokens to go on with are some of those that were left. -/
theorem draws_recovering {parser : Parser α} (h : Draws P parser p) :
    Draws P (recovering parser) fun value => ∀ inner ∈ value, p inner := by
  intro tokens htokens
  have hread := h tokens htokens
  unfold recovering
  cases hparse : parser tokens with
  | done value unread reports =>
      rw [hparse] at hread
      refine ⟨?_, hread.2⟩
      rintro _ ⟨⟩
      exact hread.1
  | failed unread reports cause =>
      rw [hparse] at hread
      exact ⟨nofun, From.passes hread (passes_recover unread)⟩
  | exhausted => trivial

theorem draws_statement_declaration (level : Nat) : Draws P (statement level) (Plain P) ∧
    Draws P (declaration level) fun tree => ∀ statement ∈ tree, statement.Formed P := by
  induction level with
  | zero => exact ⟨draws_exhausted, draws_exhausted⟩
  | succ level ih =>
      obtain ⟨hstatement, hdeclaration⟩ := ih
      have hblock : Draws P (block (declaration level) level) fun statements =>
          ∀ inner ∈ statements, inner.Formed P := by
        unfold block
        rw [member_eq_collecting]
        exact (draws_collecting hdeclaration closes level).bind fun _ hitems =>
          (draws_expect _ _).bind fun _ _ => draws_pure hitems
      exact ⟨draws_statementOf hblock (draws_expression level) hstatement,
        draws_recovering (draws_declarationOf hblock (draws_expression level) hstatement level)⟩

theorem draws_program (level : Nat) :
    Draws P (program level) fun statements => ∀ statement ∈ statements, statement.Formed P := by
  unfold program
  rw [topLevel_eq_collecting]
  exact (draws_collecting (draws_statement_declaration level).2 atEnd level).bind fun _ hitems => draws_pure hitems

theorem Draws.value? {parser : Parser α} (h : Draws P parser p) {tokens : List Token} (htokens : From P tokens) :
    ∀ value ∈ (parser tokens).value?, p value := by
  have hread := h tokens htokens
  cases hparse : parser tokens with
  | done value unread reports =>
      rw [hparse] at hread
      rintro _ ⟨⟩
      exact hread.1
  | failed | exhausted => nofun

end Parser

/-! ### Lists of tokens and sources -/

section Lists

open Script.Parser

variable (tokens : List Token)

/-- The statements that the parser gives are well formed, also of a list with errors. -/
theorem parseProgram_formed : ∀ statement ∈ (parseProgram tokens).tree, statement.Formed (· ∈ upToEnd tokens) := by
  have hvalue := (draws_program (levels tokens)).value? (P := (· ∈ upToEnd tokens)) fun _ => id
  change ∀ statement ∈ ((program (levels tokens) tokens).value?).getD [], _
  cases hread : (program (levels tokens) tokens).value? with
  | none => nofun
  | some statements => exact hvalue statements hread

theorem parseExpression_formed : ∀ tree ∈ (parseExpression tokens).tree, tree.Formed (· ∈ upToEnd tokens) :=
  (draws_expression (levels tokens)).value? fun _ => id

/-- Every tree that the parser gives is well formed and made of tokens before the end of the list, whatever errors
there are in it. -/
theorem trees_areFormed :
    (∀ statement ∈ (parseProgram tokens).tree, statement.Formed (· ∈ upToEnd tokens)) ∧
      ∀ tree ∈ (parseExpression tokens).tree, tree.Formed (· ∈ upToEnd tokens) :=
  ⟨parseProgram_formed tokens, parseExpression_formed tokens⟩

end Lists

/-- A loop whose body assigns to a sum, before a brace that closes nothing. -/
def misplacedSum : List Token :=
  [{ kind := .whileWord, lexeme := "while", literal := .none, line := 1 },
    { kind := .leftParen, lexeme := "(", literal := .none, line := 1 },
    { kind := .identifier, lexeme := "a", literal := .identifier "a", line := 1 },
    { kind := .rightParen, lexeme := ")", literal := .none, line := 1 },
    { kind := .identifier, lexeme := "b", literal := .identifier "b", line := 2 },
    { kind := .plus, lexeme := "+", literal := .none, line := 2 },
    { kind := .identifier, lexeme := "c", literal := .identifier "c", line := 2 },
    { kind := .equal, lexeme := "=", literal := .none, line := 2 },
    { kind := .identifier, lexeme := "d", literal := .identifier "d", line := 2 },
    { kind := .semicolon, lexeme := ";", literal := .none, line := 2 },
    { kind := .rightBrace, lexeme := "\x7d", literal := .none, line := 3 }, .closing 3]

/-- The loop is kept with the sum as its body, and both errors are reported. -/
theorem trees_areFormed_despite_errors :
    (parseProgram misplacedSum).diagnostics.map Diagnostic.line = [2, 3] ∧
      ∃ condition left operator right, (parseProgram misplacedSum).tree =
          [.loop condition (.expression (.binary left operator right))] ∧
        Stmt.Formed (· ∈ Parser.upToEnd misplacedSum)
          (.loop condition (.expression (.binary left operator right))) := by
  refine ⟨by rfl, _, _, _, _, rfl, ?_⟩
  exact (trees_areFormed misplacedSum).1 _ (List.mem_singleton_self _)

/-- The statements of the tree that the parser makes of the tokens. -/
def programOf (tokens : List Token) : Set Task :=
  {task | ∃ statement ∈ (parseProgram tokens).tree, task = .exec statement}

/-- A parsed statement that is no declaration has none in a branch or as the body of a loop. -/
theorem Occurs.definesNothing {tokens : List Token} {layers : List Layer} {statement : Stmt}
    (h : Occurs (programOf tokens) layers (.exec statement)) (hdefines : statement.defines = none) :
    statement.definesNothing = true := by
  have hformed : Task.Formed (· ∈ Parser.upToEnd tokens) (.exec statement) := by
    refine h.formed ?_
    rintro _ ⟨whole, hwhole, rfl⟩
    exact parseProgram_formed tokens whole hwhole
  exact Stmt.Formed.definesNothing hformed hdefines

/-- All that there is anywhere in what a session is asked to do is well formed. -/
theorem Request.formed {request : Request} {layers : List Layer} {task : Task}
    (h : Occurs {task | task ∈ request.tasks} layers task) :
    task.Formed (· ∈ Parser.upToEnd (scan request.source).tokens) := by
  refine h.formed fun task htask => ?_
  cases request with
  | run source =>
      change task ∈ tasks _ at htask
      unfold tasks at htask
      dsimp only at htask
      split at htask
      · cases htask
      · obtain ⟨statement, hstatement, rfl⟩ := List.mem_map.mp htask
        exact parseProgram_formed _ statement hstatement
  | evaluate source =>
      change task ∈ tasks _ at htask
      unfold tasks at htask
      dsimp only at htask
      split at htask
      · cases htask
      · obtain ⟨tree, htree, rfl⟩ := List.mem_map.mp htask
        exact parseExpression_formed _ tree (Option.mem_toList.mp htree)

end Script
