import Script.Parser.Program
import Script.Proofs.Levels
import Script.Proofs.Alike.Operations

/-!
# The direct loop

A `for` statement as it is written: its clauses, and the loop that they say. The parser gives a statement of other
kinds for it, made from these clauses.
-/

namespace Script

structure ForClauses where
  initializer : Option Stmt
  condition : Option Expr
  increment : Option Expr
  body : Stmt

/-- The statement that stands for the clauses. -/
def ForClauses.desugared (clauses : ForClauses) : Stmt :=
  .forLoop clauses.initializer clauses.condition clauses.increment clauses.body

/-! ### Reading the clauses -/

theorem Parse.exists_of_value? {α : Type} {parse : Parse α} {value : α} (h : parse.value? = some value) :
    ∃ unread reports, parse = .done value unread reports := by
  cases parse with
  | done value' unread reports => exact ⟨unread, reports, by rw [Option.some.inj h]⟩
  | failed | exhausted => cases h

namespace Parser

/-- The clauses of a `for` statement, from its opening on. -/
def forClauses (expression : Parser Expr) (statement : Parser Stmt) : Parser ForClauses := do
  let _ ← expect .leftParen .forOpening
  let initializer ← initializer expression
  let condition ← unlessSees .semicolon expression
  let _ ← expect .semicolon .forConditionEnd
  let increment ← unlessSees .rightParen expression
  let _ ← expect .rightParen .forClosing
  return { initializer, condition, increment, body := ← statement }

/-- A `for` statement that begins with the next token. -/
def forStatement : Nat → Parser ForClauses
  | 0 => exhausted
  | level + 1 => do
    let _ ← accept (· == .forWord)
    forClauses (expression level) (statement level)

theorem exists_of_map {α β : Type} {f : α → β} {parser : Parser α} {tokens unread : List Token} {value : β}
    {reports : List Report} (h : (f <$> parser) tokens = .done value unread reports) :
    ∃ first, parser tokens = .done first unread reports ∧ value = f first := by
  rw [map_eq_pure_bind, bind_apply] at h
  cases hfirst : parser tokens with
  | done first rest earlier =>
      simp only [hfirst, pure_apply, Parse.after_done, List.append_nil, Parse.done.injEq] at h
      obtain ⟨rfl, rfl, rfl⟩ := h
      exact ⟨first, rfl, rfl⟩
  | failed | exhausted => simp [hfirst] at h

theorem forLoop_eq (expression : Parser Expr) (statement : Parser Stmt) :
    forLoop expression statement = ForClauses.desugared <$> forClauses expression statement := by
  simp only [forLoop, forClauses, ForClauses.desugared, map_eq_pure_bind, bind_assoc, pure_bind]

/-- Where a `for` statement begins, the parser gives what stands for its clauses. -/
theorem statement_eq_forStatement {tokens : List Token} (hfor : sees .forWord tokens = true) (level : Nat) :
    statement level tokens = (ForClauses.desugared <$> forStatement level) tokens := by
  cases level with
  | zero => rfl
  | succ level =>
      obtain ⟨⟨token, rest⟩, hnext, hkind⟩ := (Option.any_eq_true _ _).mp hfor
      have hkind : token.kind = .forWord := beq_iff_eq.mp hkind
      have hmark : accept (· == .forWord) tokens = .done (some token) rest [] := by
        simp [accept, hnext, hkind]
      have hread : forStatement (level + 1) tokens = forClauses (expression level) (statement level) rest := by
        rw [forStatement, bind_apply, hmark]
        exact Parse.after_nil _
      rw [map_eq_pure_bind, bind_apply, hread, ← bind_apply, ← map_eq_pure_bind, ← forLoop_eq]
      simp [statement, statementOf, hnext, hkind]

end Parser

/-! ### What a statement cannot be -/

/-- Whatever the parser reads is such. -/
def Parser.Gives {α : Type} (parser : Parser α) (p : α → Prop) : Prop :=
  ∀ tokens value unread reports, parser tokens = .done value unread reports → p value

namespace Parser

variable {α β : Type} {p : α → Prop} {q : β → Prop}

theorem gives_any (parser : Parser α) : parser.Gives fun _ => True :=
  fun _ _ _ _ _ => trivial

theorem gives_exhausted : (exhausted : Parser α).Gives p :=
  fun _ _ _ _ h => nomatch h

theorem gives_pure {value : α} (hvalue : p value) : (pure value : Parser α).Gives p := by
  intro tokens _ unread reports h
  cases h
  exact hvalue

theorem Gives.bind {parser : Parser α} {next : α → Parser β} (hparser : parser.Gives p)
    (hnext : ∀ value, p value → (next value).Gives q) : (parser >>= next).Gives q := by
  intro tokens last unread reports h
  rw [bind_apply] at h
  cases hfirst : parser tokens with
  | done value rest earlier =>
      rw [hfirst] at h
      cases hlast : next value rest with
      | done last' unread' reports' =>
          simp only [hlast, Parse.after_done, Parse.done.injEq] at h
          obtain ⟨rfl, rfl, -⟩ := h
          exact hnext value (hparser _ _ _ _ hfirst) _ _ _ _ hlast
      | failed | exhausted => simp [hlast, Parse.after] at h
  | failed | exhausted => simp [hfirst] at h

theorem Gives.map {parser : Parser α} (h : parser.Gives p) {f : α → β} (hf : ∀ value, p value → q (f value)) :
    (f <$> parser).Gives q := by
  rw [map_eq_pure_bind]
  exact h.bind fun value hvalue => gives_pure (hf value hvalue)

section Statements

variable {expression : Parser Expr} {statement : Parser Stmt}
  (hstatement : statement.Gives (·.definesNothing = true))

theorem gives_expressionStatement : (expressionStatement expression).Gives (·.definesNothing = true) :=
  (gives_any _).bind fun _ _ => (gives_any _).bind fun _ _ => gives_pure rfl

theorem gives_print : (print expression).Gives (·.definesNothing = true) :=
  (gives_any _).bind fun _ _ => (gives_any _).bind fun _ _ => gives_pure rfl

theorem gives_returned (keyword : Token) : (returned expression keyword).Gives (·.definesNothing = true) :=
  (gives_any _).bind fun _ _ => (gives_any _).bind fun _ _ => gives_pure rfl

theorem gives_block (block : Parser (List Stmt)) : (Stmt.block <$> block).Gives (·.definesNothing = true) :=
  (gives_any _).map fun _ _ => rfl

include hstatement

theorem gives_conditional : (conditional expression statement).Gives (·.definesNothing = true) := by
  refine (gives_any _).bind fun condition _ => hstatement.bind fun whenTrue htrue => ?_
  refine (gives_any _).bind fun mark _ => ?_
  cases mark with
  | none => exact gives_pure htrue
  | some mark =>
      refine hstatement.bind fun whenFalse hfalse => gives_pure ?_
      exact Bool.and_eq_true_iff.mpr ⟨htrue, hfalse⟩

theorem gives_loop : (loop expression statement).Gives (·.definesNothing = true) :=
  (gives_any _).bind fun _ _ => hstatement.bind fun _ hbody => gives_pure hbody

theorem gives_forClauses : (forClauses expression statement).Gives (·.body.definesNothing = true) := by
  refine (gives_any _).bind fun _ _ => (gives_any _).bind fun _ _ => (gives_any _).bind fun _ _ => ?_
  refine (gives_any _).bind fun _ _ => (gives_any _).bind fun _ _ => (gives_any _).bind fun _ _ => ?_
  exact hstatement.bind fun _ hbody => gives_pure hbody

theorem gives_forLoop : (forLoop expression statement).Gives (·.definesNothing = true) := by
  rw [forLoop_eq]
  refine (gives_forClauses hstatement).map fun clauses hbody => ?_
  obtain ⟨initializer, condition, increment, body⟩ := clauses
  cases initializer with
  | some => rfl
  | none =>
      cases increment with
      | none => exact hbody
      | some => rfl

theorem gives_statementOf (block : Parser (List Stmt)) :
    (statementOf expression statement block).Gives (·.definesNothing = true) := by
  intro tokens tree unread reports h
  unfold statementOf at h
  split at h
  · exact gives_expressionStatement _ _ _ _ h
  · next token rest _ =>
      split at h
      · exact gives_conditional hstatement _ _ _ _ h
      · exact gives_loop hstatement _ _ _ _ h
      · exact gives_forLoop hstatement _ _ _ _ h
      · exact gives_print _ _ _ _ h
      · exact gives_returned token _ _ _ _ h
      · exact gives_block block _ _ _ _ h
      · exact gives_expressionStatement _ _ _ _ h

end Statements

/-- A statement is no declaration. -/
theorem gives_statement (level : Nat) : (statement level).Gives (·.definesNothing = true) := by
  induction level with
  | zero => exact gives_exhausted
  | succ level ih => exact gives_statementOf ih _

theorem gives_forStatement (level : Nat) : (forStatement level).Gives (·.body.definesNothing = true) := by
  cases level with
  | zero => exact gives_exhausted
  | succ level => exact (gives_any _).bind fun _ _ => gives_forClauses (gives_statement level)

end Parser

/-! ### The loop that the clauses say -/

namespace Eval

/-- Executes the body and then takes the step as long as the condition is true, at most as many times as given.
What returns or fails leaves the loop at once. -/
def repeatFor (condition : Eval Value) (body : Eval Flow) (step : Eval Unit) : Nat → Eval Flow
  | 0 => exhausted
  | turns + 1 => do
    if (← condition).truthy then
      match ← body with
      | .next =>
        step
        repeatFor condition body step turns
      | .returned value => return .returned value
    else
      return .next

/-- In a new scope, the first computation and then the rest, unless the first one returns. -/
def inNewScope (first rest : Eval Flow) : Eval Flow :=
  entered Machine.enterBlock do
    match ← first with
    | .next => rest
    | .returned value => return .returned value

end Eval

namespace ForClauses

variable (clauses : ForClauses)

/-- A missing condition is true. -/
def test (eval : Expr → Eval Value) : Eval Value :=
  match clauses.condition with
  | some condition => eval condition
  | none => return .bool true

def step (eval : Expr → Eval Value) : Eval Unit :=
  match clauses.increment with
  | some increment => do
    let _ ← eval increment
    return ()
  | none => return ()

def loop (level : Nat) : Eval Flow :=
  Eval.repeatFor (clauses.test (eval level)) (Script.exec level clauses.body) (clauses.step (eval level)) level

/-- One new scope for the initializer, if there is one, and the loop in it. -/
def exec (level : Nat) : Eval Flow :=
  match clauses.initializer with
  | some initializer => Eval.inNewScope (Script.exec level initializer) (clauses.loop level)
  | none => clauses.loop level

end ForClauses

/-! ### Levels of the direct loop -/

namespace Eval

/-- The body and then the step, unless the body returns. -/
def followedBy (body : Eval Flow) (step : Eval Unit) : Eval Flow := do
  match ← body with
  | .next =>
    step
    return .next
  | .returned value => return .returned value

/-- A turn of the loop is its body with the step. -/
theorem repeatFor_eq (condition : Eval Value) (body : Eval Flow) (step : Eval Unit) (turns : Nat) :
    repeatFor condition body step turns = repeatWhile condition (body.followedBy step) turns := by
  induction turns with
  | zero => rfl
  | succ turns ih =>
      rw [repeatFor, repeatWhile, ih]
      congr 1
      funext value
      split
      · rw [followedBy, bind_assoc]
        congr 1
        funext flow
        cases flow with
        | next => simp only [bind_assoc, pure_bind]
        | returned => rfl
      · rfl

theorem followedBy_pure (body : Eval Flow) : body.followedBy (pure ()) = body := by
  have hsame : body.followedBy (pure ()) = body >>= pure := by
    unfold followedBy
    congr 1
    funext flow
    cases flow <;> rfl
  rw [hsame, bind_pure]

theorem below_followedBy {body body' : Eval Flow} {step step' : Eval Unit} (hbody : Below body body')
    (hstep : Below step step') : Below (body.followedBy step) (body'.followedBy step') := by
  refine below_bind hbody fun flow => ?_
  cases flow with
  | next => exact below_bind hstep fun _ => .refl _
  | returned => exact .refl _

theorem below_repeatFor {condition condition' : Eval Value} {body body' : Eval Flow} {step step' : Eval Unit}
    {turns turns' : Nat} (hcondition : Below condition condition') (hbody : Below body body')
    (hstep : Below step step') (hle : turns ≤ turns') :
    Below (repeatFor condition body step turns) (repeatFor condition' body' step' turns') := by
  rw [repeatFor_eq, repeatFor_eq]
  exact below_repeatWhile hcondition (below_followedBy hbody hstep) hle

theorem below_inNewScope {first first' rest rest' : Eval Flow} (hfirst : Below first first')
    (hrest : Below rest rest') : Below (inNewScope first rest) (inNewScope first' rest') := by
  refine below_mapMachine (below_bind hfirst fun flow => ?_) Machine.enterBlock
    fun machine last => { last with environment := machine.environment }
  cases flow with
  | next => exact hrest
  | returned => exact .refl _

end Eval

namespace ForClauses

open Eval

variable (clauses : ForClauses) {level level' : Nat}

theorem below_test (hle : level ≤ level') : Below (clauses.test (eval level)) (clauses.test (eval level')) := by
  unfold test
  cases clauses.condition with
  | none => exact .refl _
  | some condition => exact below_eval hle condition

theorem below_step (hle : level ≤ level') : Below (clauses.step (eval level)) (clauses.step (eval level')) := by
  unfold step
  cases clauses.increment with
  | none => exact .refl _
  | some increment => exact below_bind (below_eval hle increment) fun _ => .refl _

/-- The parts of the loop may have levels of their own. -/
theorem below_parts {tests tests' bodies bodies' steps steps' turns turns' : Nat} (htests : tests ≤ tests')
    (hbodies : bodies ≤ bodies') (hsteps : steps ≤ steps') (hturns : turns ≤ turns') :
    Below
      (repeatFor (clauses.test (eval tests)) (Script.exec bodies clauses.body) (clauses.step (eval steps)) turns)
      (repeatFor (clauses.test (eval tests')) (Script.exec bodies' clauses.body) (clauses.step (eval steps'))
        turns') :=
  below_repeatFor (clauses.below_test htests) (Script.below_exec hbodies clauses.body) (clauses.below_step hsteps)
    hturns

theorem below_loop (hle : level ≤ level') : Below (clauses.loop level) (clauses.loop level') :=
  clauses.below_parts hle hle hle hle

theorem below_exec (hle : level ≤ level') : Below (clauses.exec level) (clauses.exec level') := by
  unfold exec
  cases clauses.initializer with
  | none => exact clauses.below_loop hle
  | some initializer => exact below_inNewScope (Script.below_exec hle initializer) (clauses.below_loop hle)

end ForClauses

end Script
