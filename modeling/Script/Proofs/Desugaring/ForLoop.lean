import Script.Proofs.Desugaring.Direct
import Script.Proofs.Desugaring.Hollow
import Script.Proofs.Desugaring.Since

/-!
# `for` statements mean what they say

The statement that the parser gives for a `for` statement does what the loop of its clauses does. It opens one
scope more in each turn, around the body and the increment, which stays empty: the functions that are made in the
body keep it, but no program can tell.
-/

namespace Script

open Eval

variable {count : Nat} {environment : Environment}

/-! ### Turns of a loop -/

/-- Loops go side by side if their conditions and their bodies do. -/
theorem Eval.alikeSince_repeatWhile {condition condition' : Eval Value} {body body' : Eval Flow}
    (hcondition : AlikeSince count environment Value.Seen condition condition')
    (hbody : AlikeSince count environment Flow.Seen body body') (turns : Nat) :
    AlikeSince count environment Flow.Seen (repeatWhile condition body turns)
      (repeatWhile condition' body' turns) := by
  induction turns with
  | zero => exact fun _ _ _ _ => .exhausted
  | succ turns ih =>
      refine alikeSince_bind hcondition fun view value value' machine machine' hvalue hmachine => ?_
      rw [hvalue.truthy_eq]
      split
      · refine alikeSince_bind hbody (fun view flow flow' machine machine' hflow hmachine => ?_) view machine machine'
          hmachine
        cases hflow with
        | next => exact ih view machine machine' hmachine
        | returned hvalue => exact .done (.returned hvalue) hmachine
      · exact .done .next hmachine

section Turn

/-- Inside of the block, where its scope is not seen, the statements do what body and increment do without it. -/
theorem alike_turn {view : View} (hview : view.Since count) {inner : Environment} (hinner : inner.Seen view environment)
    {body : Stmt} (hbody : body.definesNothing = true) (increment : Expr) (level : Nat) :
    Alike view inner environment (Flow.Seen view) (Eval.sequence (exec (level + 1)) [body, .expression increment])
      ((exec (level + 1) body).followedBy do
        let _ ← eval level increment
        return ()) := by
  obtain ⟨heval, -⟩ := alike_eval_exec hview.faithful level
  obtain ⟨-, hexec⟩ := alike_eval_exec hview.faithful (level + 1)
  refine alike_bind (hexec _ _ _ _ hinner (.inl hbody) (hview.stmt body)) fun flow flow' hflow => ?_
  cases hflow with
  | returned hvalue => exact alike_pure (.returned hvalue)
  | next =>
      have hstep : exec (level + 1) (.expression increment) = (do
          let _ ← eval level increment
          return .next) := rfl
      simp only [sequence_singleton, hstep, bind_assoc, pure_bind]
      exact alike_bind (heval _ _ _ _ hinner (hview.expr increment)) fun _ _ _ => alike_pure .next

variable (hmade : environment.Made count)

include hmade

/-- The block around the body and the increment does what they do one after the other without a block: from its
beginning on, the scope of the block is hidden. -/
theorem alikeSince_turn {body : Stmt} (hbody : body.definesNothing = true) (increment : Expr) (level : Nat) :
    AlikeSince count environment Flow.Seen (exec (level + 2) (.block [body, .expression increment]))
      ((exec (level + 1) body).followedBy do
        let _ ← eval level increment
        return ()) := by
  intro view machine machine' hmachine
  have hview := hmachine.since.hide hmachine.le
  have hinner := (hmade.opened hmachine.since).seen.hide (hmade.mono hmachine.le)
  have hends := alike_turn hview hinner hbody increment level _ _ (hmachine.seen.hide hmachine.complete)
  have hblock : exec (level + 2) (.block [body, .expression increment]) machine =
      (Eval.sequence (exec (level + 1)) [body, .expression increment] machine.enterBlock).mapMachine
        ({ · with environment }) := by
    rw [← hmachine.seen.here]
    rfl
  rw [← Outcome.mapMachine_id (followedBy _ _ _)]
  refine Outcome.Seen.since (V := Flow.Seen) ?_ hview fun flow? after hafter => ?_
  · rw [hblock]
    exact hends.mapMachine fun last last' hlast => { hlast with here := rfl, store := hlast.store }
  · have hkeeps := scopeDiscipline.keeps_exec (level + 2) _ _ (.block [body, .expression increment])
      (hmade.mono hmachine.le)
    rw [← hmachine.seen.here] at hkeeps
    obtain ⟨hcomplete, hle⟩ := hkeeps.complete hmachine.complete hafter
    exact ⟨hcomplete, Nat.le_trans hmachine.le hle⟩

theorem ForClauses.alikeSince_test (clauses : ForClauses) (level : Nat) :
    AlikeSince count environment Value.Seen
      (eval (level + 1) (clauses.condition.getD (.literal (.bool true)))) (clauses.test (eval (level + 1))) := by
  unfold test
  cases clauses.condition with
  | none => exact alikeSince_pure fun _ => .bool true
  | some condition => exact alikeSince_eval hmade (level + 1) condition

/-- The `while` statement does what the loop does, on levels that are close together. -/
theorem ForClauses.exists_loop (clauses : ForClauses) (hbody : clauses.body.definesNothing = true) (level : Nat) :
    ∃ direct, AlikeSince count environment Flow.Seen
        (Script.exec (level + 3) (.loop (clauses.condition.getD (.literal (.bool true)))
          (clauses.body.withIncrement clauses.increment))) direct ∧
      Below (clauses.loop level) direct ∧ Below direct (clauses.loop (level + 3)) := by
  have htest := clauses.alikeSince_test hmade (level + 1)
  cases hincrement : clauses.increment with
  | none =>
      have hstep : clauses.step (eval level) = pure () := by
        simp only [step, hincrement]
      refine ⟨repeatFor (clauses.test (eval (level + 2))) (Script.exec (level + 2) clauses.body)
        (clauses.step (eval level)) (level + 2), ?_, ?_, ?_⟩
      · rw [repeatFor_eq, hstep, followedBy_pure]
        exact alikeSince_repeatWhile htest (alikeSince_exec hmade (level + 2) clauses.body) (level + 2)
      · exact clauses.below_parts (by omega) (by omega) (by omega) (by omega)
      · exact clauses.below_parts (by omega) (by omega) (by omega) (by omega)
  | some increment =>
      have hstep : clauses.step (eval level) = do
          let _ ← eval level increment
          return () := by
        simp only [step, hincrement]
      refine ⟨repeatFor (clauses.test (eval (level + 2))) (Script.exec (level + 1) clauses.body)
        (clauses.step (eval level)) (level + 2), ?_, ?_, ?_⟩
      · rw [repeatFor_eq, hstep]
        exact alikeSince_repeatWhile htest (alikeSince_turn hmade hbody increment level) (level + 2)
      · exact clauses.below_parts (by omega) (by omega) (by omega) (by omega)
      · exact clauses.below_parts (by omega) (by omega) (by omega) (by omega)

end Turn

/-! ### The whole statement -/

/-- From the same state, the statement does what the direct loop does, on levels that are close together. -/
theorem ForClauses.exists_direct (clauses : ForClauses) (hbody : clauses.body.definesNothing = true)
    {machine : Machine} (hmachine : machine.Complete) (level : Nat) :
    ∃ direct, (Script.exec (level + 5) clauses.desugared machine).SeenSince machine.store.scopes.size
        machine.environment Flow.Seen (direct machine) ∧
      Below (clauses.exec level) direct ∧ Below direct (clauses.exec (level + 5)) := by
  unfold ForClauses.exec
  cases hinitializer : clauses.initializer with
  | none =>
      obtain ⟨direct, halike, hbelow, habove⟩ := clauses.exists_loop hmachine.environment hbody (level + 2)
      have hleft : Script.exec (level + 5) clauses.desugared = Script.exec (level + 5)
          (.loop (clauses.condition.getD (.literal (.bool true))) (clauses.body.withIncrement clauses.increment)) := by
        rw [desugared, hinitializer]
        rfl
      rw [hleft]
      exact ⟨direct, halike _ _ _ hmachine.seenSince, .trans (clauses.below_loop (by omega)) hbelow, habove⟩
  | some initializer =>
      have hinside := hmachine.enterBlock
      obtain ⟨direct, halike, hbelow, habove⟩ := clauses.exists_loop hinside.environment hbody (level + 1)
      have hleft : Script.exec (level + 5) clauses.desugared =
          entered Machine.enterBlock (Eval.sequence (Script.exec (level + 4))
            [initializer, .loop (clauses.condition.getD (.literal (.bool true)))
              (clauses.body.withIncrement clauses.increment)]) := by
        rw [desugared, hinitializer]
        rfl
      rw [hleft]
      refine ⟨inNewScope (Script.exec (level + 4) initializer) direct, ?_,
        below_inNewScope (Script.below_exec (by omega) _) (.trans (clauses.below_loop (by omega)) hbelow),
        below_inNewScope (Script.below_exec (by omega) _) (.trans habove (clauses.below_loop (by omega)))⟩
      refine Outcome.SeenSince.leave (alikeSince_bind (alikeSince_exec hinside.environment (level + 4) initializer)
        ?_ _ _ _ hinside.seenSince) machine.le_size_enterBlock hmachine.environment
      intro view flow flow' machine machine' hflow hmachine
      cases hflow with
      | next =>
          rw [sequence_singleton]
          exact halike _ _ _ hmachine
      | returned hvalue => exact .done (.returned hvalue) hmachine

/-- What is known of the clauses of a `for` statement and of the statement that stands for them. -/
structure ForClauses.KeepsMeaning (clauses : ForClauses) : Prop where
  /-- With enough levels both come to an end, or neither does with any. -/
  ends_iff : ∀ machine : Machine, machine.Complete →
    ((∃ level, Script.exec level clauses.desugared machine ≠ .exhausted) ↔
      ∃ level, clauses.exec level machine ≠ .exhausted)
  /-- They end in the same way, with the same error if any, and the states are the same but for hidden scopes. -/
  same : ∀ (machine : Machine) (level level' : Nat), machine.Complete →
    Script.exec level clauses.desugared machine ≠ .exhausted → clauses.exec level' machine ≠ .exhausted →
      (Script.exec level clauses.desugared machine).SeenSince machine.store.scopes.size machine.environment Flow.Seen
        (clauses.exec level' machine)
  /-- Whenever body and increment are executed, the scope around them is empty all along. -/
  empty : clauses.increment.isSome = true → ∀ (moment : Moment) (machine : Machine),
    moment.task = .exec (clauses.body.withIncrement clauses.increment) → moment.Passes machine →
      machine.store.scope moment.machine.store.scopes.size = {}

theorem ForClauses.keepsMeaning (clauses : ForClauses) (hbody : clauses.body.definesNothing = true) :
    clauses.KeepsMeaning where
  ends_iff machine hmachine := by
    constructor
    · rintro ⟨level, hends⟩
      obtain ⟨direct, hsame, -, habove⟩ := clauses.exists_direct hbody hmachine level
      refine ⟨level + 5, ?_⟩
      rw [← Script.below_exec (Nat.le_add_right level 5) _ machine hends] at hends
      rw [habove machine (hsame.ends_iff.mp hends)]
      exact hsame.ends_iff.mp hends
    · rintro ⟨level, hends⟩
      obtain ⟨direct, hsame, hbelow, -⟩ := clauses.exists_direct hbody hmachine level
      refine ⟨level + 5, hsame.ends_iff.mpr ?_⟩
      rwa [hbelow machine hends]
  same machine level level' hmachine hends hends' := by
    obtain ⟨direct, hsame, hbelow, -⟩ := clauses.exists_direct hbody hmachine (max level level')
    have hdirect := clauses.below_exec (Nat.le_max_right level level') machine hends'
    rw [hbelow machine (by rwa [hdirect]), hdirect] at hsame
    have hlevel : level ≤ max level level' + 5 := Nat.le_trans (Nat.le_max_left _ _) (Nat.le_add_right _ _)
    rwa [Script.below_exec hlevel _ machine hends] at hsame
  empty hincrement moment machine htask hpasses := by
    obtain ⟨increment, hincrement⟩ := Option.isSome_iff_exists.mp hincrement
    obtain ⟨level, task, before, held⟩ := moment
    obtain rfl := htask
    rw [hincrement] at hpasses
    refine scope_block_empty (fun statement hmem => ?_) hpasses
    rcases List.mem_cons.mp hmem with rfl | hmem
    · exact hbody
    · rw [List.mem_singleton.mp hmem]
      rfl

/-- A program finds the same in both states, and whatever is executed next does the same in both, be it here or in
any other environment that was in use when the first scopes were all. -/
structure Machine.Indistinct (count : Nat) (view : View) (machine machine' : Machine) : Prop where
  output : machine'.sink = machine.sink
  lookups : ∀ inUse : Environment, inUse.Made count → ∀ name,
    Option.Rel (Value.Seen view) (machine.store.lookup? inUse name) (machine'.store.lookup? inUse name)
  fields : ∀ id, Bindings.Like (Value.Seen view) (machine.store.fields id) (machine'.store.fields id)
  held : ∀ value : Value, scopeDiscipline.value count value → value.Seen view value
  values : ∀ value value' : Value, value.Seen view value' →
    value'.text = value.text ∧ value'.truthy = value.truthy ∧
      ∀ other other' : Value, other.Seen view other' → value'.equal other' = value.equal other
  programs : ∀ inUse : Environment, inUse.Made count → ∀ level program,
    (Eval.sequence (exec level) program { machine with environment := inUse }).SeenSince count inUse Flow.Seen
      (Eval.sequence (exec level) program { machine' with environment := inUse })

theorem Machine.SeenSince.indistinct {view : View} {machine machine' : Machine}
    (h : machine.SeenSince count environment view machine') : machine.Indistinct count view machine' where
  output := h.seen.sink
  lookups inUse hmade name := h.seen.store.lookup? (hmade.opened h.since).seen name
  fields := h.seen.store.fields
  held value hmade := by
    have hself : value.Seen (.ofTokens .same) value := by
      rw [Value.seen_ofTokens]
      exact value.like_self Matching.faithful_same
    exact hself.of_agree h.since.agree hmade
  values _ _ hvalue := ⟨hvalue.text_eq h.since.faithful.tokens, hvalue.truthy_eq, fun _ _ => hvalue.equal_eq⟩
  programs inUse hmade level program :=
    alikeSince_program hmade level program _ _ _ (h.within (Nat.le_refl _) hmade)

/-- A `for` statement that the parser accepts is executed as the loop of its clauses, in every state of a session
and in every other state without missing scopes: both end in the same way, and what is left different in the
states is nothing that a program can tell. -/
theorem for_statement_means_loop {tokens : List Token} (hfor : Parser.sees .forWord tokens = true) :
    (∀ level statement unread reports, Parser.statement level tokens = .done statement unread reports →
      ∃ clauses, Parser.forStatement level tokens = .done clauses unread reports ∧ statement = clauses.desugared ∧
        clauses.KeepsMeaning) ∧
    (∀ count environment view machine machine', Machine.SeenSince count environment view machine machine' →
      Machine.Indistinct count view machine machine') ∧
    ∀ requests machine environments values, Situation requests machine environments values → machine.Complete := by
  refine ⟨fun level statement unread reports hread => ?_, fun _ _ _ _ _ h => h.indistinct,
    fun _ _ _ _ => Situation.complete⟩
  rw [Parser.statement_eq_forStatement hfor] at hread
  obtain ⟨clauses, hclauses, rfl⟩ := Parser.exists_of_map hread
  exact ⟨clauses, hclauses, rfl, clauses.keepsMeaning (Parser.gives_forStatement level _ _ _ _ hclauses)⟩

/-- The functions that the body makes have one scope more each in their environments, and do the same. -/
theorem for_statement_means_loop_with_functions :
    let start := Machine.start {} 0
    let tokens := (scan
      "for (var i = \"\"; i != \"xx\"; i = i + \"x\") \x7b func f() \x7b return i; \x7d print f(); \x7d").tokens
    ∃ (clauses : ForClauses) (unread : List Token) (reports : List Report) (flow flow' : Flow)
      (after after' : Machine),
      Parser.sees .forWord tokens = true ∧ Parser.statement 20 tokens = .done clauses.desugared unread reports ∧
        start.Complete ∧ exec 20 clauses.desugared start = .done flow after ∧
        clauses.exec 20 start = .done flow' after' ∧ after.store.scopes.size = after'.store.scopes.size + 2 ∧
        (exec 20 clauses.desugared start).SeenSince start.store.scopes.size start.environment Flow.Seen
          (clauses.exec 20 start) := by
  intro start tokens
  have hfor : Parser.sees .forWord tokens = true := by decide +kernel
  have hruns : ((Parser.statement 20 tokens).value?.any fun _ =>
      (Parser.forStatement 20 tokens).value?.any fun clauses =>
        (exec 20 clauses.desugared start).machine?.any fun after =>
          (clauses.exec 20 start).machine?.any fun after' =>
            after.store.scopes.size == after'.store.scopes.size + 2) = true := by
    decide +kernel
  obtain ⟨statement, hread, hruns⟩ := (Option.any_eq_true _ _).mp hruns
  obtain ⟨clauses, hclauses, hruns⟩ := (Option.any_eq_true _ _).mp hruns
  obtain ⟨after, hafter, hruns⟩ := (Option.any_eq_true _ _).mp hruns
  obtain ⟨after', hafter', hscopes⟩ := (Option.any_eq_true _ _).mp hruns
  obtain ⟨flow, hafter⟩ := Outcome.exists_of_machine? hafter
  obtain ⟨flow', hafter'⟩ := Outcome.exists_of_machine? hafter'
  obtain ⟨unread, reports, hread⟩ := Parse.exists_of_value? hread
  obtain ⟨_, _, hclauses⟩ := Parse.exists_of_value? hclauses
  obtain ⟨hmeans, -, hcomplete⟩ := for_statement_means_loop hfor
  have hstart := hcomplete [] start _ _ (.between (.start {} 0))
  obtain ⟨found, hfound, rfl, hkeeps⟩ := hmeans 20 _ _ _ hread
  obtain rfl : clauses = found := (Parse.done.inj (hclauses.symm.trans hfound)).1
  have hends : exec 20 clauses.desugared start ≠ .exhausted := by
    rw [hafter]
    exact nofun
  have hends' : clauses.exec 20 start ≠ .exhausted := by
    rw [hafter']
    exact nofun
  exact ⟨clauses, unread, reports, flow, flow', after, after', hfor, hread, hstart, hafter, hafter',
    beq_iff_eq.mp hscopes, hkeeps.same start 20 20 hstart hends hends'⟩

end Script
