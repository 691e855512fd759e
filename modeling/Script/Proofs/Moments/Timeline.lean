import Script.Proofs.Levels
import Script.Proofs.Moments.Order

/-!
# The order of a session

A session serves one request after the other, and a request executes one statement after the other. How many levels a
moment is looked at with is no matter, so any two moments of a request can be looked at with the same. With the order
of moments this makes time a line: of two states of a session, one precedes the other.
-/

namespace Script

variable {requests : List Request} {results : List Value} {request : Request} {source : String} {level : Nat}
  {begun machine machine' after : Machine}

/-- In serving the request from the first state on, the machine is in the second one at some time. -/
inductive Request.Passes : Request → Machine → Machine → Prop where
  | start (request : Request) (machine : Machine) : Passes request machine machine
  | statement {source : String} {statement : Stmt} {before after : List Stmt} {begun middle machine : Machine}
      (level : Nat) (hprogram : (Request.run source).tasks = (before ++ statement :: after).map .exec)
      (hbefore : Eval.sequence (exec level) before begun = .done .next middle)
      (hpasses : Moment.Passes ⟨level, .exec statement, middle, []⟩ machine) : Passes (.run source) begun machine
  | expression {source : String} {expression : Expr} {begun machine : Machine} (level : Nat)
      (hexpression : (Request.evaluate source).tasks = [.eval expression])
      (hpasses : Moment.Passes ⟨level, .eval expression, begun, []⟩ machine) :
      Passes (.evaluate source) begun machine

/-- The requests that a machine has served since it started, the last one first, each with the state that it was
served from. -/
inductive Timeline : List (Request × Machine) → Machine → Prop where
  | start (sink : Sink) (time : Clock) : Timeline [] (.start sink time)
  | run {served : List (Request × Machine)} {machine after : Machine} (h : Timeline served machine) (level : Nat)
      (source : String) {value? : Option Unit} (hends : (machine.run level source).Ends value? after) :
      Timeline ((.run source, machine) :: served) after
  | evaluate {served : List (Request × Machine)} {machine after : Machine} (h : Timeline served machine)
      (level : Nat) (source : String) {value? : Option Value}
      (hends : (machine.evaluate level source).Ends value? after) :
      Timeline ((.evaluate source, machine) :: served) after
  | clock {served : List (Request × Machine)} {machine : Machine} (h : Timeline served machine) (time : Clock) :
      Timeline served { machine with time }

/-- The machine is in the state while it serves one of the requests. -/
def PassedIn (served : List (Request × Machine)) (machine : Machine) : Prop :=
  ∃ request begun, (request, begun) ∈ served ∧ request.Passes begun machine

/-- The states are of one session: after some requests, the machine is serving another one, and in serving these it
has been in the first state and in the second, or comes to be. -/
def SameSession (machine machine' : Machine) : Prop :=
  ∃ served request begun, Timeline served begun ∧ PassedIn ((request, begun) :: served) machine ∧
    PassedIn ((request, begun) :: served) machine'

/-! ### One request -/

theorem Session.inTurn (h : Session requests results machine) {program : List Stmt}
    (hprogram : (Request.run source).tasks = program.map .exec) :
    InTurn (.run source :: requests) results [] level [] program machine :=
  fun _ _ _ _ hsplit hbefore => .statement h (hsplit ▸ hprogram) hbefore

/-- A run executes the statements that there are, and then changes nothing more. -/
theorem Machine.exists_sequence_of_run {value? : Option Unit} (hends : (machine.run level source).Ends value? after) :
    ∃ program flow?, (Request.run source).tasks = program.map .exec ∧
      (Eval.sequence (exec level) program machine).Ends flow? after := by
  simp only [Machine.run] at hends
  split at hends
  · next hread =>
      cases hends
      exact ⟨[], some Flow.next, if_pos hread, .of_done rfl⟩
  · next hread =>
      have htasks : (Request.run source).tasks = (readProgram source).tree.map .exec := if_neg hread
      rcases Eval.ends_bind (Outcome.ends_mapError_iff.mp hends) with ⟨error, hfailed, -⟩ | ⟨flow, last, hdone, hflush⟩
      · exact ⟨_, none, htasks, hfailed ▸ .failed error after⟩
      · refine ⟨_, some flow, htasks, ?_⟩
        unfold Eval.flush at hflush
        split at hflush <;> cases hflush <;> exact .of_done hdone

theorem Machine.eval_of_evaluate {expression : Expr} {value? : Option Value}
    (hexpression : (Request.evaluate source).tasks = [.eval expression])
    (hends : (machine.evaluate level source).Ends value? after) : (eval level expression machine).Ends value? after := by
  simp only [Request.tasks] at hexpression
  simp only [Machine.evaluate] at hends
  split at hexpression
  · cases hexpression
  · next hread =>
      cases htree : (readExpression source).tree with
      | none =>
          rw [htree] at hexpression
          cases hexpression
      | some tree =>
          rw [htree] at hexpression hends
          cases hexpression
          simp only [if_neg hread] at hends
          exact Outcome.ends_mapError_iff.mp hends

theorem Request.program_unique {program program' : List Stmt} (h : request.tasks = program.map .exec)
    (h' : request.tasks = program'.map .exec) : program' = program :=
  List.map_injective_iff.mpr (fun _ _ => Task.exec.inj) (h'.symm.trans h)

section Requests

variable (hsession : Session requests results begun)

include hsession

theorem Request.Passes.precedes (h : request.Passes begun machine) : Precedes begun machine := by
  cases h with
  | start => exact .refl
  | statement level hprogram hbefore hpasses =>
      have hprogress := InProgress.statement hsession hprogram hbefore
      exact .head ⟨_, .begins hsession hprogram hbefore⟩ (hprogress.precedes_of_passes hpasses)
  | expression level hexpression hpasses =>
      exact (InProgress.expression level hsession hexpression).precedes_of_passes hpasses

theorem Request.Passes.precedes_of_run {value? : Option Unit} (h : (Request.run source).Passes begun machine)
    (hends : (begun.run level source).Ends value? after) : Precedes machine after := by
  cases h with
  | start => exact .single ⟨_, .run hsession level source hends⟩
  | statement level' hprogram hbefore hpasses =>
      obtain ⟨program, flow?, hprogram', hsequence⟩ := Machine.exists_sequence_of_run hends
      obtain rfl := Request.program_unique hprogram hprogram'
      have hsequence := (Eval.below_sequence (below_exec (Nat.le_max_left level level')) _).ends hsequence
      have hbefore := (Eval.below_sequence (below_exec (Nat.le_max_right level level')) _).done hbefore
      rw [Eval.sequence_append hbefore] at hsequence
      have hturn := (hsession.inTurn hprogram).right hbefore
      obtain ⟨values, last, hstatement, hlast⟩ := hturn.exists_ends hsequence
      exact .head ⟨_, .ends hturn.head (hpasses.of_le (Nat.le_max_right level level')) hstatement⟩ hlast

theorem Request.Passes.precedes_of_evaluate {value? : Option Value}
    (h : (Request.evaluate source).Passes begun machine) (hends : (begun.evaluate level source).Ends value? after) :
    Precedes machine after := by
  cases h with
  | start => exact .single ⟨_, .evaluate hsession level source hends⟩
  | expression level' hexpression hpasses =>
      have hrun := (below_eval (Nat.le_max_left level level') _).ends
        (Machine.eval_of_evaluate hexpression hends)
      have hprogress := InProgress.expression (max level level') hsession hexpression
      exact .single ⟨_, .ends hprogress (hpasses.of_le (Nat.le_max_right level level')) (.eval hrun)⟩

/-- Of two states that a machine is in while it serves one request, one precedes the other. -/
theorem Request.Passes.total (h : request.Passes begun machine) (h' : request.Passes begun machine') :
    Precedes machine machine' ∨ Precedes machine' machine := by
  have hbegun := h.precedes hsession
  cases h with
  | start => exact .inl (h'.precedes hsession)
  | statement level hprogram hbefore hpasses =>
      cases h' with
      | start => exact .inr hbegun
      | statement level' hprogram' hbefore' hpasses' =>
          have hsplit := Request.program_unique hprogram hprogram'
          have hbefore := (Eval.below_sequence (below_exec (Nat.le_max_left level level')) _).done hbefore
          have hbefore' := (Eval.below_sequence (below_exec (Nat.le_max_right level level')) _).done hbefore'
          have hpasses := hpasses.of_le (Nat.le_max_left level level')
          have hpasses' := hpasses'.of_le (Nat.le_max_right level level')
          have hfirst := InProgress.statement hsession hprogram hbefore
          have hsecond := InProgress.statement hsession hprogram' hbefore'
          rcases (hsession.inTurn hprogram).comparable rfl hbefore hsplit.symm hbefore' with
            heq | hearlier | hearlier
          · rw [← heq] at hpasses'
            exact hfirst.precedes_total hpasses hpasses'
          · exact .inl (hearlier.precedes hfirst hsecond hpasses hpasses')
          · exact .inr (hearlier.precedes hsecond hfirst hpasses' hpasses)
  | expression level hexpression hpasses =>
      cases h' with
      | start => exact .inr hbegun
      | expression level' hexpression' hpasses' =>
          rw [hexpression] at hexpression'
          cases hexpression'
          have hprogress := InProgress.expression (max level level') hsession hexpression
          exact hprogress.precedes_total (hpasses.of_le (Nat.le_max_left level level'))
            (hpasses'.of_le (Nat.le_max_right level level'))

end Requests

/-! ### Sessions -/

variable {served : List (Request × Machine)}

theorem Timeline.exists_session (h : Timeline served machine) :
    ∃ results, Session (served.map Prod.fst) results machine := by
  induction h with
  | start sink time => exact ⟨[], .start sink time⟩
  | run _ level source hends ih =>
      obtain ⟨results, hsession⟩ := ih
      exact ⟨results, .run hsession level source hends⟩
  | evaluate _ level source hends ih =>
      obtain ⟨results, hsession⟩ := ih
      exact ⟨_, .evaluate hsession level source hends⟩
  | clock _ time ih =>
      obtain ⟨results, hsession⟩ := ih
      exact ⟨results, .clock hsession time⟩

theorem passedIn_cons_iff :
    PassedIn ((request, begun) :: served) machine ↔ request.Passes begun machine ∨ PassedIn served machine := by
  simp [PassedIn, or_and_right, exists_or]

theorem Timeline.precedes (h : Timeline served begun) (hpassed : PassedIn served machine) : Precedes machine begun := by
  induction h with
  | start =>
      obtain ⟨_, _, hmem, -⟩ := hpassed
      cases hmem
  | run h level source hends ih =>
      obtain ⟨results, hsession⟩ := h.exists_session
      rcases passedIn_cons_iff.mp hpassed with hpasses | hpassed
      · exact hpasses.precedes_of_run hsession hends
      · exact (ih hpassed).tail ⟨_, .run hsession level source hends⟩
  | evaluate h level source hends ih =>
      obtain ⟨results, hsession⟩ := h.exists_session
      rcases passedIn_cons_iff.mp hpassed with hpasses | hpassed
      · exact hpasses.precedes_of_evaluate hsession hends
      · exact (ih hpassed).tail ⟨_, .evaluate hsession level source hends⟩
  | clock h time ih =>
      obtain ⟨results, hsession⟩ := h.exists_session
      exact (ih hpassed).tail ⟨_, .clock hsession time⟩

/-- The states of one more request come after all those of the earlier ones. -/
theorem Timeline.total_cons (h : Timeline served begun)
    (hearlier : PassedIn served machine → PassedIn served machine' →
      Precedes machine machine' ∨ Precedes machine' machine)
    (hpassed : PassedIn ((request, begun) :: served) machine)
    (hpassed' : PassedIn ((request, begun) :: served) machine') :
    Precedes machine machine' ∨ Precedes machine' machine := by
  obtain ⟨results, hsession⟩ := h.exists_session
  rcases passedIn_cons_iff.mp hpassed with hpasses | hpassed
  · rcases passedIn_cons_iff.mp hpassed' with hpasses' | hpassed'
    · exact hpasses.total hsession hpasses'
    · exact .inr ((h.precedes hpassed').trans (hpasses.precedes hsession))
  · rcases passedIn_cons_iff.mp hpassed' with hpasses' | hpassed'
    · exact .inl ((h.precedes hpassed).trans (hpasses'.precedes hsession))
    · exact hearlier hpassed hpassed'

theorem Timeline.total (h : Timeline served begun) (hpassed : PassedIn served machine)
    (hpassed' : PassedIn served machine') : Precedes machine machine' ∨ Precedes machine' machine := by
  induction h with
  | start =>
      obtain ⟨_, _, hmem, -⟩ := hpassed
      cases hmem
  | run h level source hends ih => exact h.total_cons ih hpassed hpassed'
  | evaluate h level source hends ih => exact h.total_cons ih hpassed hpassed'
  | clock _ _ ih => exact ih hpassed hpassed'

/-- Of two states of one session, one precedes the other. -/
theorem SameSession.total (h : SameSession machine machine') :
    Precedes machine machine' ∨ Precedes machine' machine := by
  obtain ⟨served, request, begun, htimeline, hpassed, hpassed'⟩ := h
  exact htimeline.total_cons htimeline.total hpassed hpassed'

end Script
