import Script.Proofs.Desugaring.Views

/-!
# Two computations side by side

They begin in states of which one is seen in the other, and end so, though maybe in another view: since they
began, the first one may have opened scopes that the second one does without. The environments that they stand in
are the same.
-/

namespace Script

variable {α β : Type} {count : Nat} {environment : Environment} {view : View}

/-- Tokens and the first scopes are seen as themselves. -/
structure View.Since (count : Nat) (view : View) : Prop where
  tokens : view.tokens = .same
  faithful : view.Faithful
  scopes : ∀ id, id < count → view.scopes id = some id

theorem View.since_ofTokens (count : Nat) : (View.ofTokens .same).Since count :=
  ⟨rfl, View.faithful_ofTokens Matching.faithful_same, fun _ _ => rfl⟩

theorem View.Since.agree (h : view.Since count) : (View.ofTokens .same).Agree count view :=
  ⟨h.tokens, h.scopes⟩

theorem View.Since.hide (h : view.Since count) {hidden : ScopeId} (hle : count ≤ hidden) :
    (view.hide hidden).Since count where
  tokens := h.tokens
  faithful := h.faithful.hide
  scopes id hid := (scopes_hide_of_lt (Nat.lt_of_lt_of_le hid hle)).trans (h.scopes id hid)

theorem View.Since.mono (h : view.Since count) {fewer : Nat} (hle : fewer ≤ count) : view.Since fewer :=
  ⟨h.tokens, h.faithful, fun id hid => h.scopes id (Nat.lt_of_lt_of_le hid hle)⟩

theorem View.Since.expr (h : view.Since count) (expression : Expr) : Expr.Like view.tokens expression expression :=
  expression.like_self fun _ _ => h.faithful.tokens.refl _ _

theorem View.Since.stmt (h : view.Since count) (statement : Stmt) : Stmt.Like view.tokens statement statement :=
  statement.like_self fun _ _ => h.faithful.tokens.refl _ _

theorem Environment.Made.opened (hmade : environment.Made count) (h : view.Since count) :
    environment.Opened view environment :=
  ⟨(Environment.seen_ofTokens_iff.mpr rfl).of_agree h.agree hmade, h.scopes _ (hmade _ List.mem_cons_self)⟩

/-- The second state is what is seen of the first, of which nothing is lost but scopes made since. -/
structure Machine.SeenSince (count : Nat) (environment : Environment) (view : View) (machine machine' : Machine) :
    Prop where
  since : view.Since count
  seen : machine.Seen view environment environment machine'
  complete : machine.Complete
  le : count ≤ machine.store.scopes.size

/-- Both end in the same way, with the same error or with values of which one is seen as the other. -/
inductive Outcome.SeenSince (count : Nat) (environment : Environment) (V : View → α → α → Prop) :
    Outcome RuntimeError α → Outcome RuntimeError α → Prop where
  | done {view : View} {value value' : α} {machine machine' : Machine} (hvalue : V view value value')
      (hmachine : machine.SeenSince count environment view machine') :
      SeenSince count environment V (.done value machine) (.done value' machine')
  | failed {view : View} {machine machine' : Machine} (error : RuntimeError)
      (hmachine : machine.SeenSince count environment view machine') :
      SeenSince count environment V (.failed error machine) (.failed error machine')
  | exhausted : SeenSince count environment V .exhausted .exhausted

/-- Both come to an end, or neither does. -/
theorem Outcome.SeenSince.ends_iff {V : View → α → α → Prop} {outcome outcome' : Outcome RuntimeError α}
    (h : outcome.SeenSince count environment V outcome') : outcome ≠ .exhausted ↔ outcome' ≠ .exhausted := by
  cases h with
  | done | failed => exact ⟨fun _ => nofun, fun _ => nofun⟩
  | exhausted => exact Iff.rfl

theorem Machine.Complete.seenSince {machine : Machine} (h : machine.Complete) :
    machine.SeenSince machine.store.scopes.size machine.environment (.ofTokens .same) machine :=
  ⟨View.since_ofTokens _, (machine.like_self Matching.faithful_same).seen, h, Nat.le_refl _⟩

theorem Outcome.Seen.since {V : View → α → α → Prop} {outcome outcome' : Outcome RuntimeError α}
    (h : outcome.Seen view environment environment (RuntimeError.Like view.tokens) (V view) outcome')
    (hview : view.Since count)
    (hends : ∀ value? after, outcome.Ends value? after → after.Complete ∧ count ≤ after.store.scopes.size) :
    outcome.SeenSince count environment V outcome' := by
  cases h with
  | done hvalue hmachine =>
      obtain ⟨hcomplete, hle⟩ := hends _ _ (.done _ _)
      exact .done hvalue ⟨hview, hmachine, hcomplete, hle⟩
  | failed herror hmachine =>
      obtain ⟨hcomplete, hle⟩ := hends _ _ (.failed _ _)
      rw [hview.tokens] at herror
      obtain rfl := RuntimeError.eq_of_like herror
      exact .failed _ ⟨hview, hmachine, hcomplete, hle⟩
  | exhausted => exact .exhausted

/-- In an outer environment, less is known to have been there at first. -/
theorem Machine.SeenSince.within {inner : Environment} {more : Nat} {machine machine' : Machine}
    (h : machine.SeenSince more inner view machine') (hle : count ≤ more) (hmade : environment.Made count) :
    { machine with environment }.SeenSince count environment view { machine' with environment } where
  since := h.since.mono hle
  seen := h.seen.within environment environment
  complete := ⟨hmade.mono (Nat.le_trans hle h.le), h.complete.good.elsewhere environment _ _⟩
  le := Nat.le_trans hle h.le

theorem Outcome.SeenSince.leave {V : View → α → α → Prop} {inner : Environment} {more : Nat}
    {outcome outcome' : Outcome RuntimeError α} (h : outcome.SeenSince more inner V outcome') (hle : count ≤ more)
    (hmade : environment.Made count) :
    (outcome.mapMachine ({ · with environment })).SeenSince count environment V
      (outcome'.mapMachine ({ · with environment })) := by
  cases h with
  | done hvalue hmachine => exact .done hvalue (hmachine.within hle hmade)
  | failed error hmachine => exact .failed error (hmachine.within hle hmade)
  | exhausted => exact .exhausted

/-- Side by side, the computations go from states of which one is seen in the other to such states. -/
def Eval.AlikeSince (count : Nat) (environment : Environment) (V : View → α → α → Prop) (body body' : Eval α) : Prop :=
  ∀ view machine machine', machine.SeenSince count environment view machine' →
    (body machine).SeenSince count environment V (body' machine')

namespace Eval

variable {V : View → α → α → Prop} {U : View → β → β → Prop}

theorem AlikeSince.of_alike {body body' : Eval α} {post : Nat → α → Prop}
    (h : ∀ view, view.Since count → Alike view environment environment (V view) body body')
    (hkeeps : ∀ more, count ≤ more → scopeDiscipline.Keeps more environment body post) :
    AlikeSince count environment V body body' := by
  intro view machine machine' hmachine
  refine (h view hmachine.since machine machine' hmachine.seen).since hmachine.since fun value? after hends => ?_
  have hbody := hkeeps _ hmachine.le
  rw [← hmachine.seen.here] at hbody
  obtain ⟨hcomplete, hle⟩ := hbody.complete hmachine.complete hends
  exact ⟨hcomplete, Nat.le_trans hmachine.le hle⟩

theorem alikeSince_pure {value value' : α} (hvalue : ∀ view, V view value value') :
    AlikeSince count environment V (pure value) (pure value') :=
  fun view _ _ hmachine => .done (hvalue view) hmachine

/-- What follows begins in the view in which the first step has ended. -/
theorem alikeSince_bind {first first' : Eval α} {next next' : α → Eval β}
    (hfirst : AlikeSince count environment V first first')
    (hnext : ∀ view value value' machine machine', V view value value' →
      machine.SeenSince count environment view machine' →
        (next value machine).SeenSince count environment U (next' value' machine')) :
    AlikeSince count environment U (first >>= next) (first' >>= next') := by
  intro view machine machine' hmachine
  have hends := hfirst view machine machine' hmachine
  rw [bind_apply, bind_apply]
  generalize first machine = outcome, first' machine' = outcome' at hends
  cases hends with
  | done hvalue hmachine => exact hnext _ _ _ _ _ hvalue hmachine
  | failed error hmachine => exact .failed error hmachine
  | exhausted => exact .exhausted

theorem alikeSince_eval (hmade : environment.Made count) (level : Nat) (expression : Expr) :
    AlikeSince count environment Value.Seen (eval level expression) (eval level expression) :=
  .of_alike
    (fun _ hview => (alike_eval_exec hview.faithful level).1 _ _ _ _ (hmade.opened hview).seen (hview.expr expression))
    fun _ hle => scopeDiscipline.keeps_eval level _ _ expression (hmade.mono hle)

theorem alikeSince_exec (hmade : environment.Made count) (level : Nat) (statement : Stmt) :
    AlikeSince count environment Flow.Seen (exec level statement) (exec level statement) :=
  .of_alike
    (fun _ hview => (alike_eval_exec hview.faithful level).2 _ _ _ _ (hmade.opened hview).seen
      (.inr (hmade.opened hview).innermost) (hview.stmt statement))
    fun _ hle => scopeDiscipline.keeps_exec level _ _ statement (hmade.mono hle)

theorem alikeSince_program (hmade : environment.Made count) (level : Nat) (program : List Stmt) :
    AlikeSince count environment Flow.Seen (Eval.sequence (exec level) program) (Eval.sequence (exec level) program) :=
  .of_alike
    (fun _ hview => alike_program hview.faithful level (hmade.opened hview)
      (List.forall₂_same.mpr fun statement _ => hview.stmt statement))
    fun _ hle => Discipline.keeps_sequence (scopeDiscipline.keeps_exec level) fun _ _ => hmade.mono hle

end Eval

end Script
