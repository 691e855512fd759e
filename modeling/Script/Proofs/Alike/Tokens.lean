import Script.Proofs.Alike.Evaluation

/-!
# States that differ in tokens only

If every scope is seen as itself, what is seen of a state is a state that is alike: it differs in the tokens of
functions only. So what a program does cannot depend on the lines that its tokens, or those of earlier programs,
stand on.
-/

namespace Script

/-- Every scope is seen as itself. -/
def View.ofTokens (T : Matching) : View :=
  ⟨T, some⟩

variable {T : Matching}

theorem View.faithful_ofTokens (hfaithful : T.Faithful) : (View.ofTokens T).Faithful where
  tokens := hfaithful
  injective h h' := Option.some.inj (h.trans h'.symm)

/-! ### What is seen is what is alike -/

theorem Environment.seen_ofTokens_iff {environment environment' : Environment} :
    environment.Seen (.ofTokens T) environment' ↔ environment' = environment := by
  obtain ⟨innermost, outer⟩ := environment
  obtain ⟨innermost', outer'⟩ := environment'
  simp [Environment.Seen, View.ofTokens, Environment.chain]

theorem Function.seen_ofTokens : Function.Seen (.ofTokens T) = Function.Like T := by
  funext f f'
  rw [eq_iff_iff]
  exact ⟨fun h => ⟨h.id, h.declaration, Environment.seen_ofTokens_iff.mp h.closure⟩,
    fun h => ⟨h.id, h.declaration, Environment.seen_ofTokens_iff.mpr h.closure⟩⟩

theorem Class.seen_ofTokens : Class.Seen (.ofTokens T) = Class.Like T := by
  funext c c'
  rw [eq_iff_iff]
  exact ⟨fun h => ⟨h.id, h.name, Function.seen_ofTokens (T := T) ▸ h.methods⟩,
    fun h => ⟨h.id, h.name, (Function.seen_ofTokens (T := T)).symm ▸ h.methods⟩⟩

theorem Callable.seen_ofTokens : Callable.Seen (.ofTokens T) = Callable.Like T := by
  funext c c'
  rw [eq_iff_iff]
  constructor
  · rintro (hf | hcls | n)
    · exact .function (Function.seen_ofTokens (T := T) ▸ hf)
    · exact .class (Class.seen_ofTokens (T := T) ▸ hcls)
    · exact .native n
  · rintro (hf | hcls | n)
    · exact .function ((Function.seen_ofTokens (T := T)).symm ▸ hf)
    · exact .class ((Class.seen_ofTokens (T := T)).symm ▸ hcls)
    · exact .native n

theorem Value.seen_ofTokens : Value.Seen (.ofTokens T) = Value.Like T := by
  funext value value'
  rw [eq_iff_iff]
  constructor
  · rintro (_ | value | value | text | hc | ⟨id, hcls⟩)
    · exact .nil
    · exact .bool value
    · exact .number value
    · exact .string text
    · exact .callable (Callable.seen_ofTokens (T := T) ▸ hc)
    · exact .instance id (Class.seen_ofTokens (T := T) ▸ hcls)
  · rintro (_ | value | value | text | hc | ⟨id, hcls⟩)
    · exact .nil
    · exact .bool value
    · exact .number value
    · exact .string text
    · exact .callable ((Callable.seen_ofTokens (T := T)).symm ▸ hc)
    · exact .instance id ((Class.seen_ofTokens (T := T)).symm ▸ hcls)

theorem Store.seen_ofTokens_iff {store store' : Store} :
    store.Seen (.ofTokens T) store' ↔ Store.Like T store store' := by
  constructor
  · intro h
    have hscope (id : ScopeId) := h.scope id id rfl
    have hfields := h.fields
    rw [Value.seen_ofTokens] at hscope hfields
    exact ⟨(Option.some.inj (h.fresh 0)).symm, hscope, h.objects, hfields, h.functions, h.classes⟩
  · intro h
    refine ⟨fun more => ?_, fun id id' hid => ?_, fun id hid => ?_, h.objects, ?_, h.functions, h.classes⟩
    · rw [h.scopes]
      rfl
    · rw [Value.seen_ofTokens, ← Option.some.inj hid]
      exact h.scope id
    · cases hid
    · rw [Value.seen_ofTokens]
      exact h.fields

theorem Machine.Like.seen {machine machine' : Machine} (h : Machine.Like T machine machine') :
    machine.Seen (.ofTokens T) machine.environment machine.environment machine' := by
  obtain ⟨store, hstore, rfl⟩ := h
  exact ⟨rfl, rfl, rfl, rfl, Store.seen_ofTokens_iff.mpr hstore, rfl, rfl⟩

theorem Machine.Seen.like {environment : Environment} {machine machine' : Machine}
    (h : machine.Seen (.ofTokens T) environment environment machine') : Machine.Like T machine machine' := by
  obtain ⟨globals, here, depth, store, sink, time⟩ := machine
  obtain ⟨globals', there, depth', store', sink', time'⟩ := machine'
  obtain ⟨rfl, rfl, rfl, rfl, hstore, rfl, rfl⟩ := h
  exact ⟨store', Store.seen_ofTokens_iff.mp hstore, rfl⟩

theorem Outcome.Seen.like {ε α : Type} {environment : Environment} {E : ε → ε → Prop} {V : α → α → Prop}
    {outcome outcome' : Outcome ε α} (h : outcome.Seen (.ofTokens T) environment environment E V outcome') :
    Outcome.Like T E V outcome outcome' := by
  cases h with
  | done hvalue hmachine => exact .done hvalue hmachine.like
  | failed herror hmachine => exact .failed herror hmachine.like
  | exhausted => exact .exhausted

/-! ### Programs -/

section Programs

variable (hfaithful : T.Faithful) (level : Nat)

include hfaithful

theorem like_eval {expression expression' : Expr} (h : Expr.Like T expression expression')
    {machine machine' : Machine} (hmachine : Machine.Like T machine machine') :
    Outcome.Like T (RuntimeError.Like T) (Value.Like T) (eval level expression machine)
      (eval level expression' machine') := by
  have halike := (alike_eval_exec (View.faithful_ofTokens hfaithful) level).1 machine.environment
    machine.environment _ _ (Environment.seen_ofTokens_iff.mpr rfl) h
  rw [Value.seen_ofTokens] at halike
  exact (halike _ _ hmachine.seen).like

variable {program program' : List Stmt} (hprogram : List.Forall₂ (Stmt.Like T) program program')
  {machine machine' : Machine} (hmachine : Machine.Like T machine machine')

include hprogram hmachine

theorem like_exec : Outcome.Like T (RuntimeError.Like T) (Flow.Seen (.ofTokens T))
    (Eval.sequence (exec level) program machine) (Eval.sequence (exec level) program' machine') :=
  (alike_program (View.faithful_ofTokens hfaithful) level ⟨Environment.seen_ofTokens_iff.mpr rfl, rfl⟩ hprogram
    _ _ hmachine.seen).like

theorem like_interpret : Outcome.Like T (RuntimeError.Like T) Eq (interpret level program machine)
    (interpret level program' machine') :=
  (alike_interpret (View.faithful_ofTokens hfaithful) level ⟨Environment.seen_ofTokens_iff.mpr rfl, rfl⟩ hprogram
    _ _ hmachine.seen).like

end Programs

end Script
