import Script.Proofs.Alike.Values
import Script.Proofs.Output.Truncation
import Script.Proofs.Renaming.States

/-!
# Evaluation with other names

Trees with renamed names do in renamed states what the trees do: the same calls and writes, the same values and
errors but for names. They print the same values. Each step preserves this, and so does every level of nesting.

Nothing that is computed depends on a name but what is found under it: operators, conditions and calls look at
values only, and the length of what is printed matters to no sink without a limit.
-/

namespace Script

variable {α β ε : Type} {r : Renaming}

namespace Outcome.Renamed

theorem mapMachine {E : ε → ε → Prop} {V : α → α → Prop} {outcome outcome' : Outcome ε α}
    (h : outcome.Renamed r E V outcome') {change change' : Machine → Machine}
    (hchange : ∀ machine machine', machine.Renamed r machine' → (change machine).Renamed r (change' machine')) :
    (outcome.mapMachine change).Renamed r E V (outcome'.mapMachine change') := by
  cases h with
  | done hvalue hmachine => exact .done hvalue (hchange _ _ hmachine)
  | failed herror hmachine => exact .failed herror (hchange _ _ hmachine)
  | exhausted => exact .exhausted

theorem mapError {δ : Type} {E : ε → ε → Prop} {D : δ → δ → Prop} {V : α → α → Prop}
    {outcome outcome' : Outcome ε α} (h : outcome.Renamed r E V outcome') {f : ε → δ}
    (hf : ∀ error error', E error error' → D (f error) (f error')) :
    (outcome.mapError f).Renamed r D V (outcome'.mapError f) := by
  cases h with
  | done hvalue hmachine => exact .done hvalue hmachine
  | failed herror hmachine => exact .failed (hf _ _ herror) hmachine
  | exhausted => exact .exhausted

end Outcome.Renamed

namespace Eval.Steps

/-- In states of which one is renamed, both computations end alike, and print the same values. -/
def Renamed (r : Renaming) (V : α → α → Prop) {body body' : Eval α} (steps : Steps body)
    (steps' : Steps body') : Prop :=
  ∀ machine machine', machine.Renamed r machine' →
    (body machine).Renamed r (RuntimeError.Like r.matching) V (body' machine') ∧
      List.Forall₂ (Value.Renamed r) (steps.log machine) (steps'.log machine')

variable {V : α → α → Prop} {U : β → β → Prop}

/-! ### Steps -/

theorem renamed_pure {value value' : α} (hvalue : V value value') : Renamed r V (.pure value) (.pure value') :=
  fun _ _ hmachine => ⟨.done hvalue hmachine, .nil⟩

theorem renamed_fail {error error' : RuntimeError} (herror : RuntimeError.Like r.matching error error') :
    Renamed r V (.fail error) (.fail error') :=
  fun _ _ hmachine => ⟨.failed herror hmachine, .nil⟩

theorem renamed_exhausted : Renamed r V .exhausted .exhausted :=
  fun _ _ _ => ⟨.exhausted, .nil⟩

theorem renamed_bind {first first' : Eval α} {next next' : α → Eval β} {firstSteps : Steps first}
    {firstSteps' : Steps first'} {nextSteps : ∀ value, Steps (next value)} {nextSteps' : ∀ value, Steps (next' value)}
    (hfirst : firstSteps.Renamed r V firstSteps')
    (hnext : ∀ value value', V value value' → (nextSteps value).Renamed r U (nextSteps' value')) :
    (Steps.bind firstSteps nextSteps).Renamed r U (.bind firstSteps' nextSteps') := by
  intro machine machine' hmachine
  obtain ⟨hends, hlog⟩ := hfirst machine machine' hmachine
  rw [bind_apply, bind_apply, log, log]
  generalize first machine = outcome, first' machine' = outcome' at hends
  cases hends with
  | done hvalue hmachine =>
      obtain ⟨hends, hmore⟩ := hnext _ _ hvalue _ _ hmachine
      exact ⟨hends, List.rel_append hlog hmore⟩
  | failed herror hmachine => exact ⟨.failed herror hmachine, List.rel_append hlog .nil⟩
  | exhausted => exact ⟨.exhausted, List.rel_append hlog .nil⟩

theorem renamed_environment : Renamed r Eq .environment .environment :=
  fun _ _ hmachine => ⟨.done hmachine.environment.symm hmachine, .nil⟩

theorem renamed_read {f f' : Store → α} (hread : ∀ store store', store.Renamed r store' → V (f store) (f' store')) :
    Renamed r V (.read f) (.read f') :=
  fun _ _ hmachine => ⟨.done (hread _ _ hmachine.store) hmachine, .nil⟩

theorem renamed_change {f f' : Store → α × Store}
    (hchange : ∀ store store', store.Renamed r store' →
      V (f store).1 (f' store').1 ∧ (f store).2.Renamed r (f' store').2) :
    Renamed r V (.change f) (.change f') := by
  intro machine machine' hmachine
  obtain ⟨hvalue, hstore⟩ := hchange _ _ hmachine.store
  exact ⟨.done hvalue { hmachine with store := hstore, sink := hmachine.sink }, .nil⟩

theorem renamed_clock : Renamed r (Value.Renamed r) .clock .clock := by
  intro machine machine' hmachine
  have hreading : (Value.number machine.time.read.1).Renamed r (.number machine'.time.read.1) := by
    rw [hmachine.time]
    exact .number _
  have hlater : machine'.time.read.2 = machine.time.read.2 := by rw [hmachine.time]
  exact ⟨.done hreading { hmachine with time := hlater }, .nil⟩

theorem renamed_print {value value' : Value} (hvalue : value.Renamed r value') :
    Renamed r Eq (.print value) (.print value') := by
  intro machine machine' hmachine
  have hwrite := machine.sink.write_of_unlimited hmachine.sink.unlimited (value.text ++ "\n")
  have hwrite' := machine'.sink.write_of_unlimited hmachine.sink.unlimited' (value'.text ++ "\n")
  refine ⟨?_, .cons hvalue .nil⟩
  simp only [Eval.print, hwrite, hwrite']
  exact .done rfl { hmachine with
    store := hmachine.store
    sink := ⟨hmachine.sink.unlimited, hmachine.sink.unlimited', hmachine.sink.flushing⟩ }

theorem renamed_flush : Renamed r Eq .flush .flush := by
  intro machine machine' hmachine
  refine ⟨?_, .nil⟩
  unfold Eval.flush Sink.flush
  rw [hmachine.sink.flushing]
  cases machine.sink.refusesFlush with
  | false => exact .done rfl hmachine
  | true => exact .failed (.output .unflushed) hmachine

theorem renamed_within (inner : Environment) {body body' : Eval α} {steps : Steps body} {steps' : Steps body'}
    (hbody : steps.Renamed r V steps') : (Steps.within inner steps).Renamed r V (.within inner steps') := by
  intro machine machine' hmachine
  have hinner : { machine with environment := inner }.Renamed r { machine' with environment := inner } :=
    { hmachine with environment := rfl, store := hmachine.store, sink := hmachine.sink }
  obtain ⟨hends, hlog⟩ := hbody _ _ hinner
  exact ⟨hends.mapMachine fun last last' hlast =>
    { hlast with environment := hmachine.environment, store := hlast.store, sink := hlast.sink }, hlog⟩

theorem renamed_counted {body body' : Eval α} {steps : Steps body} {steps' : Steps body'}
    (hbody : steps.Renamed r V steps') : (Steps.counted steps).Renamed r V (.counted steps') := by
  intro machine machine' hmachine
  have hdeeper : { machine with depth := machine.depth + 1 }.Renamed r { machine' with depth := machine'.depth + 1 } :=
    { hmachine with depth := congrArg (· + 1) hmachine.depth, store := hmachine.store, sink := hmachine.sink }
  obtain ⟨hends, hlog⟩ := hbody _ _ hdeeper
  exact ⟨hends.mapMachine fun last last' hlast =>
    { hlast with depth := hmachine.depth, store := hlast.store, sink := hlast.sink }, hlog⟩

theorem renamed_guarded {error error' : RuntimeError} (herror : RuntimeError.Like r.matching error error')
    {body body' : Eval α} {steps : Steps body} {steps' : Steps body'} (hbody : steps.Renamed r V steps') :
    (Steps.guarded error steps).Renamed r V (.guarded error' steps') := by
  intro machine machine' hmachine
  rw [log, log]
  beta_reduce
  rw [hmachine.depth]
  split
  · exact hbody machine machine' hmachine
  · exact ⟨.failed herror hmachine, .nil⟩

theorem renamed_ite {condition condition' : Prop} [Decidable condition] [Decidable condition']
    (h : condition' ↔ condition) {yes yes' no no' : Eval α} {yesSteps : Steps yes} {yesSteps' : Steps yes'}
    {noSteps : Steps no} {noSteps' : Steps no'} (hyes : yesSteps.Renamed r V yesSteps')
    (hno : noSteps.Renamed r V noSteps') :
    (Steps.ite condition yesSteps noSteps).Renamed r V (.ite condition' yesSteps' noSteps') := by
  intro machine machine' hmachine
  by_cases hcondition : condition
  · rw [log, log, if_pos hcondition, if_pos (h.mpr hcondition), if_pos hcondition, if_pos (h.mpr hcondition)]
    exact hyes machine machine' hmachine
  · have hcondition' : ¬ condition' := fun hcondition' => hcondition (h.mp hcondition')
    rw [log, log, if_neg hcondition, if_neg hcondition', if_neg hcondition, if_neg hcondition']
    exact hno machine machine' hmachine

/-! ### Names -/

section Names

variable {name name' : Token} {use : Use}

theorem renamed_lookup (hname : r.matching use name name') (hnames : r.Names name.lexeme name'.lexeme) :
    (lookupSteps name).Renamed r (Value.Renamed r) (lookupSteps name') := by
  refine renamed_bind renamed_environment ?_
  rintro environment _ rfl
  refine renamed_bind (renamed_read fun _ _ hstore => hstore.lookup? environment hnames) fun value? value?' hvalue => ?_
  cases hvalue with
  | none => exact renamed_fail (.undefinedVariable hname)
  | some hvalue => exact renamed_pure hvalue

theorem renamed_assign (hname : r.matching .name name name') {value value' : Value} (hvalue : value.Renamed r value') :
    (assignSteps name value).Renamed r Eq (assignSteps name' value') := by
  have hnames := Renaming.names_of_name hname
  refine renamed_bind renamed_environment ?_
  rintro environment _ rfl
  refine renamed_bind (renamed_read fun _ _ hstore => hstore.resolve? environment hnames) ?_
  rintro scope? _ rfl
  cases scope? with
  | none => exact renamed_fail (.undefinedVariable hname)
  | some scope => exact renamed_change fun _ _ hstore => ⟨rfl, hstore.define scope hnames hvalue⟩

theorem renamed_define {word word' : String} (hname : r.Names word word') {value value' : Value}
    (hvalue : value.Renamed r value') : (defineSteps word value).Renamed r Eq (defineSteps word' value') := by
  refine renamed_bind renamed_environment ?_
  rintro environment _ rfl
  exact renamed_change fun _ _ hstore => ⟨rfl, hstore.define environment.innermost hname hvalue⟩

end Names

theorem renamed_ofOperator {use : Use} {operator operator' : Token} (hoperator : r.matching use operator operator')
    {result result' : Except OperandFault Value} (hsame : result' = result)
    (hplain : ∀ value, result = .ok value → value.isPlain = true) :
    (ofOperatorSteps operator result).Renamed r (Value.Renamed r) (ofOperatorSteps operator' result') := by
  subst hsame
  cases result' with
  | error fault => exact renamed_fail (.operand hoperator fault)
  | ok value => exact renamed_pure (Value.renamed_of_isPlain (hplain value rfl))

end Eval.Steps

open Eval Eval.Steps

/-! ### Objects -/

section Objects

variable {c c' : Class} (hcls : c.Renamed r c') (id : Nat)

include hcls

theorem Function.renamed_bind {method method' : Function} (hmethod : method.Renamed r method') :
    (method.bindSteps ⟨c, id⟩).Renamed r (Function.Renamed r) (method'.bindSteps ⟨c', id⟩) :=
  renamed_change fun _ _ hstore => hstore.bind hmethod hcls id

omit hcls in
theorem Class.renamed_instantiate :
    c.instantiateSteps.Renamed r (fun object object' => ∃ id, object = ⟨c, id⟩ ∧ object' = ⟨c', id⟩)
      c'.instantiateSteps := by
  refine Steps.renamed_bind (renamed_change fun _ _ hstore => hstore.addObject) ?_
  rintro id _ rfl
  exact renamed_pure ⟨id, rfl, rfl⟩

variable {name name' : Token} (hname : r.matching .name name name')

include hname

theorem Instance.renamed_get :
    (Instance.getSteps ⟨c, id⟩ name).Renamed r (Value.Renamed r) (Instance.getSteps ⟨c', id⟩ name') := by
  have hnames := Renaming.names_of_name hname
  refine Steps.renamed_bind (renamed_read fun _ _ hstore => (hstore.fields id).get? hnames) fun _ _ hvalue => ?_
  cases hvalue with
  | some hvalue => exact renamed_pure hvalue
  | none =>
      have hmethod := hcls.method? hnames
      simp only
      generalize c.method? name.lexeme = method?, c'.method? name'.lexeme = method?' at hmethod
      cases hmethod with
      | none => exact renamed_fail (.undefinedProperty hname)
      | some hmethod =>
          refine Steps.renamed_bind (Function.renamed_bind hcls id hmethod) fun bound bound' hbound => ?_
          exact renamed_pure (.callable (.function hbound))

omit hcls in
theorem Instance.renamed_set {value value' : Value} (hvalue : value.Renamed r value') :
    (Instance.setSteps ⟨c, id⟩ name value).Renamed r Eq (Instance.setSteps ⟨c', id⟩ name' value') :=
  renamed_change fun _ _ hstore => ⟨rfl, hstore.setField id (Renaming.names_of_name hname) hvalue⟩

end Objects

/-! ### Calls -/

/-- Flows with values of which one is renamed. -/
inductive Flow.Renamed (r : Renaming) : Flow → Flow → Prop where
  | next : Renamed r .next .next
  | returned {value value' : Value} (h : value.Renamed r value') : Renamed r (.returned value) (.returned value')

section Step

variable {eval : Expr → Eval Value} {exec : Stmt → Eval Flow} {evalSteps : ∀ expression, Steps (eval expression)}
  {execSteps : ∀ statement, Steps (exec statement)}
  (heval : ∀ expression expression', Expr.Like r.matching expression expression' →
    (evalSteps expression).Renamed r (Value.Renamed r) (evalSteps expression'))
  (hexec : ∀ statement statement', Stmt.Like r.matching statement statement' →
    (execSteps statement).Renamed r (Flow.Renamed r) (execSteps statement'))

section Calls

include hexec

theorem Eval.renamed_sequence {statements statements' : List Stmt}
    (hstatements : List.Forall₂ (Stmt.Like r.matching) statements statements') :
    (sequenceSteps execSteps statements).Renamed r (Flow.Renamed r) (sequenceSteps execSteps statements') := by
  induction hstatements with
  | nil => exact renamed_pure .next
  | cons hstatement _ ih =>
      refine Steps.renamed_bind (hexec _ _ hstatement) fun flow flow' hflow => ?_
      cases hflow with
      | next => exact ih
      | returned hvalue => exact renamed_pure (.returned hvalue)

theorem Function.renamed_call {f f' : Function} (hf : f.Renamed r f') {arguments arguments' : List Value}
    (harguments : List.Forall₂ (Value.Renamed r) arguments arguments') :
    (f.callSteps execSteps arguments).Renamed r (Value.Renamed r) (f'.callSteps execSteps arguments') := by
  obtain ⟨id, declaration, closure⟩ := f
  obtain ⟨id', declaration', closure'⟩ := f'
  obtain ⟨-, ⟨-, hparams, hbody⟩, hclosure⟩ := hf
  obtain rfl : closure' = closure := hclosure
  have hnames : List.Forall₂ r.Names (declaration.params.map Token.lexeme) (declaration'.params.map Token.lexeme) :=
    List.rel_map (fun _ _ hparam => Renaming.names_of_name hparam) hparams
  have hcontents := Bindings.renamed_ofList_zip hnames harguments
  refine Steps.renamed_bind (renamed_change fun _ _ hstore => hstore.addScope hcontents) ?_
  rintro scope _ rfl
  refine Steps.renamed_bind (renamed_within _ (renamed_sequence hexec hbody)) fun flow flow' hflow => ?_
  cases hflow with
  | next => exact renamed_pure .nil
  | returned hvalue => exact renamed_pure hvalue

theorem Class.renamed_call {c c' : Class} (hcls : c.Renamed r c') {arguments arguments' : List Value}
    (harguments : List.Forall₂ (Value.Renamed r) arguments arguments') :
    (c.callSteps execSteps arguments).Renamed r (Value.Renamed r) (c'.callSteps execSteps arguments') := by
  refine Steps.renamed_bind Class.renamed_instantiate ?_
  rintro _ _ ⟨id, rfl, rfl⟩
  have hmethod := hcls.method? Renaming.names_initializer
  generalize c.method? Class.initializer = method?, c'.method? Class.initializer = method?' at hmethod
  cases hmethod with
  | none => exact renamed_pure (.instance id hcls)
  | some hmethod =>
      refine Steps.renamed_bind (Function.renamed_bind hcls id hmethod) fun bound bound' hbound => ?_
      refine Steps.renamed_bind (Function.renamed_call hexec hbound harguments) fun _ _ _ => ?_
      exact renamed_pure (.instance id hcls)

theorem Callable.renamed_call {c c' : Callable} (hc : c.Renamed r c') {arguments arguments' : List Value}
    (harguments : List.Forall₂ (Value.Renamed r) arguments arguments') :
    (c.callSteps execSteps arguments).Renamed r (Value.Renamed r) (c'.callSteps execSteps arguments') := by
  cases hc with
  | function hf => exact Function.renamed_call hexec hf harguments
  | «class» hcls => exact Class.renamed_call hexec hcls harguments
  | native n =>
      cases n with
      | clock => exact renamed_clock

theorem Value.renamed_call {callee callee' : Value} (hcallee : callee.Renamed r callee') {paren paren' : Token}
    (hparen : r.matching .paren paren paren') {arguments arguments' : List Value}
    (harguments : List.Forall₂ (Value.Renamed r) arguments arguments') :
    (callee.callSteps execSteps paren arguments).Renamed r (Value.Renamed r)
      (callee'.callSteps execSteps paren' arguments') := by
  cases hcallee with
  | callable hc =>
      have hbody := Callable.renamed_call hexec hc harguments
      have hlength := harguments.length_eq
      refine renamed_ite ?_ (renamed_guarded (.stackOverflow hparen) (renamed_counted hbody)) ?_
      · rw [hlength, hc.arity_eq]
      · rw [← hlength, hc.arity_eq]
        exact renamed_fail (.arity hparen _ _)
  | _ => exact renamed_fail (.notCallable hparen)

end Calls

/-! ### Expressions and statements -/

include heval

theorem Eval.renamed_values {arguments arguments' : List Expr}
    (harguments : List.Forall₂ (Expr.Like r.matching) arguments arguments') :
    (valuesSteps evalSteps arguments).Renamed r (List.Forall₂ (Value.Renamed r))
      (valuesSteps evalSteps arguments') := by
  induction harguments with
  | nil => exact renamed_pure .nil
  | cons hargument _ ih =>
      refine Steps.renamed_bind (heval _ _ hargument) fun first first' hfirst => ?_
      exact Steps.renamed_bind ih fun others others' hothers => renamed_pure (.cons hfirst hothers)

include hexec

theorem Expr.renamed_evalWith (expression expression' : Expr) (h : Expr.Like r.matching expression expression') :
    (expression.evalWithSteps evalSteps execSteps).Renamed r (Value.Renamed r)
      (expression'.evalWithSteps evalSteps execSteps) := by
  cases h with
  | assign hname hvalue =>
      refine Steps.renamed_bind (heval _ _ hvalue) fun value value' hvalue => ?_
      exact Steps.renamed_bind (renamed_assign hname hvalue) fun _ _ _ => renamed_pure hvalue
  | binary hleft hoperator hright =>
      refine Steps.renamed_bind (heval _ _ hleft) fun left left' hleft => ?_
      refine Steps.renamed_bind (heval _ _ hright) fun right right' hright => ?_
      refine renamed_ofOperator hoperator ?_ fun _ => Kind.isPlain_binary
      rw [Renaming.kind_eq hoperator, Kind.binary_renamed _ hleft hright]
  | call hcallee hparen harguments =>
      refine Steps.renamed_bind (heval _ _ hcallee) fun callee callee' hcallee => ?_
      refine Steps.renamed_bind (renamed_values heval harguments) fun arguments arguments' harguments => ?_
      exact Value.renamed_call hexec hcallee hparen harguments
  | get hobject hname =>
      refine Steps.renamed_bind (heval _ _ hobject) fun object object' hobject => ?_
      cases hobject with
      | «instance» id hcls => exact Instance.renamed_get hcls id hname
      | _ => exact renamed_fail (.notAnInstance hname .read)
  | grouping hinner => exact heval _ _ hinner
  | literal value => exact renamed_pure (Value.renamed_of_isPlain (Value.isPlain_ofLiteral value))
  | logical hleft hoperator hright =>
      refine Steps.renamed_bind (heval _ _ hleft) fun left left' hleft => ?_
      refine renamed_ite ?_ (renamed_pure hleft) (heval _ _ hright)
      rw [Renaming.kind_eq hoperator, Kind.settledBy_renamed _ hleft]
  | set hobject hname hvalue =>
      refine Steps.renamed_bind (heval _ _ hobject) fun object object' hobject => ?_
      cases hobject with
      | «instance» id _ =>
          refine Steps.renamed_bind (heval _ _ hvalue) fun value value' hvalue => ?_
          exact Steps.renamed_bind (Instance.renamed_set id hname hvalue) fun _ _ _ => renamed_pure hvalue
      | _ => exact renamed_fail (.notAnInstance hname .write)
  | this hkeyword => exact renamed_lookup hkeyword (Renaming.names_of_receiver hkeyword)
  | unary hoperator hright =>
      refine Steps.renamed_bind (heval _ _ hright) fun right right' hright => ?_
      refine renamed_ofOperator hoperator ?_ fun _ => Kind.isPlain_unary
      rw [Renaming.kind_eq hoperator, Kind.unary_renamed _ hright]
  | «variable» hname => exact renamed_lookup hname (Renaming.names_of_name hname)

theorem Eval.renamed_repeatWhile {condition condition' : Expr} (hcondition : Expr.Like r.matching condition condition')
    {body body' : Stmt} (hbody : Stmt.Like r.matching body body') (turns : Nat) :
    (repeatWhileSteps (evalSteps condition) (execSteps body) turns).Renamed r (Flow.Renamed r)
      (repeatWhileSteps (evalSteps condition') (execSteps body') turns) := by
  induction turns with
  | zero => exact renamed_exhausted
  | succ turns ih =>
      refine Steps.renamed_bind (heval _ _ hcondition) fun value value' hvalue => ?_
      refine renamed_ite (by rw [hvalue.truthy_eq]) ?_ (renamed_pure .next)
      refine Steps.renamed_bind (hexec _ _ hbody) fun flow flow' hflow => ?_
      cases hflow with
      | next => exact ih
      | returned hvalue => exact renamed_pure (.returned hvalue)

theorem Stmt.renamed_execWith (turns : Nat) (statement statement' : Stmt)
    (h : Stmt.Like r.matching statement statement') :
    (statement.execWithSteps evalSteps execSteps turns).Renamed r (Flow.Renamed r)
      (statement'.execWithSteps evalSteps execSteps turns) := by
  have hdefine {word word' : String} (hname : r.Names word word') {value value' : Value}
      (hvalue : value.Renamed r value') :
      (Steps.bind (defineSteps word value) fun _ => .pure Flow.next).Renamed r (Flow.Renamed r)
        (.bind (defineSteps word' value') fun _ => .pure Flow.next) :=
    Steps.renamed_bind (renamed_define hname hvalue) fun _ _ _ => renamed_pure .next
  cases h with
  | block hstatements =>
      refine Steps.renamed_bind (renamed_change fun _ _ hstore => hstore.addScope Bindings.renamed_empty) ?_
      rintro scope _ rfl
      refine Steps.renamed_bind renamed_environment ?_
      rintro environment _ rfl
      exact renamed_within _ (renamed_sequence hexec hstatements)
  | classDecl hname hmethods =>
      refine Steps.renamed_bind renamed_environment ?_
      rintro environment _ rfl
      refine Steps.renamed_bind (renamed_change fun _ _ hstore => hstore.addClass hname hmethods environment) ?_
      intro c c' hcls
      exact hdefine (Renaming.names_of_name hname) (.callable (.class hcls))
  | expression h => exact Steps.renamed_bind (heval _ _ h) fun _ _ _ => renamed_pure .next
  | function hdeclaration =>
      refine Steps.renamed_bind renamed_environment ?_
      rintro environment _ rfl
      refine Steps.renamed_bind (renamed_change fun _ _ hstore => hstore.addFunction hdeclaration environment) ?_
      intro f f' hf
      exact hdefine hf.names (.callable (.function hf))
  | conditional hcondition hwhenTrue hwhenFalse =>
      refine Steps.renamed_bind (heval _ _ hcondition) fun value value' hvalue => ?_
      refine renamed_ite (by rw [hvalue.truthy_eq]) (hexec _ _ hwhenTrue) ?_
      cases hwhenFalse with
      | none => exact renamed_pure .next
      | some hwhenFalse => exact hexec _ _ hwhenFalse
  | print h =>
      refine Steps.renamed_bind (heval _ _ h) fun value value' hvalue => ?_
      exact Steps.renamed_bind (renamed_print hvalue) fun _ _ _ => renamed_pure .next
  | «return» _ hvalue =>
      cases hvalue with
      | none => exact renamed_pure (.returned .nil)
      | some h => exact Steps.renamed_bind (heval _ _ h) fun _ _ hvalue => renamed_pure (.returned hvalue)
  | var hname hinitializer =>
      have hnames := Renaming.names_of_name hname
      cases hinitializer with
      | none => exact hdefine hnames .nil
      | some h => exact Steps.renamed_bind (heval _ _ h) fun _ _ hvalue => hdefine hnames hvalue
  | loop hcondition hbody => exact renamed_repeatWhile heval hexec hcondition hbody turns

end Step

theorem renamed_eval_exec (r : Renaming) (level : Nat) :
    (∀ expression expression', Expr.Like r.matching expression expression' →
      ((evalExecSteps level).1 expression).Renamed r (Value.Renamed r) ((evalExecSteps level).1 expression')) ∧
    ∀ statement statement', Stmt.Like r.matching statement statement' →
      ((evalExecSteps level).2 statement).Renamed r (Flow.Renamed r) ((evalExecSteps level).2 statement') := by
  induction level with
  | zero => exact ⟨fun _ _ _ => renamed_exhausted, fun _ _ _ => renamed_exhausted⟩
  | succ level ih =>
      obtain ⟨heval, hexec⟩ := ih
      exact ⟨Expr.renamed_evalWith heval hexec, Stmt.renamed_execWith heval hexec level⟩

theorem renamed_interpret (level : Nat) {program program' : List Stmt}
    (hprogram : List.Forall₂ (Stmt.Like r.matching) program program') :
    (interpretSteps level program).Renamed r Eq (interpretSteps level program') :=
  Steps.renamed_bind (renamed_sequence (renamed_eval_exec r level).2 hprogram) fun _ _ _ => renamed_flush

end Script
