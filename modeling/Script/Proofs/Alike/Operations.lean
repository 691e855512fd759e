import Script.Proofs.Alike.Views
import Script.Proofs.Moments.Operands

/-!
# Operations in states of which one is seen in the other

Computations are alike if they end alike, whenever one starts in a state in some environment and the other in
what is seen of both. Each operation is alike to itself, or to the same operation on values and tokens of which
one is seen as the other.
-/

namespace Script

variable {α β ε : Type} {view : View} {environment environment' : Environment}

theorem Outcome.Seen.mapMachine {inner inner' : Environment} {E : ε → ε → Prop} {V : α → α → Prop}
    {outcome outcome' : Outcome ε α} (h : outcome.Seen view inner inner' E V outcome')
    {change change' : Machine → Machine}
    (hchange : ∀ machine machine', machine.Seen view inner inner' machine' →
      (change machine).Seen view environment environment' (change' machine')) :
    (outcome.mapMachine change).Seen view environment environment' E V (outcome'.mapMachine change') := by
  cases h with
  | done hvalue hmachine => exact .done hvalue (hchange _ _ hmachine)
  | failed herror hmachine => exact .failed herror (hchange _ _ hmachine)
  | exhausted => exact .exhausted

/-- A state in another environment is seen as before. -/
theorem Machine.Seen.within {machine machine' : Machine} (h : machine.Seen view environment environment' machine')
    (inner inner' : Environment) :
    { machine with environment := inner }.Seen view inner inner' { machine' with environment := inner' } :=
  ⟨rfl, rfl, h.globals, h.depth, h.store, h.sink, h.time⟩

/-- In states of which one is seen in the other, each in its environment, both computations end alike. -/
def Eval.Alike (view : View) (environment environment' : Environment) (V : α → α → Prop) (body body' : Eval α) :
    Prop :=
  ∀ machine machine', machine.Seen view environment environment' machine' →
    (body machine).Seen view environment environment' (RuntimeError.Like view.tokens) V (body' machine')

namespace Eval

variable {V : α → α → Prop} {U : β → β → Prop}

theorem alike_pure {value value' : α} (hvalue : V value value') :
    Alike view environment environment' V (pure value) (pure value') :=
  fun _ _ hmachine => .done hvalue hmachine

theorem alike_fail {error error' : RuntimeError} (herror : RuntimeError.Like view.tokens error error') :
    Alike view environment environment' V (fail error) (fail error') :=
  fun _ _ hmachine => .failed herror hmachine

theorem alike_exhausted : Alike view environment environment' V exhausted exhausted :=
  fun _ _ _ => .exhausted

theorem alike_bind {first first' : Eval α} {next next' : α → Eval β}
    (hfirst : Alike view environment environment' V first first')
    (hnext : ∀ value value', V value value' → Alike view environment environment' U (next value) (next' value')) :
    Alike view environment environment' U (first >>= next) (first' >>= next') := by
  intro machine machine' hmachine
  have hends := hfirst machine machine' hmachine
  rw [bind_apply, bind_apply]
  generalize first machine = outcome, first' machine' = outcome' at hends
  cases hends with
  | done hvalue hmachine => exact hnext _ _ hvalue _ _ hmachine
  | failed herror hmachine => exact .failed herror hmachine
  | exhausted => exact .exhausted

theorem alike_environment :
    Alike view environment environment' (fun found found' => found = environment ∧ found' = environment')
      Eval.environment Eval.environment :=
  fun _ _ hmachine => .done ⟨hmachine.here, hmachine.there⟩ hmachine

theorem alike_read {f f' : Store → α}
    (hread : ∀ store store', store.Seen view store' → V (f store) (f' store')) :
    Alike view environment environment' V (read f) (read f') :=
  fun _ _ hmachine => .done (hread _ _ hmachine.store) hmachine

theorem alike_change {f f' : Store → α × Store}
    (hchange : ∀ store store', store.Seen view store' →
      V (f store).1 (f' store').1 ∧ (f store).2.Seen view (f' store').2) :
    Alike view environment environment' V (change f) (change f') := by
  intro machine machine' hmachine
  obtain ⟨hvalue, hafter⟩ := hchange _ _ hmachine.store
  exact .done hvalue ⟨hmachine.here, hmachine.there, hmachine.globals, hmachine.depth, hafter, hmachine.sink,
    hmachine.time⟩

theorem alike_entered {enter enter' : Machine → Machine} {body body' : Eval α}
    (hbody : ∀ machine machine', machine.Seen view environment environment' machine' →
      (body (enter machine)).Seen view (enter machine).environment (enter' machine').environment
        (RuntimeError.Like view.tokens) V (body' (enter' machine'))) :
    Alike view environment environment' V (entered enter body) (entered enter' body') := by
  intro machine machine' hmachine
  refine (hbody machine machine' hmachine).mapMachine fun last last' hlast => ?_
  rw [hmachine.here, hmachine.there]
  exact hlast.within environment environment'

theorem alike_counted {body body' : Eval α} (hbody : Alike view environment environment' V body body') :
    Alike view environment environment' V (counted body) (counted body') := by
  intro machine machine' hmachine
  have hdeeper : { machine with depth := machine.depth + 1 }.Seen view environment environment'
      { machine' with depth := machine'.depth + 1 } :=
    { hmachine with depth := congrArg (· + 1) hmachine.depth, store := hmachine.store }
  exact (hbody _ _ hdeeper).mapMachine fun last last' hlast =>
    { hlast with depth := hmachine.depth, store := hlast.store }

theorem alike_print (hfaithful : view.Faithful) {value value' : Value} (hvalue : value.Seen view value') :
    Alike view environment environment' Eq (print value) (print value') := by
  intro machine machine' hmachine
  have hwritten (sink : Sink) : { machine with sink }.Seen view environment environment' { machine' with sink } :=
    { hmachine with sink := rfl, store := hmachine.store }
  unfold print
  simp only
  rw [hvalue.text_eq hfaithful.tokens, hmachine.sink]
  split
  · exact .done rfl (hwritten _)
  · exact .failed (.output _) (hwritten _)

theorem alike_flush : Alike view environment environment' Eq flush flush := by
  intro machine machine' hmachine
  unfold flush
  rw [hmachine.sink]
  split
  · exact .done rfl hmachine
  · exact .failed (.output _) hmachine

/-! ### Names -/

section Names

variable (hfaithful : view.Faithful)

include hfaithful

theorem alike_lookup (henvironment : environment.Seen view environment') {use : Use} {name name' : Token}
    (hname : view.tokens use name name') :
    Alike view environment environment' (Value.Seen view) (lookup name) (lookup name') := by
  unfold lookup
  rw [hfaithful.tokens.lexeme hname]
  refine alike_bind alike_environment ?_
  rintro _ _ ⟨rfl, rfl⟩
  refine alike_bind (alike_read fun store store' hstore => hstore.lookup? henvironment name.lexeme) ?_
  intro value? value?' hvalue
  cases hvalue with
  | none => exact alike_fail (.undefinedVariable hname)
  | some hvalue => exact alike_pure hvalue

theorem alike_defineIn {scope scope' : ScopeId} (hscope : view.scopes scope = some scope') (name : String)
    {value value' : Value} (hvalue : value.Seen view value') :
    Alike view environment environment' Eq (defineIn scope name value) (defineIn scope' name value') :=
  alike_change fun _ _ hstore => ⟨rfl, hstore.define hfaithful hscope name hvalue⟩

theorem alike_assign (henvironment : environment.Seen view environment') {use : Use} {name name' : Token}
    (hname : view.tokens use name name') {value value' : Value} (hvalue : value.Seen view value') :
    Alike view environment environment' Eq (assign name value) (assign name' value') := by
  unfold assign
  rw [hfaithful.tokens.lexeme hname]
  refine alike_bind alike_environment ?_
  rintro _ _ ⟨rfl, rfl⟩
  refine alike_bind (alike_read fun store store' hstore => hstore.resolve? henvironment name.lexeme) ?_
  intro scope? scope?' hscope
  cases hscope with
  | none => exact alike_fail (.undefinedVariable hname)
  | some hscope => exact alike_defineIn hfaithful hscope name.lexeme hvalue

/-- What is defined in the innermost scope is seen if that is. -/
theorem alike_define (hinnermost : view.scopes environment.innermost = some environment'.innermost) (name : String)
    {value value' : Value} (hvalue : value.Seen view value') :
    Alike view environment environment' Eq (define name value) (define name value') := by
  refine alike_bind alike_environment ?_
  rintro _ _ ⟨rfl, rfl⟩
  exact alike_defineIn hfaithful hinnermost name hvalue

end Names

end Eval

/-! ### Objects -/

section Objects

open Eval

variable (hfaithful : view.Faithful)

include hfaithful

theorem Function.alike_bind_method {method method' : Function} (hmethod : method.Seen view method') {c c' : Class}
    (hcls : c.Seen view c') (id : Nat) :
    Alike view environment environment' (Function.Seen view) (method.bind ⟨c, id⟩) (method'.bind ⟨c', id⟩) :=
  alike_change fun _ _ hstore => hstore.bind hfaithful hmethod hcls id

theorem Instance.alike_get {c c' : Class} (hcls : c.Seen view c') (id : Nat) {use : Use} {name name' : Token}
    (hname : view.tokens use name name') :
    Alike view environment environment' (Value.Seen view) (Instance.get ⟨c, id⟩ name)
      (Instance.get ⟨c', id⟩ name') := by
  unfold Instance.get
  rw [hfaithful.tokens.lexeme hname]
  refine alike_bind (alike_read fun store store' hstore => (hstore.fields id).get? name.lexeme) ?_
  intro value? value?' hvalue
  cases hvalue with
  | some hvalue => exact alike_pure hvalue
  | none =>
      have hmethod := hcls.method? name.lexeme
      simp only
      generalize c.method? name.lexeme = method?, c'.method? name.lexeme = method?' at hmethod
      cases hmethod with
      | none => exact alike_fail (.undefinedProperty hname)
      | some hmethod =>
          refine alike_bind (Function.alike_bind_method hfaithful hmethod hcls id) fun bound bound' hbound => ?_
          exact alike_pure (.callable (.function hbound))

theorem Instance.alike_set (c c' : Class) (id : Nat) {use : Use} {name name' : Token}
    (hname : view.tokens use name name') {value value' : Value} (hvalue : value.Seen view value') :
    Alike view environment environment' Eq (Instance.set ⟨c, id⟩ name value)
      (Instance.set ⟨c', id⟩ name' value') := by
  unfold Instance.set
  rw [hfaithful.tokens.lexeme hname]
  exact alike_change fun _ _ hstore => ⟨rfl, hstore.setField id name.lexeme hvalue⟩

end Objects

/-! ### Calls -/

/-- Flows with values of which one is seen as the other. -/
inductive Flow.Seen (view : View) : Flow → Flow → Prop where
  | next : Seen view .next .next
  | returned {value value' : Value} (h : value.Seen view value') : Seen view (.returned value) (.returned value')

/-- Both environments have a scope of their own inside of what is seen of the outer ones. -/
structure Environment.Opened (view : View) (environment environment' : Environment) : Prop where
  seen : environment.Seen view environment'
  innermost : view.scopes environment.innermost = some environment'.innermost

theorem Environment.Seen.opened (h : environment.Seen view environment') {scope scope' : ScopeId}
    (hscope : view.scopes scope = some scope') :
    (environment.push scope).Opened view (environment'.push scope') :=
  ⟨h.push hscope, hscope⟩

/-- Nothing is defined in the scope that the statement stands in, as long as it is executed there itself. -/
def Stmt.definesNothing : Stmt → Bool
  | .classDecl _ _ | .function _ | .var _ _ => false
  | .conditional _ whenTrue none => whenTrue.definesNothing
  | .conditional _ whenTrue (some whenFalse) => whenTrue.definesNothing && whenFalse.definesNothing
  | .loop _ body => body.definesNothing
  | .block _ | .expression _ | .print _ | .return _ _ => true

/-- What the statement defines is seen, if it defines anything. -/
def Stmt.Ready (view : View) (environment environment' : Environment) (statement : Stmt) : Prop :=
  statement.definesNothing = true ∨ view.scopes environment.innermost = some environment'.innermost

/-- Statements are executed alike where they are ready. -/
def ExecutesAlike (view : View) (exec : Stmt → Eval Flow) : Prop :=
  ∀ environment environment' statement statement', environment.Seen view environment' →
    statement.Ready view environment environment' → Stmt.Like view.tokens statement statement' →
      Eval.Alike view environment environment' (Flow.Seen view) (exec statement) (exec statement')

section Calls

open Eval

variable {exec : Stmt → Eval Flow} (hexec : ExecutesAlike view exec)

include hexec

theorem Eval.alike_sequence (hopened : environment.Opened view environment') {statements statements' : List Stmt}
    (hstatements : List.Forall₂ (Stmt.Like view.tokens) statements statements') :
    Alike view environment environment' (Flow.Seen view) (Eval.sequence exec statements)
      (Eval.sequence exec statements') := by
  induction hstatements with
  | nil => exact alike_pure .next
  | cons hstatement _ ih =>
      refine alike_bind (hexec _ _ _ _ hopened.seen (.inr hopened.innermost) hstatement) fun flow flow' hflow => ?_
      cases hflow with
      | next => exact ih
      | returned hvalue => exact alike_pure (.returned hvalue)

variable (hfaithful : view.Faithful)

include hfaithful

theorem Eval.alike_block (henvironment : environment.Seen view environment') {statements statements' : List Stmt}
    (hstatements : List.Forall₂ (Stmt.Like view.tokens) statements statements') :
    Alike view environment environment' (Flow.Seen view)
      (entered Machine.enterBlock (Eval.sequence exec statements))
      (entered Machine.enterBlock (Eval.sequence exec statements')) := by
  refine alike_entered fun machine machine' hmachine => ?_
  obtain ⟨hscope, hstore⟩ := hmachine.store.addScope hfaithful .nil
  have hopened : machine.enterBlock.environment.Opened view machine'.enterBlock.environment := by
    rw [← hmachine.here, ← hmachine.there] at henvironment
    exact henvironment.opened hscope
  exact alike_sequence hexec hopened hstatements _ _
    ⟨rfl, rfl, hmachine.globals, hmachine.depth, hstore, hmachine.sink, hmachine.time⟩

theorem Function.alike_call {f f' : Function} (hf : f.Seen view f') {arguments arguments' : List Value}
    (harguments : List.Forall₂ (Value.Seen view) arguments arguments') :
    Alike view environment environment' (Value.Seen view) (f.call exec arguments) (f'.call exec arguments') := by
  obtain ⟨-, ⟨-, hparams, hbody⟩, hclosure⟩ := hf
  have hlexeme : Relator.LiftFun (view.tokens .name) Eq Token.lexeme Token.lexeme :=
    fun _ _ hparam => (hfaithful.tokens.lexeme hparam).symm
  have hnames := List.rel_map hlexeme hparams
  rw [List.forall₂_eq_eq_eq] at hnames
  have hentered : Alike view environment environment' (Flow.Seen view)
      (entered (·.enterBody f arguments) (Eval.sequence exec f.declaration.body))
      (entered (·.enterBody f' arguments') (Eval.sequence exec f'.declaration.body)) := by
    refine alike_entered fun machine machine' hmachine => ?_
    have hcontents := Bindings.like_ofList_zip (f.declaration.params.map Token.lexeme) harguments
    obtain ⟨hscope, hstore⟩ := hmachine.store.addScope hfaithful hcontents
    refine alike_sequence hexec (hclosure.opened hscope) hbody _ _ ?_
    unfold Machine.enterBody
    rw [← hnames]
    exact ⟨rfl, rfl, hmachine.globals, hmachine.depth, hstore, hmachine.sink, hmachine.time⟩
  rw [Function.call_eq, Function.call_eq]
  refine alike_bind hentered fun flow flow' hflow => ?_
  cases hflow with
  | next => exact alike_pure .nil
  | returned hvalue => exact alike_pure hvalue

theorem Class.alike_call {c c' : Class} (hcls : c.Seen view c') {arguments arguments' : List Value}
    (harguments : List.Forall₂ (Value.Seen view) arguments arguments') :
    Alike view environment environment' (Value.Seen view) (c.call exec arguments) (c'.call exec arguments') := by
  have hobject : Alike view environment environment' (fun object object' => ∃ id, object = ⟨c, id⟩ ∧ object' = ⟨c', id⟩)
      c.instantiate c'.instantiate := by
    have hchange : Alike view environment environment' Eq (change Store.addObject) (change Store.addObject) :=
      alike_change fun _ _ hstore => ⟨hstore.addObject.1.symm, hstore.addObject.2⟩
    exact alike_bind hchange fun id id' hid => alike_pure ⟨id, rfl, by rw [hid]⟩
  refine alike_bind hobject ?_
  rintro _ _ ⟨id, rfl, rfl⟩
  have hmethod := hcls.method? Class.initializer
  generalize c.method? Class.initializer = method?, c'.method? Class.initializer = method?' at hmethod
  cases hmethod with
  | none => exact alike_pure (.instance id hcls)
  | some hmethod =>
      refine alike_bind (Function.alike_bind_method hfaithful hmethod hcls id) fun bound bound' hbound => ?_
      refine alike_bind (Function.alike_call hexec hfaithful hbound harguments) fun _ _ _ => ?_
      exact alike_pure (.instance id hcls)

theorem Callable.alike_call {c c' : Callable} (hc : c.Seen view c') {arguments arguments' : List Value}
    (harguments : List.Forall₂ (Value.Seen view) arguments arguments') :
    Alike view environment environment' (Value.Seen view) (c.call exec arguments) (c'.call exec arguments') := by
  cases hc with
  | function hf => exact Function.alike_call hexec hfaithful hf harguments
  | «class» hcls => exact Class.alike_call hexec hfaithful hcls harguments
  | native n =>
      cases n with
      | clock =>
          intro machine machine' hmachine
          have hreading : (Value.number machine.time.read.1).Seen view (.number machine'.time.read.1) := by
            rw [hmachine.time]
            exact .number _
          exact .done hreading { hmachine with time := congrArg (·.read.2) hmachine.time }

theorem Value.alike_call {callee callee' : Value} (hcallee : callee.Seen view callee') {use : Use}
    {paren paren' : Token} (hparen : view.tokens use paren paren') {arguments arguments' : List Value}
    (harguments : List.Forall₂ (Value.Seen view) arguments arguments') :
    Alike view environment environment' (Value.Seen view) (callee.call exec paren arguments)
      (callee'.call exec paren' arguments') := by
  cases hcallee with
  | @callable c c' hc =>
      have hlength : arguments'.length = arguments.length := harguments.length_eq.symm
      intro machine machine' hmachine
      by_cases harity : arguments.length = c.arity
      · have harity' : arguments'.length = c'.arity := by rw [hlength, harity, hc.arity_eq]
        by_cases hdepth : machine.depth < maxCallDepth
        · have hdepth' : machine'.depth < maxCallDepth := hmachine.depth ▸ hdepth
          rw [Value.call_counted paren harity hdepth, Value.call_counted paren' harity' hdepth']
          exact alike_counted (Callable.alike_call hexec hfaithful hc harguments) _ _ hmachine
        · have hdepth' : ¬ machine'.depth < maxCallDepth := hmachine.depth ▸ hdepth
          rw [Value.call_of_overflow paren harity hdepth, Value.call_of_overflow paren' harity' hdepth']
          exact .failed (.stackOverflow hparen) hmachine
      · have harity' : ¬ arguments'.length = c'.arity := by rwa [hlength, hc.arity_eq]
        rw [Value.call_of_arity paren harity, Value.call_of_arity paren' harity', hlength, hc.arity_eq]
        exact .failed (.arity hparen _ _) hmachine
  | _ => exact alike_fail (.notCallable hparen)

end Calls

end Script
