import Mathlib.Data.List.Induction
import Script.Proofs.Moments.Raising
import Script.Proofs.Moments.Stock

/-!
# Where functions come from

Functions are made by declarations, and by the binding of methods. If all that is made by the tasks that are started for
requests is of the stock, then so is all that there is at any moment of a session.
-/

namespace Script

/-- The function or the class that a declaration makes. -/
inductive Moment.Makes : Moment → Value → Prop where
  | function (level : Nat) (declaration : Declaration) (machine : Machine) (held : List Value) :
      Makes ⟨level + 1, .exec (.function declaration), machine, held⟩
        (.callable (.function (machine.store.addFunction declaration machine.environment).1))
  | cls (level : Nat) (name : Token) (declarations : List Declaration) (machine : Machine) (held : List Value) :
      Makes ⟨level + 1, .exec (.classDecl name declarations), machine, held⟩
        (.callable (.class (machine.store.addClass name.lexeme declarations machine.environment).1))

namespace Stock

variable {α : Type} {s : Stock} {machine middle : Machine} {level : Nat}

/-! ### Parts of a task -/

/-- Statements of which each leaves only what is of the stock, if it is come to. -/
theorem leaves_sequence {statements : List Stmt} (h : s.Has machine)
    (hinner : ∀ before statement rest middle, statements = before ++ statement :: rest →
      Eval.sequence (exec level) before machine = .done .next middle → s.Has middle →
        s.Leaves (exec level statement middle) s.flow) :
    s.Leaves (Eval.sequence (exec level) statements machine) s.flow := by
  induction statements generalizing machine with
  | nil => exact leaves_done h trivial
  | cons statement rest ih =>
      refine leaves_bind (hinner [] statement rest machine rfl rfl h) fun flow middle hfirst hmiddle hflow => ?_
      cases flow with
      | returned value => exact leaves_done hmiddle hflow
      | next =>
          refine ih hmiddle fun before inner after last hrest hbefore hlast => ?_
          refine hinner (statement :: before) inner after last (congrArg (statement :: ·) hrest) ?_ hlast
          exact Eval.bind_eq_done_iff.mpr ⟨.next, middle, hfirst, hbefore⟩

theorem leaves_repeatWhile {condition : Expr} {body : Stmt} {start : Machine}
    (hcondition : ∀ middle, Turns level condition body start middle → s.Has middle →
      s.Leaves (eval level condition middle) s.value)
    (hbody : ∀ middle value tested, Turns level condition body start middle →
      eval level condition middle = .done value tested → value.truthy = true → s.Has tested →
        s.Leaves (exec level body tested) s.flow)
    (hturns : Turns level condition body start machine) (h : s.Has machine) (turns : Nat) :
    s.Leaves (Eval.repeatWhile (eval level condition) (exec level body) turns machine) s.flow := by
  induction turns generalizing machine with
  | zero => exact leaves_exhausted
  | succ turns ih =>
      refine leaves_bind (hcondition machine hturns h) fun value tested htested hhas _ => ?_
      split
      · next htrue =>
          have hturn := hbody machine value tested hturns htested htrue hhas
          refine leaves_bind hturn fun flow after hrun hafter hflow => ?_
          cases flow with
          | next => exact ih (.more hturns htested htrue hrun) hafter
          | returned value => exact leaves_done hafter hflow
      · exact leaves_done hhas trivial

/-- A call leaves only what is of the stock if the body that it runs does. -/
theorem leaves_call {callable : Callable} {arguments : List Value} (h : s.Has machine)
    (hcallable : s.value (.callable callable)) (harguments : ∀ value ∈ arguments, s.value value)
    (hinner : ∀ f bound before statement rest middle, callable.Calls machine f bound → s.function f →
      f.declaration.body = before ++ statement :: rest →
        Eval.sequence (exec level) before (bound.enterBody f arguments) = .done .next middle → s.Has middle →
          s.Leaves (exec level statement middle) s.flow) :
    s.Leaves (callable.call (exec level) arguments machine) s.value := by
  have hfunction {f : Function} {bound : Machine} (hcalls : callable.Calls machine f bound) (hbound : s.Has bound)
      (hf : s.function f) : s.Leaves (f.call (exec level) arguments bound) s.value := by
    rw [Function.call_eq]
    have hbody : s.Leaves (Eval.sequence (exec level) f.declaration.body (bound.enterBody f arguments)) s.flow :=
      leaves_sequence (hbound.enterBody f harguments) fun before statement rest middle hsplit hbefore hmiddle =>
        hinner f bound before statement rest middle hcalls hf hsplit hbefore hmiddle
    have hentered : s.Leaves
        (Eval.entered (·.enterBody f arguments) (Eval.sequence (exec level) f.declaration.body) bound) s.flow :=
      hbody.mapMachine fun _ => rfl
    refine leaves_bind hentered fun flow middle _ hmiddle hflow => ?_
    cases flow with
    | next => exact leaves_done hmiddle trivial
    | returned value => exact leaves_done hmiddle hflow
  cases callable with
  | function f => exact hfunction (.function f machine) h hcallable
  | «class» c =>
      refine leaves_bind (h.instantiate hcallable) fun object made hobject hmade hcls => ?_
      cases hmethod : c.method? Class.initializer with
      | none => exact leaves_done hmade hcls
      | some method =>
          refine leaves_bind (hmade.bind (hcallable _ method hmethod) hcls) fun f bound hbound hhas hf => ?_
          refine leaves_bind (hfunction (.class hobject hmethod hbound) hhas hf) fun _ last _ hlast _ => ?_
          exact leaves_done hlast hcls
  | native n =>
      cases n
      exact leaves_done h trivial

/-! ### Tasks -/

variable (s) in
/-- What the task of the moment gives and leaves is of the stock. -/
def After (moment : Moment) : Prop :=
  match moment.task with
  | .eval expression => s.Leaves (eval moment.level expression moment.machine) s.value
  | .exec statement => s.Leaves (exec moment.level statement moment.machine) s.flow

variable (s) in
/-- Whatever the task starts, it gives and leaves what is of the stock, if it finds no more. -/
def Inside (outer : Moment) : Prop :=
  ∀ inner, outer.Starts inner → s.Has inner.machine → (∀ value ∈ inner.held, s.value value) → s.After inner

section Expressions

variable {expression : Expr} {held : List Value} (hinside : s.Inside ⟨level + 1, .eval expression, machine, held⟩)

include hinside

theorem Inside.values {before rest : List Expr} {values : List Value} (h : s.Has machine)
    (hparts : expression.parts = before ++ rest)
    (hvalues : Eval.values (eval level) before machine = .done values middle)
    (hgoesOn : ∀ fewer, fewer <+: values → fewer.length < values.length → expression.goesOn fewer = true) :
    s.Has middle ∧ ∀ value ∈ values, s.value value := by
  induction before using List.reverseRecOn generalizing values middle rest with
  | nil =>
      cases hvalues
      exact ⟨h, List.forall_mem_nil _⟩
  | append_singleton before last ih =>
      rw [List.append_assoc] at hparts
      obtain ⟨earlier, start, value, hbefore, hlast, rfl⟩ := Eval.values_concat_eq_done_iff.mp hvalues
      have hgoes {fewer : List Value} (h : fewer <+: earlier) : expression.goesOn fewer = true := by
        refine hgoesOn fewer (h.trans (List.prefix_append _ _)) ?_
        rw [List.length_append, List.length_singleton]
        exact Nat.lt_succ_of_le h.length_le
      obtain ⟨hstart, hearlier⟩ := ih hparts hbefore fun fewer hfewer _ => hgoes hfewer
      have hgives := hinside _ (.operand hparts hbefore (hgoes List.prefix_rfl)) hstart hearlier
      obtain ⟨hmiddle, hvalue⟩ := Leaves.of_done hgives hlast
      exact ⟨hmiddle, List.forall_mem_append.mpr ⟨hearlier, List.forall_mem_singleton.mpr hvalue⟩⟩

theorem Inside.operands {before rest : List Expr} {values : List Value} (h : s.Has middle)
    (hheld : ∀ value ∈ values, s.value value) (hparts : expression.parts = before ++ rest)
    (hvalues : Eval.values (eval level) before machine = .done values middle) :
    s.Leaves (expression.operands (eval level) values rest middle) fun values => ∀ value ∈ values, s.value value := by
  induction rest generalizing before values middle with
  | nil => exact leaves_done h hheld
  | cons operand rest ih =>
      unfold Expr.operands
      split
      · next hgoesOn =>
          have hgives := hinside _ (.operand hparts hvalues hgoesOn) h hheld
          have hmore : expression.parts = before ++ [operand] ++ rest := by
            rw [hparts, List.append_assoc]
            rfl
          refine leaves_bind hgives fun value last hlast hhas hvalue => ih hhas ?_ hmore ?_
          · exact List.forall_mem_append.mpr ⟨hheld, List.forall_mem_singleton.mpr hvalue⟩
          · exact Eval.values_concat_eq_done_iff.mpr ⟨values, middle, value, hvalues, hlast, rfl⟩
      · exact leaves_done h hheld

end Expressions

/-- What an expression makes of its operands is of the stock if calls are. -/
theorem leaves_finish {expression : Expr} {values : List Value} (h : s.Has machine)
    (hvalues : ∀ value ∈ values, s.value value)
    (hcall : ∀ callee paren arguments called rest, expression = .call callee paren arguments →
      values = called :: rest → s.Leaves (called.call (exec level) paren rest machine) s.value) :
    s.Leaves (expression.finish (exec level) values machine) s.value := by
  have hfirst {first : Value} {others : List Value} (h : ∀ value ∈ first :: others, s.value value) : s.value first :=
    h first List.mem_cons_self
  unfold Expr.finish
  split
  · exact leaves_bind (h.assign _ (hfirst hvalues)) fun _ _ _ hhas _ => leaves_done hhas (hfirst hvalues)
  · exact h.ofOperator _ fun _ => Kind.isPlain_binary
  · exact hcall _ _ _ _ _ rfl rfl
  · split
    · exact h.get _ (hfirst hvalues)
    · exact leaves_failed h
  · exact leaves_done h (hfirst hvalues)
  · exact leaves_done h (hfirst hvalues)
  · exact leaves_done h (hvalues _ (by simp))
  · exact leaves_done h (value_of_isPlain (Value.isPlain_ofLiteral _))
  · have hvalue := hvalues _ (List.mem_cons_of_mem _ List.mem_cons_self)
    exact leaves_bind (h.set _ _ hvalue) fun _ _ _ hhas _ => leaves_done hhas hvalue
  · exact leaves_failed h
  · exact h.lookup _
  · exact h.ofOperator _ fun _ => Kind.isPlain_unary
  · exact h.lookup _
  · exact leaves_exhausted

theorem Inside.eval {expression : Expr} {held : List Value}
    (hinside : s.Inside ⟨level + 1, .eval expression, machine, held⟩) (h : s.Has machine) :
    s.Leaves (Script.eval (level + 1) expression machine) s.value := by
  change s.Leaves (expression.evalWith (Script.eval level) (Script.exec level) machine) s.value
  rw [Expr.evalWith_eq]
  have hnone : Eval.values (Script.eval level) [] machine = .done [] machine := rfl
  have hoperands := hinside.operands h (List.forall_mem_nil _) (List.nil_append _).symm hnone
  refine leaves_bind hoperands fun values called hrun hcalled hvalues => ?_
  refine leaves_finish hcalled hvalues fun callee paren arguments callable rest heq hsplit => ?_
  subst heq hsplit
  rw [List.forall_mem_cons] at hvalues
  -- All operands of a call are evaluated, whatever their values are.
  have hall (values : List Value) : (Expr.call callee paren arguments).goesOn values = true := rfl
  rw [Expr.operands_of_goesOn hall, map_eq_pure_bind] at hrun
  obtain ⟨values, last, hoperands, hdone⟩ := Eval.bind_eq_done_iff.mp hrun
  cases hdone
  cases callable with
  | callable callable =>
      by_cases harity : rest.length = callable.arity
      · by_cases hdepth : called.depth < maxCallDepth
        · rw [Value.call_counted paren harity hdepth]
          have hdeeper : s.Has { called with depth := called.depth + 1 } := hcalled
          refine (leaves_call hdeeper hvalues.1 hvalues.2 ?_).mapMachine fun _ => rfl
          intro f bound before statement others middle hcalls hf hbody hbefore hmiddle
          refine hinside _ (.body hoperands harity hdepth hcalls hbody hbefore) hmiddle ?_
          exact List.forall_mem_cons.mpr ⟨hvalues.1, List.forall_mem_cons.mpr ⟨hf, hvalues.2⟩⟩
        · rw [Value.call_of_overflow paren harity hdepth]
          exact leaves_failed hcalled
      · rw [Value.call_of_arity paren harity]
        exact leaves_failed hcalled
  | _ => exact leaves_failed hcalled

section Statements

variable {statement : Stmt} {held : List Value} (hinside : s.Inside ⟨level + 1, .exec statement, machine, held⟩)
  (h : s.Has machine)

include hinside h

theorem Inside.first {expression : Expr} {others : List Task} (hparts : statement.parts = .eval expression :: others) :
    s.Leaves (Script.eval level expression machine) s.value :=
  hinside _ (.first hparts) h (List.forall_mem_nil _)

theorem Inside.exec
    (hmakes : ∀ value, Moment.Makes ⟨level + 1, .exec statement, machine, held⟩ value → s.value value) :
    s.Leaves (Script.exec (level + 1) statement machine) s.flow := by
  have hnext {α : Type} {post : α → Prop} {first : Eval α} (hfirst : s.Leaves (first machine) post) :
      s.Leaves ((first >>= fun _ => pure Flow.next) machine) s.flow :=
    leaves_bind hfirst fun _ _ _ hhas _ => leaves_done hhas trivial
  have hdefine {middle : Machine} (hhas : s.Has middle) (name : String) {value : Value} (hvalue : s.value value) :
      s.Leaves ((Eval.define name value >>= fun _ => pure Flow.next) middle) s.flow :=
    leaves_bind (hhas.define name hvalue) fun _ _ _ hlast _ => leaves_done hlast trivial
  cases statement with
  | block statements =>
      have hbody : s.Leaves (Eval.sequence (Script.exec level) statements machine.enterBlock) s.flow := by
        refine leaves_sequence h.enterBlock fun before inner rest middle hsplit hbefore hmiddle => ?_
        subst hsplit
        exact hinside _ (.inner hbefore) hmiddle (List.forall_mem_nil _)
      exact hbody.mapMachine fun _ => rfl
  | classDecl name declarations =>
      have hmade : s.Has
          { machine with store := (machine.store.addClass name.lexeme declarations machine.environment).2 } := by
        refine h.of_stored fun value hstored => .inl ?_
        rwa [Store.addClass_eq] at hstored
      exact hdefine hmade name.lexeme (hmakes _ (.cls ..))
  | function declaration =>
      have hmade : s.Has
          { machine with store := (machine.store.addFunction declaration machine.environment).2 } := h
      exact hdefine hmade declaration.name.lexeme (hmakes _ (.function ..))
  | expression e => exact hnext (hinside.first h rfl)
  | conditional condition whenTrue whenFalse =>
      refine leaves_bind (hinside.first h rfl) fun value middle hcondition hmiddle _ => ?_
      split
      · next htrue => exact hinside _ (.branch hcondition (if_pos htrue)) hmiddle (List.forall_mem_nil _)
      · next htrue =>
          cases whenFalse with
          | some branch => exact hinside _ (.branch hcondition (if_neg htrue)) hmiddle (List.forall_mem_nil _)
          | none => exact leaves_done hmiddle trivial
  | print e =>
      refine leaves_bind (hinside.first h rfl) fun value middle _ hmiddle _ => ?_
      exact leaves_bind (hmiddle.print value) fun _ _ _ hlast _ => leaves_done hlast trivial
  | «return» keyword value =>
      cases value with
      | some e =>
          exact leaves_bind (hinside.first h rfl) fun value middle _ hmiddle hvalue => leaves_done hmiddle hvalue
      | none => exact leaves_done h trivial
  | var name initializer =>
      cases initializer with
      | some e =>
          exact leaves_bind (hinside.first h rfl) fun value middle _ hmiddle hvalue => hdefine hmiddle _ hvalue
      | none =>
          have hnil : s.value .nil := trivial
          exact hdefine h name.lexeme hnil
  | loop condition body =>
      refine leaves_repeatWhile ?_ ?_ (.none machine) h level
      · exact fun middle hturns hmiddle => hinside _ (.condition hturns) hmiddle (List.forall_mem_nil _)
      · exact fun middle value tested hturns hcondition htrue htested =>
          hinside _ (.turn hturns hcondition htrue) htested (List.forall_mem_nil _)

end Statements

theorem Inside.turns {condition : Expr} {body : Stmt} {held : List Value}
    (hinside : s.Inside ⟨level + 1, .exec (.loop condition body), machine, held⟩) (h : s.Has machine)
    (hturns : Turns level condition body machine middle) : s.Has middle := by
  induction hturns with
  | none => exact h
  | more hturns hcondition htrue hbody ih =>
      have htested := hinside _ (.condition hturns) ih (List.forall_mem_nil _)
      have hstart := (Leaves.of_done htested hcondition).1
      have hlast := hinside _ (.turn hturns hcondition htrue) hstart (List.forall_mem_nil _)
      exact (Leaves.of_done hlast hbody).1

theorem Has.calls {callable : Callable} {f : Function} (h : s.Has machine) (hcallable : s.value (.callable callable))
    (hcalls : callable.Calls machine f middle) : s.Has middle ∧ s.function f := by
  cases hcalls with
  | function => exact ⟨h, hcallable⟩
  | «class» hobject hmethod hbound =>
      obtain ⟨hmade, hcls⟩ := (h.instantiate hcallable).of_done hobject
      exact (hmade.bind (hcallable _ _ hmethod) hcls).of_done hbound

/-- What is started finds only what is of the stock. -/
theorem Inside.starts {outer inner : Moment} (hinside : s.Inside outer) (h : s.Has outer.machine)
    (hstarts : outer.Starts inner) : s.Has inner.machine ∧ ∀ value ∈ inner.held, s.value value := by
  cases hstarts with
  | operand hparts hvalues hgoesOn =>
      refine hinside.values h hparts hvalues fun fewer hfewer _ => ?_
      exact Expr.goesOn_of_prefix (Eval.length_values_lt hparts hvalues) hgoesOn hfewer
  | @body level callee paren arguments callable values _ _ called bound _ f _ before _ hvalues harity hdepth hcalls
      hbody hbefore =>
      have hparts : (Expr.call callee paren arguments).parts = callee :: arguments ++ [] := (List.append_nil _).symm
      obtain ⟨hcalled, hoperands⟩ := hinside.values h hparts hvalues fun _ _ _ => rfl
      rw [List.forall_mem_cons] at hoperands
      have hdeeper : s.Has { called with depth := called.depth + 1 } := hcalled
      obtain ⟨hbound, hf⟩ := hdeeper.calls hoperands.1 hcalls
      have hheld : ∀ value ∈ .callable callable :: .callable (.function f) :: values, s.value value :=
        List.forall_mem_cons.mpr ⟨hoperands.1, List.forall_mem_cons.mpr ⟨hf, hoperands.2⟩⟩
      have hsequence : s.Leaves (Eval.sequence (Script.exec level) before (bound.enterBody f values)) s.flow := by
        refine leaves_sequence (hbound.enterBody f hoperands.2) fun first last others middle hsplit hfirst hmiddle => ?_
        rw [hsplit, List.append_assoc] at hbody
        exact hinside _ (.body hvalues harity hdepth hcalls hbody hfirst) hmiddle hheld
      exact ⟨(hsequence.of_done hbefore).1, hheld⟩
  | first hparts => exact ⟨h, List.forall_mem_nil _⟩
  | branch hcondition hbranch =>
      have hgives := hinside _ (.first rfl) h (List.forall_mem_nil _)
      exact ⟨(Leaves.of_done hgives hcondition).1, List.forall_mem_nil _⟩
  | condition hturns => exact ⟨hinside.turns h hturns, List.forall_mem_nil _⟩
  | turn hturns hcondition htrue =>
      have hgives := hinside _ (.condition hturns) (hinside.turns h hturns) (List.forall_mem_nil _)
      exact ⟨(Leaves.of_done hgives hcondition).1, List.forall_mem_nil _⟩
  | @inner level statement before rest _ machine _ hbefore =>
      have hsequence : s.Leaves (Eval.sequence (Script.exec level) before machine.enterBlock) s.flow := by
        refine leaves_sequence (Has.enterBlock h) fun first last others middle hsplit hfirst hmiddle => ?_
        rw [hsplit, List.append_assoc] at hinside
        exact hinside _ (.inner hfirst) hmiddle (List.forall_mem_nil _)
      exact ⟨(hsequence.of_done hbefore).1, List.forall_mem_nil _⟩

/-! ### Sessions -/

/-- The property is of all that is started for requests and by what has it, and what is made then is of the stock.
With more requests there is more in stock. -/
structure Supplies (p : List Request → Moment → Prop) (s : List Request → Stock) : Prop where
  begins {requests : List Request} {results : List Value} {moment : Moment} :
    InProgress requests results [moment] → p requests moment
  starts {requests : List Request} {outer inner : Moment} : p requests outer → outer.Starts inner →
    (∀ value ∈ inner.held, (s requests).value value) → p requests inner
  makes {requests : List Request} {moment : Moment} {value : Value} : p requests moment → moment.Makes value →
    (s requests).value value
  mono {requests : List Request} {request : Request} {value : Value} : (s requests).value value →
    (s (request :: requests)).value value

namespace Supplies

variable {p : List Request → Moment → Prop} {s : List Request → Stock} (hs : Supplies p s) {requests : List Request}

include hs

theorem after {moment : Moment} (h : p requests moment) (hhas : (s requests).Has moment.machine) :
    (s requests).After moment := by
  obtain ⟨level, task, machine, held⟩ := moment
  induction level generalizing task machine held with
  | zero => cases task <;> exact leaves_exhausted
  | succ level ih =>
      have hinside : (s requests).Inside ⟨level + 1, task, machine, held⟩ := by
        intro inner hstarts hinner hheld
        have hlevel : inner.level = level := (Nat.succ.inj hstarts.level_eq).symm
        obtain ⟨_, task, machine, held⟩ := inner
        subst hlevel
        exact ih task machine held (hs.starts h hstarts hheld) hinner
      cases task with
      | eval expression => exact hinside.eval hhas
      | exec statement => exact hinside.exec hhas fun value hmakes => hs.makes h hmakes

theorem inside {outer : Moment} (h : p requests outer) : (s requests).Inside outer :=
  fun _ hstarts hinner hheld => hs.after (hs.starts h hstarts hheld) hinner

theorem has_of_run {results : List Value} {machine after : Machine} {level : Nat} {source : String}
    {value? : Option Unit} (h : Session requests results machine)
    (hhas : (s (.run source :: requests)).Has machine) (hends : (machine.run level source).Ends value? after) :
    (s (.run source :: requests)).Has after := by
  simp only [Machine.run] at hends
  split at hends
  · cases hends
    exact hhas
  · next hread =>
      have htasks : (Request.run source).tasks = (readProgram source).tree.map .exec := if_neg hread
      have hprogram : (s (.run source :: requests)).Leaves
          (Eval.sequence (exec level) (readProgram source).tree machine) (s (.run source :: requests)).flow := by
        refine leaves_sequence hhas fun before statement rest middle hsplit hbefore hmiddle => ?_
        exact hs.after (hs.begins (.statement h (hsplit ▸ htasks) hbefore)) hmiddle
      have hall : (s (.run source :: requests)).Leaves (interpret level (readProgram source).tree machine)
          fun _ => True :=
        leaves_bind hprogram fun _ _ _ hlast _ => hlast.flush
      exact (hall value? after (Outcome.ends_mapError_iff.mp hends)).1

theorem has_of_evaluate {results : List Value} {machine after : Machine} {level : Nat} {source : String}
    {value? : Option Value} (h : Session requests results machine)
    (hhas : (s (.evaluate source :: requests)).Has machine)
    (hends : (machine.evaluate level source).Ends value? after) :
    (s (.evaluate source :: requests)).Has after ∧
      ∀ value ∈ value?, (s (.evaluate source :: requests)).value value := by
  have hrefused {value? : Option Value} {diagnostics : Diagnostics}
      (hends : (Outcome.failed (RunError.unreadable diagnostics) machine).Ends value? after) :
      (s (.evaluate source :: requests)).Has after ∧
        ∀ value ∈ value?, (s (.evaluate source :: requests)).value value := by
    cases hends
    exact ⟨hhas, fun _ h => absurd h (Option.not_mem_none _)⟩
  simp only [Machine.evaluate] at hends
  split at hends
  · next expression htree =>
      split at hends
      · exact hrefused hends
      · next hread =>
          have htasks : (Request.evaluate source).tasks = [.eval expression] := by
            simp only [Request.tasks, if_neg hread, htree]
            rfl
          have hgives := hs.after (hs.begins (.expression level h htasks)) hhas
          exact hgives value? after (Outcome.ends_mapError_iff.mp hends)
  · exact hrefused hends

theorem session {results : List Value} {machine : Machine} (h : Session requests results machine) :
    (s requests).Has machine ∧ ∀ value ∈ results, (s requests).value value := by
  induction h with
  | start sink time =>
      refine ⟨fun value hstored => ?_, List.forall_mem_nil _⟩
      rw [Machine.eq_clock_of_start hstored]
      trivial
  | run h level source hends ih =>
      refine ⟨hs.has_of_run h (fun value hstored => hs.mono (ih.1 value hstored)) hends, fun value hmem => ?_⟩
      exact hs.mono (ih.2 value hmem)
  | evaluate h level source hends ih =>
      obtain ⟨hafter, hvalue⟩ := hs.has_of_evaluate h (fun value hstored => hs.mono (ih.1 value hstored)) hends
      refine ⟨hafter, fun value hmem => ?_⟩
      rcases List.mem_append.mp hmem with hnew | hbefore
      · exact hvalue value (Option.mem_toList.mp hnew)
      · exact hs.mono (ih.2 value hbefore)
  | clock _ time ih => exact ih

theorem has_of_session {results : List Value} {machine : Machine} (h : Session requests results machine)
    (request : Request) : (s (request :: requests)).Has machine :=
  fun value hstored => hs.mono ((hs.session h).1 value hstored)

/-- At each moment of a session there is only what is of the stock, and what is started has the property. -/
theorem inProgress {results : List Value} {stack : List Moment} (h : InProgress requests results stack) :
    ∀ moment ∈ stack.head?, p requests moment ∧ (s requests).Has moment.machine ∧
      ∀ value ∈ moment.held, (s requests).value value := by
  induction h with
  | @statement requests _ machine _ source _ before _ level h hprogram hbefore =>
      rintro _ ⟨⟩
      have hsequence : (s (.run source :: requests)).Leaves (Eval.sequence (exec level) before machine)
          (s (.run source :: requests)).flow := by
        refine leaves_sequence (hs.has_of_session h _) fun first last others middle hsplit hfirst hmiddle => ?_
        rw [hsplit, List.append_assoc] at hprogram
        exact hs.after (hs.begins (.statement h hprogram hfirst)) hmiddle
      exact ⟨hs.begins (.statement h hprogram hbefore), (hsequence.of_done hbefore).1, List.forall_mem_nil _⟩
  | expression level h hexpression =>
      rintro _ ⟨⟩
      exact ⟨hs.begins (.expression level h hexpression), hs.has_of_session h _, List.forall_mem_nil _⟩
  | deeper _ hstarts ih =>
      rintro _ ⟨⟩
      obtain ⟨houter, hhas, -⟩ := ih _ rfl
      obtain ⟨hinner, hheld⟩ := (hs.inside houter).starts hhas hstarts
      exact ⟨hs.starts houter hstarts hheld, hinner, hheld⟩

end Supplies

end Stock

end Script
