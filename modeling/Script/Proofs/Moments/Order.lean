import Mathlib.Data.List.Infix
import Script.Proofs.Moments.Operands

/-!
# The order of moments

What a task starts, it starts one after the other: each of these tasks comes to its end before the next one begins.
So of two states while a task is in progress, one precedes the other.
-/

namespace Script

variable {requests : List Request} {results : List Value} {around : List Moment} {level : Nat}
  {machine start middle after : Machine} {held : List Value}

theorem InProgress.precedes_of_ends {moment : Moment} {values : List Value}
    (h : InProgress requests results (moment :: around)) (hends : moment.Ends values after) :
    Precedes moment.machine after :=
  .single ⟨requests, .ends h (.start moment) hends⟩

theorem InProgress.precedes_of_passes {moment : Moment} (h : InProgress requests results (moment :: around))
    (hpasses : moment.Passes machine) : Precedes moment.machine machine := by
  induction hpasses generalizing around with
  | start => exact .refl
  | inside hstarts _ ih => exact .head ⟨requests, .starts h hstarts⟩ (ih (h.deeper hstarts))
  | stop hends => exact h.precedes_of_ends hends

namespace Moment

/-- The first task ends before the second one begins. -/
def EndsBefore (first second : Moment) : Prop :=
  ∃ values after, first.Ends values after ∧ Precedes after second.machine

/-- The moments are the same, or one task ends before the other begins. -/
def Comparable (first second : Moment) : Prop :=
  first = second ∨ first.EndsBefore second ∨ second.EndsBefore first

theorem EndsBefore.precedes {first second : Moment} {around' : List Moment} {machine' : Machine}
    (hbefore : first.EndsBefore second) (h : InProgress requests results (first :: around))
    (h' : InProgress requests results (second :: around')) (hpasses : first.Passes machine)
    (hpasses' : second.Passes machine') : Precedes machine machine' := by
  obtain ⟨values, after, hends, hafter⟩ := hbefore
  exact .head ⟨requests, .ends h hpasses hends⟩ (hafter.trans (h'.precedes_of_passes hpasses'))

theorem Comparable.symm {first second : Moment} (h : first.Comparable second) : second.Comparable first :=
  h.imp Eq.symm Or.symm

theorem Comparable.of_eq_or_endsBefore {first second : Moment} (h : first = second ∨ first.EndsBefore second) :
    first.Comparable second :=
  h.imp_right .inl

end Moment

/-! ### Statements -/

/-- Each of the statements is in progress in its turn, when those before it are executed. -/
def InTurn (requests : List Request) (results : List Value) (around : List Moment) (level : Nat) (held : List Value)
    (statements : List Stmt) (start : Machine) : Prop :=
  ∀ before statement after middle, statements = before ++ statement :: after →
    Eval.sequence (exec level) before start = .done .next middle →
      InProgress requests results (⟨level, .exec statement, middle, held⟩ :: around)

namespace InTurn

variable {statements before rest : List Stmt} {statement : Stmt}

theorem left (h : InTurn requests results around level held (statements ++ rest) start) :
    InTurn requests results around level held statements start := by
  intro before statement after middle hsplit hbefore
  refine h before statement (after ++ rest) middle ?_ hbefore
  rw [hsplit, List.append_assoc, List.cons_append]

theorem right (h : InTurn requests results around level held (before ++ rest) start)
    (hbefore : Eval.sequence (exec level) before start = .done .next middle) :
    InTurn requests results around level held rest middle := by
  intro more statement after last hsplit hmore
  refine h (before ++ more) statement after last ?_ ?_
  · rw [hsplit, List.append_assoc]
  · rw [Eval.sequence_append hbefore, hmore]

theorem head (h : InTurn requests results around level held (statement :: rest) start) :
    InProgress requests results (⟨level, .exec statement, start, held⟩ :: around) :=
  h [] statement rest start rfl rfl

theorem tail (h : InTurn requests results around level held (statement :: rest) start)
    (hstatement : exec level statement start = .done .next middle) :
    InTurn requests results around level held rest middle := by
  intro before other after last hsplit hbefore
  refine h (statement :: before) other after last (congrArg _ hsplit) ?_
  exact Eval.bind_eq_done_iff.mpr ⟨.next, middle, hstatement, hbefore⟩

theorem precedes (h : InTurn requests results around level held statements start) {flow? : Option Flow}
    (hends : (Eval.sequence (exec level) statements start).Ends flow? after) : Precedes start after := by
  induction statements generalizing start with
  | nil =>
      cases hends
      exact .refl
  | cons statement rest ih =>
      obtain ⟨first?, last, hfirst, rfl | ⟨hdone, hrest⟩⟩ := Eval.ends_sequence_cons hends
      · exact h.head.precedes_of_ends (.exec hfirst)
      · exact (h.head.precedes_of_ends (.exec hfirst)).trans (ih (h.tail hdone) hrest)

/-- A statement that is begun comes to an end if all of them together do. -/
theorem exists_ends (h : InTurn requests results around level held (statement :: rest) start) {flow? : Option Flow}
    (hends : (Eval.sequence (exec level) (statement :: rest) start).Ends flow? after) :
    ∃ values last, (⟨level, .exec statement, start, held⟩ : Moment).Ends values last ∧ Precedes last after := by
  obtain ⟨first?, last, hfirst, rfl | ⟨hdone, hrest⟩⟩ := Eval.ends_sequence_cons hends
  · exact ⟨_, last, .exec hfirst, .refl⟩
  · exact ⟨_, last, .exec hfirst, (h.tail hdone).precedes hrest⟩

variable {before' after after' : List Stmt} {statement' : Stmt} {middle' : Machine}

theorem eq_or_endsBefore (h : InTurn requests results around level held statements start)
    (hsplit : statements = before ++ statement :: after)
    (hbefore : Eval.sequence (exec level) before start = .done .next middle)
    (hsplit' : statements = before' ++ statement' :: after')
    (hbefore' : Eval.sequence (exec level) before' start = .done .next middle') (hearlier : before <+: before') :
    (⟨level, .exec statement, middle, held⟩ : Moment) = ⟨level, .exec statement', middle', held⟩ ∨
      Moment.EndsBefore ⟨level, .exec statement, middle, held⟩ ⟨level, .exec statement', middle', held⟩ := by
  -- What lies between the two begins with the first of them, unless there is nothing.
  obtain ⟨more, rfl⟩ := hearlier
  rw [Eval.sequence_append hbefore] at hbefore'
  rw [hsplit'] at h
  rw [hsplit', List.append_assoc, List.append_cancel_left_eq] at hsplit
  cases more with
  | nil =>
      cases hsplit
      cases hbefore'
      exact .inl rfl
  | cons first more =>
      obtain ⟨rfl, -⟩ := List.cons.inj hsplit
      have hturn := (h.left.right hbefore).exists_ends (.of_done hbefore')
      exact .inr hturn

/-- Of two statements that are begun in their turn, one ends before the other begins. -/
theorem comparable (h : InTurn requests results around level held statements start)
    (hsplit : statements = before ++ statement :: after)
    (hbefore : Eval.sequence (exec level) before start = .done .next middle)
    (hsplit' : statements = before' ++ statement' :: after')
    (hbefore' : Eval.sequence (exec level) before' start = .done .next middle') :
    Moment.Comparable ⟨level, .exec statement, middle, held⟩ ⟨level, .exec statement', middle', held⟩ := by
  rcases List.prefix_or_prefix_of_prefix (hsplit ▸ List.prefix_append before _)
    (hsplit' ▸ List.prefix_append before' _) with hearlier | hearlier
  · exact .of_eq_or_endsBefore (h.eq_or_endsBefore hsplit hbefore hsplit' hbefore' hearlier)
  · exact .symm (.of_eq_or_endsBefore (h.eq_or_endsBefore hsplit' hbefore' hsplit hbefore hearlier))

end InTurn

/-! ### Operands and calls -/

section Operands

variable {expression operand operand' : Expr} {before before' operands after after' : List Expr}
  {values values' all : List Value} {middle' last : Machine}

/-- From the state that some operands leave, the next ones lead to a later one. -/
theorem precedes_of_values
    (h : InProgress requests results (⟨level + 1, .eval expression, machine, held⟩ :: around))
    (hparts : expression.parts = before ++ operands ++ after)
    (hvalues : Eval.values (eval level) before machine = .done values middle)
    (hall : Eval.values (eval level) (before ++ operands) machine = .done all last)
    (hgoesOn : ∀ fewer, fewer <+: all → expression.goesOn fewer = true) : Precedes middle last := by
  induction operands generalizing before values middle with
  | nil =>
      rw [List.append_nil, hvalues] at hall
      cases hall
      exact .refl
  | cons operand rest ih =>
      obtain ⟨value, next, hoperand, hmore, hinitial⟩ := Eval.exists_of_values_append_cons hall hvalues
      have hsplit : expression.parts = before ++ operand :: (rest ++ after) := by
        rw [hparts, List.append_assoc, List.cons_append]
      have hprogress :=
        h.deeper (.operand hsplit hvalues (hgoesOn values ((List.prefix_append _ _).trans hinitial)))
      have hnext : Precedes middle next := hprogress.precedes_of_ends (.eval (.of_done hoperand))
      rw [List.append_cons] at hparts hall
      exact hnext.trans (ih hparts hmore hall)

/-- An operand that is begun comes to an end if others behind it are evaluated. -/
theorem exists_ends_of_values
    (h : InProgress requests results (⟨level + 1, .eval expression, machine, held⟩ :: around))
    (hparts : expression.parts = before ++ operand :: operands ++ after)
    (hvalues : Eval.values (eval level) before machine = .done values middle)
    (hall : Eval.values (eval level) (before ++ operand :: operands) machine = .done all last)
    (hgoesOn : ∀ fewer, fewer <+: all → expression.goesOn fewer = true) :
    ∃ value next, (⟨level, .eval operand, middle, values⟩ : Moment).Ends value next ∧ Precedes next last := by
  obtain ⟨value, next, hoperand, hmore, -⟩ := Eval.exists_of_values_append_cons hall hvalues
  rw [List.append_cons] at hparts hall
  exact ⟨[value], next, .eval (.of_done hoperand), precedes_of_values h hparts hmore hall hgoesOn⟩

theorem eq_or_endsBefore_of_operands
    (h : InProgress requests results (⟨level + 1, .eval expression, machine, held⟩ :: around))
    (hparts : expression.parts = before ++ operand :: after)
    (hvalues : Eval.values (eval level) before machine = .done values middle)
    (hparts' : expression.parts = before' ++ operand' :: after')
    (hvalues' : Eval.values (eval level) before' machine = .done values' middle')
    (hgoesOn' : expression.goesOn values' = true) (hearlier : before <+: before') :
    (⟨level, .eval operand, middle, values⟩ : Moment) = ⟨level, .eval operand', middle', values'⟩ ∨
      Moment.EndsBefore ⟨level, .eval operand, middle, values⟩ ⟨level, .eval operand', middle', values'⟩ := by
  have hlength := Eval.length_values_lt hparts' hvalues'
  obtain ⟨more, rfl⟩ := hearlier
  rw [hparts', List.append_assoc, List.append_cancel_left_eq] at hparts
  cases more with
  | nil =>
      cases hparts
      rw [List.append_nil, hvalues] at hvalues'
      cases hvalues'
      exact .inl rfl
  | cons first more =>
      obtain ⟨rfl, -⟩ := List.cons.inj hparts
      exact .inr (exists_ends_of_values h hparts' hvalues hvalues'
        fun fewer hfewer => Expr.goesOn_of_prefix hlength hgoesOn' hfewer)

end Operands

theorem Callable.Calls.unique {callable : Callable} {f f' : Function} {bound bound' : Machine}
    (h : callable.Calls machine f bound) (h' : callable.Calls machine f' bound') : f' = f ∧ bound' = bound := by
  cases h with
  | function =>
      cases h'
      exact ⟨rfl, rfl⟩
  | «class» hobject hmethod hbound =>
      cases h' with
      | «class» hobject' hmethod' hbound' =>
          rw [hobject] at hobject'
          cases hobject'
          rw [hmethod] at hmethod'
          cases hmethod'
          rw [hbound] at hbound'
          cases hbound'
          exact ⟨rfl, rfl⟩

section Calls

variable {callee : Expr} {paren : Token} {arguments : List Expr} {callable : Callable} {values : List Value}
  {called bound : Machine} {f : Function}
  (h : InProgress requests results (⟨level + 1, .eval (.call callee paren arguments), machine, held⟩ :: around))
  (hvalues : Eval.values (eval level) (callee :: arguments) machine = .done (.callable callable :: values) called)
  (harity : values.length = callable.arity) (hdepth : called.depth < maxCallDepth)
  (hcalls : callable.Calls { called with depth := called.depth + 1 } f bound)

include h hvalues harity hdepth hcalls

theorem InProgress.inTurn_body : InTurn requests results
    (⟨level + 1, .eval (.call callee paren arguments), machine, held⟩ :: around) level
    (.callable callable :: .callable (.function f) :: values) f.declaration.body (bound.enterBody f values) :=
  fun _ _ _ _ hbody hbefore => h.deeper (.body hvalues harity hdepth hcalls hbody hbefore)

/-- The operands of a call end before its body begins. -/
theorem InProgress.operand_endsBefore_body {operand : Expr} {before after : List Expr} {earlier : List Value}
    {middle last : Machine} {done rest : List Stmt} {statement : Stmt}
    (hparts : (Expr.call callee paren arguments).parts = before ++ operand :: after)
    (hearlier : Eval.values (eval level) before machine = .done earlier middle)
    (hbody : f.declaration.body = done ++ statement :: rest)
    (hdone : Eval.sequence (exec level) done (bound.enterBody f values) = .done .next last) :
    Moment.EndsBefore ⟨level, .eval operand, middle, earlier⟩
      ⟨level, .exec statement, last, .callable callable :: .callable (.function f) :: values⟩ := by
  have hall : Eval.values (eval level) (before ++ operand :: after) machine =
      .done (.callable callable :: values) called :=
    hparts ▸ hvalues
  have hwhole : (Expr.call callee paren arguments).parts = before ++ operand :: after ++ [] := by
    rw [List.append_nil, hparts]
  obtain ⟨value, next, hends, hcalled⟩ := exists_ends_of_values h hwhole hearlier hall fun _ _ => rfl
  have henters : Precedes called (bound.enterBody f values) := .single ⟨requests, .enters h hvalues harity hdepth hcalls⟩
  have hturn := h.inTurn_body hvalues harity hdepth hcalls
  rw [hbody] at hturn
  exact ⟨value, next, hends, (hcalled.trans henters).trans (hturn.left.precedes (.of_done hdone))⟩

end Calls

namespace Moment

variable {first second : Moment}

theorem Starts.comparable_of_eval {expression : Expr}
    (h : InProgress requests results (⟨level + 1, .eval expression, machine, held⟩ :: around))
    (hfirst : Starts ⟨level + 1, .eval expression, machine, held⟩ first)
    (hsecond : Starts ⟨level + 1, .eval expression, machine, held⟩ second) : first.Comparable second := by
  cases hfirst with
  | operand hparts hvalues hgoesOn =>
      cases hsecond with
      | operand hparts' hvalues' hgoesOn' =>
          rcases List.prefix_or_prefix_of_prefix (hparts ▸ List.prefix_append _ _)
            (hparts' ▸ List.prefix_append _ _) with hearlier | hearlier
          · exact .of_eq_or_endsBefore
              (eq_or_endsBefore_of_operands h hparts hvalues hparts' hvalues' hgoesOn' hearlier)
          · exact .symm (.of_eq_or_endsBefore
              (eq_or_endsBefore_of_operands h hparts' hvalues' hparts hvalues hgoesOn hearlier))
      | body hvalues' harity hdepth hcalls hbody hbefore =>
          exact .inr (.inl (h.operand_endsBefore_body hvalues' harity hdepth hcalls hparts hvalues hbody hbefore))
  | body hvalues harity hdepth hcalls hbody hbefore =>
      cases hsecond with
      | operand hparts' hvalues' =>
          exact .inr (.inr (h.operand_endsBefore_body hvalues harity hdepth hcalls hparts' hvalues' hbody hbefore))
      | body hvalues' _ _ hcalls' hbody' hbefore' =>
          rw [hvalues] at hvalues'
          cases hvalues'
          obtain ⟨rfl, rfl⟩ := hcalls.unique hcalls'
          exact (h.inTurn_body hvalues harity hdepth hcalls).comparable hbody hbefore hbody' hbefore'

end Moment

/-! ### Loops -/

section Loops

variable {condition : Expr} {body : Stmt} {last : Machine}

/-- One turn of a loop. -/
def TakesTurn (level : Nat) (condition : Expr) (body : Stmt) (before after : Machine) : Prop :=
  ∃ value tested, eval level condition before = .done value tested ∧ value.truthy = true ∧
    exec level body tested = .done .next after

theorem takesTurn_unique : Relator.RightUnique (TakesTurn level condition body) := by
  rintro before after last ⟨value, tested, hcondition, -, hbody⟩ ⟨value', tested', hcondition', -, hbody'⟩
  rw [hcondition] at hcondition'
  cases hcondition'
  rw [hbody] at hbody'
  cases hbody'
  rfl

theorem turns_iff :
    Turns level condition body machine middle ↔ Relation.ReflTransGen (TakesTurn level condition body) machine middle := by
  constructor
  · intro h
    induction h with
    | none => exact .refl
    | more _ hcondition htrue hbody ih => exact ih.tail ⟨_, _, hcondition, htrue, hbody⟩
  · intro h
    induction h with
    | refl => exact .none machine
    | tail _ hturn ih =>
        obtain ⟨value, tested, hcondition, htrue, hbody⟩ := hturn
        exact .more ih hcondition htrue hbody

/-- The moment is the start of what a turn does that begins in the state. -/
inductive OfTurn (level : Nat) (condition : Expr) (body : Stmt) (machine : Machine) : Moment → Prop where
  | condition : OfTurn level condition body machine ⟨level, .eval condition, machine, []⟩
  | body {value : Value} {tested : Machine} (hcondition : eval level condition machine = .done value tested)
      (htrue : value.truthy = true) : OfTurn level condition body machine ⟨level, .exec body, tested, []⟩

theorem Moment.Starts.exists_turn {inner : Moment}
    (h : Starts ⟨level + 1, .exec (.loop condition body), machine, held⟩ inner) :
    ∃ middle, Turns level condition body machine middle ∧ OfTurn level condition body middle inner := by
  cases h with
  | first hparts =>
      cases hparts
      exact ⟨machine, .none machine, .condition⟩
  | condition hturns => exact ⟨_, hturns, .condition⟩
  | turn hturns hcondition htrue => exact ⟨_, hturns, .body hcondition htrue⟩

/-- The condition of a turn ends before its body begins. -/
theorem OfTurn.comparable {first second : Moment} (hfirst : OfTurn level condition body machine first)
    (hsecond : OfTurn level condition body machine second) : first.Comparable second := by
  cases hfirst with
  | condition =>
      cases hsecond with
      | condition => exact .inl rfl
      | body hcondition => exact .inr (.inl ⟨_, _, .eval (.of_done hcondition), .refl⟩)
  | body hcondition =>
      cases hsecond with
      | condition => exact .inr (.inr ⟨_, _, .eval (.of_done hcondition), .refl⟩)
      | body hcondition' =>
          rw [hcondition] at hcondition'
          cases hcondition'
          exact .inl rfl

variable (h : InProgress requests results (⟨level + 1, .exec (.loop condition body), machine, held⟩ :: around))

include h

theorem InProgress.precedes_of_turns (hturns : Turns level condition body machine middle)
    (hmore : Relation.ReflTransGen (TakesTurn level condition body) middle last) : Precedes middle last := by
  induction hmore with
  | refl => exact .refl
  | tail hpath hturn ih =>
      obtain ⟨value, tested, hcondition, htrue, hbody⟩ := hturn
      have hupTo := turns_iff.mpr ((turns_iff.mp hturns).trans hpath)
      have htested := (h.deeper (.condition hupTo)).precedes_of_ends (.eval (.of_done hcondition))
      have hnext := (h.deeper (.turn hupTo hcondition htrue)).precedes_of_ends (.exec (.of_done hbody))
      exact (ih.trans htested).trans hnext

theorem InProgress.precedes_ofTurn {inner : Moment} (hturns : Turns level condition body machine middle)
    (hinner : OfTurn level condition body middle inner) : Precedes middle inner.machine := by
  cases hinner with
  | condition => exact .refl
  | body hcondition => exact (h.deeper (.condition hturns)).precedes_of_ends (.eval (.of_done hcondition))

/-- What a turn does ends before the next turn begins. -/
theorem InProgress.comparable_of_turns {first second : Moment} (hturns : Turns level condition body machine middle)
    (hmore : Relation.ReflTransGen (TakesTurn level condition body) middle last)
    (hfirst : OfTurn level condition body middle first) (hsecond : OfTurn level condition body last second) :
    first.Comparable second := by
  rcases hmore.cases_head with rfl | ⟨next, ⟨value, tested, hcondition, htrue, hbody⟩, hrest⟩
  · exact hfirst.comparable hsecond
  · have hnext := turns_iff.mpr ((turns_iff.mp hturns).tail ⟨value, tested, hcondition, htrue, hbody⟩)
    have hlast := turns_iff.mpr ((turns_iff.mp hturns).trans hmore)
    have hlater : Precedes next second.machine :=
      (h.precedes_of_turns hnext hrest).trans (h.precedes_ofTurn hlast hsecond)
    cases hfirst with
    | condition =>
        have htested := (h.deeper (.turn hturns hcondition htrue)).precedes_of_ends (.exec (.of_done hbody))
        exact .inr (.inl ⟨_, _, .eval (.of_done hcondition), htested.trans hlater⟩)
    | body hcondition' =>
        rw [hcondition] at hcondition'
        cases hcondition'
        exact .inr (.inl ⟨_, _, .exec (.of_done hbody), hlater⟩)

end Loops

/-! ### What one task starts -/

namespace Moment

variable {first second : Moment}

theorem Starts.exists_inner {statements : List Stmt} {inner : Moment}
    (h : Starts ⟨level + 1, .exec (.block statements), machine, held⟩ inner) :
    ∃ before statement after middle, statements = before ++ statement :: after ∧
      Eval.sequence (exec level) before machine.enterBlock = .done .next middle ∧
        inner = ⟨level, .exec statement, middle, []⟩ := by
  cases h with
  | first hparts => cases hparts
  | inner hbefore => exact ⟨_, _, _, _, rfl, hbefore, rfl⟩

/-- A condition ends before the branch that it chooses begins. -/
theorem Starts.comparable_of_conditional {condition : Expr} {whenTrue : Stmt} {whenFalse : Option Stmt}
    (hfirst : Starts ⟨level + 1, .exec (.conditional condition whenTrue whenFalse), machine, held⟩ first)
    (hsecond : Starts ⟨level + 1, .exec (.conditional condition whenTrue whenFalse), machine, held⟩ second) :
    first.Comparable second := by
  cases hfirst with
  | first hparts =>
      cases hparts
      cases hsecond with
      | first hparts' =>
          cases hparts'
          exact .inl rfl
      | branch hcondition => exact .inr (.inl ⟨_, _, .eval (.of_done hcondition), .refl⟩)
  | branch hcondition hbranch =>
      cases hsecond with
      | first hparts' =>
          cases hparts'
          exact .inr (.inr ⟨_, _, .eval (.of_done hcondition), .refl⟩)
      | branch hcondition' hbranch' =>
          rw [hcondition] at hcondition'
          cases hcondition'
          rw [hbranch] at hbranch'
          cases hbranch'
          exact .inl rfl

theorem Starts.comparable_of_exec {statement : Stmt}
    (h : InProgress requests results (⟨level + 1, .exec statement, machine, held⟩ :: around))
    (hfirst : Starts ⟨level + 1, .exec statement, machine, held⟩ first)
    (hsecond : Starts ⟨level + 1, .exec statement, machine, held⟩ second) : first.Comparable second := by
  cases statement with
  | loop condition body =>
      obtain ⟨middle, hturns, hfirst⟩ := hfirst.exists_turn
      obtain ⟨last, hturns', hsecond⟩ := hsecond.exists_turn
      -- Each turn leaves one state only, so one of the two turns is reached from the other.
      rcases (turns_iff.mp hturns).total_of_right_unique takesTurn_unique (turns_iff.mp hturns') with hmore | hmore
      · exact h.comparable_of_turns hturns hmore hfirst hsecond
      · exact (h.comparable_of_turns hturns' hmore hsecond hfirst).symm
  | block statements =>
      have hturn : InTurn requests results (⟨level + 1, .exec (.block statements), machine, held⟩ :: around) level []
          statements machine.enterBlock := by
        rintro before statement after middle rfl hbefore
        exact h.deeper (.inner hbefore)
      obtain ⟨before, statement, after, middle, hsplit, hbefore, rfl⟩ := hfirst.exists_inner
      obtain ⟨before', statement', after', middle', hsplit', hbefore', rfl⟩ := hsecond.exists_inner
      exact hturn.comparable hsplit hbefore hsplit' hbefore'
  | conditional => exact comparable_of_conditional hfirst hsecond
  | expression | print | «return» | var | classDecl | function =>
      cases hfirst with
      | first hparts =>
          cases hsecond with
          | first hparts' =>
              rw [hparts] at hparts'
              cases hparts'
              exact .inl rfl

/-- Of two tasks that one task starts, one ends before the other begins. -/
theorem Starts.comparable {outer : Moment} (h : InProgress requests results (outer :: around))
    (hfirst : outer.Starts first) (hsecond : outer.Starts second) : first.Comparable second := by
  obtain ⟨level, task, machine, held⟩ := outer
  obtain rfl : level = first.level + 1 := hfirst.level_eq
  cases task with
  | eval expression => exact comparable_of_eval h hfirst hsecond
  | exec statement => exact comparable_of_exec h hfirst hsecond

end Moment

/-- Of two states while one task is in progress, one precedes the other. -/
theorem InProgress.precedes_total {moment : Moment} {machine' : Machine}
    (h : InProgress requests results (moment :: around)) (hpasses : moment.Passes machine)
    (hpasses' : moment.Passes machine') : Precedes machine machine' ∨ Precedes machine' machine := by
  induction hpasses generalizing around machine' with
  | start => exact .inl (h.precedes_of_passes hpasses')
  | stop hends => exact .inr (.single ⟨requests, .ends h hpasses' hends⟩)
  | inside hstarts hinner ih =>
      cases hpasses' with
      | start => exact .inr (h.precedes_of_passes (.inside hstarts hinner))
      | stop hends => exact .inl (.single ⟨requests, .ends h (.inside hstarts hinner) hends⟩)
      | inside hstarts' hinner' =>
          rcases hstarts.comparable h hstarts' with rfl | hbefore | hbefore
          · exact ih (h.deeper hstarts) hinner'
          · exact .inl (hbefore.precedes (h.deeper hstarts) (h.deeper hstarts') hinner hinner')
          · exact .inr (hbefore.precedes (h.deeper hstarts') (h.deeper hstarts) hinner' hinner)

end Script
