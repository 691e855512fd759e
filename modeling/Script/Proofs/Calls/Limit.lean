import Script.Proofs.Calls.Activations
import Script.Proofs.Scopes.Captured

/-!
# The limit of calls

As many calls as may be can be in progress at once, and no more, whatever a session has done before. A function that
calls itself with a longer and longer text shows it: a chain of calls that comes to its end in time gives a value, and
a longer one fails at the first call too many.
-/

namespace Script

open Shadowing (name)

/-! ### A chain of calls -/

namespace Growing

/-- The function calls itself, on its second line, until its argument is the text of a global. -/
def source : String :=
  "func grow(s) \x7b\nif (s != limit) return grow(s + \"a\"); return s; \x7d"

def letters (n : Nat) : String :=
  .ofList (List.replicate n 'a')

def mark (kind : Kind) (lexeme : String) : Token :=
  { kind, lexeme, literal := .none, line := 2 }

def word (lexeme : String) : Token :=
  { kind := .identifier, lexeme, literal := .identifier lexeme, line := 2 }

/-- The parenthesis that closes the call in the function. -/
def paren : Token :=
  mark .rightParen ")"

def goesOn : Expr :=
  .binary (.variable (word "s")) (mark .bangEqual "!=") (.variable (word "limit"))

def longer : Expr :=
  .binary (.variable (word "s")) (mark .plus "+") (.literal (.string "a"))

def declaration : Declaration where
  name := name "grow"
  params := [name "s"]
  body :=
    [.conditional goesOn
        (.return (mark .returnWord "return") (some (.call (.variable (word "grow")) paren [longer]))) none,
      .return (mark .returnWord "return") (some (.variable (word "s")))]

theorem letters_append (n : Nat) : letters n ++ "a" = letters (n + 1) := by
  rw [letters, letters, List.replicate_succ', String.ofList_append]

theorem ne_letters (n : Nat) : "b" ≠ letters n := by
  intro heq
  have hmem : 'b' ∈ (letters n).toList := heq ▸ by decide
  rw [letters, String.toList_ofList] at hmem
  cases List.eq_of_mem_replicate hmem

/-- The names of the globals stand for the function and for a text. -/
structure Ready (f : Function) (text : String) (store : Store) : Prop where
  declaration_eq : f.declaration = declaration
  closure_eq : f.closure = { innermost := 0 }
  grow : (store.scope 0).get? "grow" = some (.callable (.function f))
  limit : (store.scope 0).get? "limit" = some (.string text)

/-- In the body of the function, with an argument. -/
structure InBody (f : Function) (text argument : String) (machine : Machine) : Prop where
  ready : Ready f text machine.store
  chain : ∃ scope, machine.environment.chain = [scope, 0] ∧
    ∀ other, (machine.store.scope scope).get? other = if other = "s" then some (.string argument) else none

section Body

variable {f : Function} {text argument : String} {machine : Machine}

theorem Ready.enterBody (h : Ready f text machine.store) (argument : String) :
    InBody f text argument (machine.enterBody f [.string argument]) := by
  have hsize : 0 < machine.store.scopes.size := Store.lt_size_of_get? h.grow
  have hscope (id : ScopeId) : (machine.enterBody f [.string argument]).store.scope id =
      if id = machine.store.scopes.size then ({} : Bindings Value).set "s" (.string argument)
      else machine.store.scope id := by
    rw [Machine.enterBody, h.declaration_eq]
    exact Store.scope_addScope _ _ id
  have hglobals := hscope 0
  rw [if_neg (Nat.ne_of_lt hsize)] at hglobals
  refine ⟨⟨h.declaration_eq, h.closure_eq, hglobals ▸ h.grow, hglobals ▸ h.limit⟩, machine.store.scopes.size, ?_, ?_⟩
  · rw [Machine.enterBody, h.closure_eq]
    rfl
  · intro other
    rw [hscope, if_pos rfl, Bindings.get?_set]
    rfl

theorem InBody.lookup_argument (h : InBody f text argument machine) :
    Eval.lookup (word "s") machine = .done (.string argument) machine := by
  obtain ⟨-, scope, hchain, hscope⟩ := h
  simp [Eval.lookup_apply, Store.lookup?, hchain, hscope, word]

theorem InBody.lookup_global (h : InBody f text argument machine) (token : Token) (htoken : token.lexeme ≠ "s")
    {value : Value} (hvalue : (machine.store.scope 0).get? token.lexeme = some value) :
    Eval.lookup token machine = .done value machine := by
  obtain ⟨-, scope, hchain, hscope⟩ := h
  simp [Eval.lookup_apply, Store.lookup?, hchain, hscope, htoken, hvalue]

variable (level : Nat)

theorem InBody.eval_goesOn (h : InBody f text argument machine) :
    eval (level + 2) goesOn machine = .done (.bool (argument != text)) machine := by
  have hlimit := h.lookup_global (word "limit") (by decide) h.ready.limit
  exact Eval.bind_eq_done_iff.mpr ⟨_, machine, h.lookup_argument,
    Eval.bind_eq_done_iff.mpr ⟨_, machine, hlimit, rfl⟩⟩

theorem InBody.values_call (h : InBody f text argument machine) :
    Eval.values (eval (level + 2)) [.variable (word "grow"), longer] machine =
      .done [.callable (.function f), .string (argument ++ "a")] machine := by
  have hgrow := h.lookup_global (word "grow") (by decide) h.ready.grow
  have hlonger : eval (level + 2) longer machine = .done (.string (argument ++ "a")) machine :=
    Eval.bind_eq_done_iff.mpr ⟨_, machine, h.lookup_argument, rfl⟩
  refine Eval.bind_eq_done_iff.mpr ⟨_, machine, hgrow, Eval.bind_eq_done_iff.mpr ⟨_, machine, ?_, rfl⟩⟩
  exact Eval.bind_eq_done_iff.mpr ⟨_, machine, hlonger, rfl⟩

/-- The body returns its argument, if that is the text. -/
theorem InBody.sequence_last (h : InBody f text text machine) :
    Eval.sequence (exec (level + 3)) f.declaration.body machine = .done (.returned (.string text)) machine := by
  rw [h.ready.declaration_eq]
  have htest := h.eval_goesOn level
  rw [bne_self_eq_false] at htest
  refine Eval.bind_eq_done_iff.mpr ⟨.next, machine, Eval.bind_eq_done_iff.mpr ⟨_, machine, htest, rfl⟩, ?_⟩
  refine Eval.bind_eq_done_iff.mpr ⟨.returned (.string text), machine, ?_, rfl⟩
  exact Eval.bind_eq_done_iff.mpr ⟨_, machine, h.lookup_argument, rfl⟩

/-- Otherwise it returns what the call gives that it makes. -/
theorem InBody.sequence_more (h : InBody f text argument machine) (hmore : argument ≠ text) :
    Eval.sequence (exec (level + 5)) f.declaration.body machine =
      (Flow.returned <$> (Value.callable (.function f)).call (exec (level + 2)) paren [.string (argument ++ "a")])
        machine := by
  let call := (Value.callable (.function f)).call (exec (level + 2)) paren [.string (argument ++ "a")]
  let returning := Stmt.return (mark .returnWord "return") (some (.call (.variable (word "grow")) paren [longer]))
  have hreturn : exec (level + 4) returning machine = (Flow.returned <$> call) machine := by
    have hcall : eval (level + 3) (.call (.variable (word "grow")) paren [longer]) machine = call machine :=
      eval_call (h.values_call level)
    change (eval (level + 3) _ >>= fun value => pure (Flow.returned value)) machine = _
    rw [map_eq_pure_bind, Eval.bind_apply, Eval.bind_apply, hcall]
  have hbranch : exec (level + 5) (.conditional goesOn returning none) machine = exec (level + 4) returning machine := by
    have htest := h.eval_goesOn (level + 2)
    rw [bne_iff_ne.mpr hmore] at htest
    change (eval (level + 4) goesOn >>= _) machine = _
    rw [Eval.bind_apply, htest]
    rfl
  rw [h.ready.declaration_eq]
  change (exec (level + 5) (.conditional goesOn returning none) >>= _) machine = (Flow.returned <$> call) machine
  rw [Eval.bind_apply, hbranch, hreturn, map_eq_pure_bind, Eval.bind_apply]
  cases call machine <;> rfl

section Counted

variable {exec : Stmt → Eval Flow} {values : List Value} {after : Machine}

/-- The call gives what the body returns. -/
theorem counted_of_returned {value : Value}
    (h : Eval.sequence exec f.declaration.body
      (Machine.enterBody { machine with depth := machine.depth + 1 } f values) = .done (.returned value) after) :
    ∃ last, Eval.counted (Callable.call (.function f) exec values) machine = .done value last := by
  rw [Eval.counted, Callable.call, Function.call_eq, Eval.bind_apply, Eval.entered, h]
  exact ⟨_, rfl⟩

/-- The call fails as the body does. -/
theorem counted_of_failed {error : RuntimeError}
    (h : Eval.sequence exec f.declaration.body
      (Machine.enterBody { machine with depth := machine.depth + 1 } f values) = .failed error after) :
    ∃ last, Eval.counted (Callable.call (.function f) exec values) machine = .failed error last := by
  rw [Eval.counted, Callable.call, Function.call_eq, Eval.bind_apply, Eval.entered, h]
  exact ⟨_, rfl⟩

end Counted

section Calls

variable (h : Ready f text machine.store)

include h

theorem Ready.arity (first : Nat) : [Value.string (letters first)].length = (Callable.function f).arity := by
  rw [Callable.arity, Function.arity, h.declaration_eq]
  rfl

/-- A call with the text gives it back. -/
theorem Ready.call_last (hless : machine.depth < maxCallDepth) {first : Nat} (hlast : text = letters first)
    (token : Token) : ∃ after,
      (Value.callable (.function f)).call (exec (level + 3)) token [.string (letters first)] machine =
        .done (.string text) after := by
  have hready : Ready f text { machine with depth := machine.depth + 1 }.store := h
  rw [Value.call_counted token (h.arity first) hless, ← hlast]
  exact counted_of_returned ((hready.enterBody text).sequence_last level)

/-- A call with something shorter ends as the call that the function makes then. -/
theorem Ready.call_more (hless : machine.depth < maxCallDepth) {first : Nat} (hmore : text ≠ letters first)
    (token : Token) : ∃ inner : Machine, Ready f text inner.store ∧ inner.depth = machine.depth + 1 ∧
      (∀ value middle, (Value.callable (.function f)).call (exec (level + 2)) paren [.string (letters (first + 1))]
          inner = .done value middle → ∃ after, (Value.callable (.function f)).call (exec (level + 5)) token
            [.string (letters first)] machine = .done value after) ∧
      ∀ error middle, (Value.callable (.function f)).call (exec (level + 2)) paren [.string (letters (first + 1))]
          inner = .failed error middle → ∃ after, (Value.callable (.function f)).call (exec (level + 5)) token
            [.string (letters first)] machine = .failed error after := by
  let deeper : Machine := { machine with depth := machine.depth + 1 }
  have hready : Ready f text deeper.store := h
  have hbody := hready.enterBody (letters first)
  have hends := hbody.sequence_more level (Ne.symm hmore)
  rw [letters_append, map_eq_pure_bind, Eval.bind_apply] at hends
  rw [Value.call_counted token (h.arity first) hless]
  refine ⟨deeper.enterBody f [.string (letters first)], hbody.ready, rfl, ?_, ?_⟩
  · intro value middle hrun
    rw [hrun] at hends
    exact counted_of_returned hends
  · intro error middle hrun
    rw [hrun] at hends
    exact counted_of_failed hends

end Calls

/-- With so many calls left, the chain gives the text if it comes to it in time. Otherwise the first call too many
fails: this one, or one that the function makes. -/
theorem Ready.call (h : Ready f text machine.store) {remaining : Nat}
    (hdepth : machine.depth + remaining = maxCallDepth) {level : Nat} (hlevel : 3 * remaining + 2 ≤ level)
    (first : Nat) (token : Token) :
    ((∃ i < remaining, text = letters (first + i)) → ∃ after,
      (Value.callable (.function f)).call (exec level) token [.string (letters first)] machine =
        .done (.string text) after) ∧
    ((∀ i < remaining, text ≠ letters (first + i)) → ∃ after,
      (Value.callable (.function f)).call (exec level) token [.string (letters first)] machine =
        .failed (.stackOverflow (if remaining = 0 then token else paren)) after) := by
  induction remaining generalizing machine level first token with
  | zero =>
      refine ⟨fun ⟨i, hi, _⟩ => absurd hi (Nat.not_lt_zero i), fun _ => ⟨machine, ?_⟩⟩
      exact Value.call_of_overflow token (h.arity first) (Nat.not_lt.mpr (Nat.le_of_eq hdepth.symm))
  | succ remaining ih =>
      obtain ⟨level, rfl⟩ : ∃ lower, level = lower + 5 := ⟨level - 5, by omega⟩
      have hless : machine.depth < maxCallDepth := by omega
      by_cases hlast : text = letters first
      · exact ⟨fun _ => h.call_last (level + 2) hless hlast token, fun hnever => absurd hlast (hnever 0 (Nat.succ_pos _))⟩
      obtain ⟨inner, hready, hinner, hdone, hfailed⟩ := h.call_more level hless hlast token
      have hlower : 3 * remaining + 2 ≤ level + 2 := by omega
      obtain ⟨hends, hoverflows⟩ := ih hready (by omega) hlower (first + 1) paren
      constructor
      · rintro ⟨i, hi, htext⟩
        cases i with
        | zero => exact absurd htext hlast
        | succ i =>
            obtain ⟨after, hrun⟩ := hends ⟨i, by omega, by rw [htext]; congr 1; omega⟩
            exact hdone _ _ hrun
      · intro hnever
        obtain ⟨after, hrun⟩ := hoverflows fun i hi => by
          have hnext := hnever (i + 1) (by omega)
          rwa [show first + (i + 1) = first + 1 + i by omega] at hnext
        rw [ite_self] at hrun
        rw [if_neg (Nat.succ_ne_zero _)]
        exact hfailed _ _ hrun

end Body

/-- The call that starts the chain. -/
def request : String :=
  "grow(\"\")"

theorem evaluate_request {level : Nat} {machine : Machine} {f : Function}
    (hgrow : machine.store.lookup? machine.environment "grow" = some (.callable (.function f))) :
    machine.evaluate (level + 2) request = ((Value.callable (.function f)).call (exec (level + 1))
      (Shadowing.mark .rightParen ")") [.string (letters 0)] machine).mapError .runtime := by
  let call := Expr.call (.variable (name "grow")) (Shadowing.mark .rightParen ")") [.literal (.string "")]
  have hscan : scan request = ⟨[name "grow", Shadowing.mark .leftParen "(", Shadowing.text "",
      Shadowing.mark .rightParen ")", .closing 1], []⟩ := by decide +kernel
  have hread : readExpression request = ⟨some call, []⟩ := by
    rw [readExpression, readWith, hscan]
    rfl
  have hlookup : Eval.lookup (name "grow") machine = .done (.callable (.function f)) machine := by
    rw [Eval.lookup_apply, show (name "grow").lexeme = "grow" from rfl, hgrow]
  have hvalues : Eval.values (eval (level + 1)) [.variable (name "grow"), .literal (.string "")] machine =
      .done [.callable (.function f), .string (letters 0)] machine :=
    Eval.bind_eq_done_iff.mpr ⟨_, machine, hlookup, rfl⟩
  rw [Machine.evaluate, hread]
  exact congrArg (Outcome.mapError RunError.runtime) (eval_call hvalues)

/-- After whatever a session has done, the chain of calls succeeds or overflows with its length alone. -/
theorem evaluate_chain {requests : List Request} {results : List Value} {machine : Machine}
    (hsession : Session requests results machine) {f : Function} {text : String}
    (hready : Ready f text machine.store) {level : Nat} (hlevel : 3 * maxCallDepth + 3 ≤ level) :
    ((∃ n < maxCallDepth, text = letters n) →
      ∃ after, machine.evaluate level request = .done (.string text) after) ∧
    ((∀ n < maxCallDepth, text ≠ letters n) →
      ∃ after, machine.evaluate level request = .failed (.runtime (.stackOverflow paren)) after) := by
  obtain ⟨level, rfl⟩ : ∃ lower, level = lower + 2 := ⟨level - 2, by omega⟩
  have htop := hsession.reached.atTop
  have hgrow : machine.store.lookup? machine.environment "grow" = some (.callable (.function f)) := by
    rw [htop.environment, htop.globals, Store.lookup?, Environment.chain, List.findSome?_cons, hready.grow]
  have hdepth : machine.depth + maxCallDepth = maxCallDepth := by rw [htop.depth, Nat.zero_add]
  have hlower : 3 * maxCallDepth + 2 ≤ level + 1 := by omega
  obtain ⟨hends, hoverflows⟩ := hready.call hdepth hlower 0 (Shadowing.mark .rightParen ")")
  simp only [Nat.zero_add] at hends hoverflows
  rw [evaluate_request hgrow]
  constructor
  · intro hreached
    obtain ⟨after, hrun⟩ := hends hreached
    exact ⟨after, by rw [hrun]; rfl⟩
  · intro hnever
    obtain ⟨after, hrun⟩ := hoverflows hnever
    exact ⟨after, by rw [hrun]; rfl⟩

/-- The text of the global and the function, one after the other. -/
def program (text : String) : String :=
  "var limit = \"" ++ text ++ "\"; " ++ source

theorem exists_session {text : String}
    (hread : readProgram (program text) =
      ⟨[.var (name "limit") (some (.literal (.string text))), .function declaration], []⟩) :
    ∃ machine f, Session [.run (program text)] [] machine ∧ Ready f text machine.store := by
  have hrun : ∃ machine, Machine.run 9 (program text) (.start {} 0) = .done () machine ∧
      Ready { id := 0, declaration, closure := { innermost := 0 } } text machine.store := by
    rw [Machine.run, hread]
    exact ⟨_, rfl, rfl, rfl, rfl, rfl⟩
  obtain ⟨machine, hdone, hready⟩ := hrun
  exact ⟨machine, _, .run (.start {} 0) 9 _ (.of_done hdone), hready⟩

theorem readProgram_program :
    ∀ text ∈ ["aa", "b"], readProgram (program text) =
      ⟨[.var (name "limit") (some (.literal (.string text))), .function declaration], []⟩ := by
  have hscan : ∀ text ∈ ["aa", "b"], scan (program text) =
      ⟨[Shadowing.mark .varWord "var", name "limit", Shadowing.mark .equal "=", Shadowing.text text,
        Shadowing.mark .semicolon ";", Shadowing.mark .funcWord "func", name "grow", Shadowing.mark .leftParen "(",
        name "s", Shadowing.mark .rightParen ")", Shadowing.mark .leftBrace "\x7b", mark .ifWord "if",
        mark .leftParen "(", word "s", mark .bangEqual "!=", word "limit", paren, mark .returnWord "return",
        word "grow", mark .leftParen "(", word "s", mark .plus "+",
        { kind := .string, lexeme := "a", literal := .string "a", line := 2 }, paren, mark .semicolon ";",
        mark .returnWord "return", word "s", mark .semicolon ";", mark .rightBrace "\x7d", .closing 2], []⟩ := by
    decide +kernel
  intro text hmem
  rw [readProgram, readWith, hscan text hmem]
  rfl

end Growing

/-! ### The count at every moment of a session -/

/-- What holds of a task when so many calls are in progress. -/
structure Moment.Counts (moment : Moment) (active : Nat) : Prop where
  depth : moment.machine.depth = active
  most : active ≤ maxCallDepth
  ends : ∀ values after, moment.Ends values after → after.depth = active
  /-- A call fails by itself exactly where it is refused, for one reason alone. -/
  refused : ∀ callee paren arguments error, moment.task = .eval (.call callee paren arguments) →
    (moment.FailsItself error ↔ ∃ called values after, moment.CallsWith paren called values after ∧
      called.refusal paren values.length active = some error)
  /-- It overflows the stack, at its own parenthesis, if and only if nothing else stands against it and as many calls
  are in progress as may be. -/
  overflows : ∀ callee paren arguments other, moment.task = .eval (.call callee paren arguments) →
    (moment.FailsItself (.stackOverflow other) ↔ other = paren ∧ active = maxCallDepth ∧
      ∃ c values after, moment.CallsWith paren (.callable c) values after ∧ values.length = c.arity)
  /-- A call that is not refused is one more while what is called runs, be it a function, a class with its initializer
  or native. -/
  counted : ∀ level callee paren arguments called values after, moment.level = level + 1 →
    moment.task = .eval (.call callee paren arguments) → moment.CallsWith paren called values after →
      called.refusal paren values.length active = none → ∃ c, called = .callable c ∧
        eval (level + 1) (.call callee paren arguments) moment.machine = Eval.counted (c.call (exec level) values) after

theorem InProgress.counts {requests : List Request} {results : List Value} {moment : Moment} {around : List Moment}
    (h : InProgress requests results (moment :: around)) : moment.Counts (activations (moment :: around)) := by
  obtain ⟨hdepth, hmost⟩ := h.depth_eq
  rw [← hdepth]
  refine ⟨rfl, hmost, fun _ _ hends => hends.depth_eq, fun _ _ _ _ htask => Moment.failsItself_call_iff htask hmost,
    fun callee paren arguments other htask => ?_, ?_⟩
  · simp only [Moment.failsItself_call_iff htask hmost, Value.refusal_eq_stackOverflow_iff]
    constructor
    · rintro ⟨_, values, after, hcalls, rfl, ⟨c, rfl, harity⟩, hactive⟩
      exact ⟨rfl, hactive, c, values, after, hcalls, harity⟩
    · rintro ⟨rfl, hactive, c, values, after, hcalls, harity⟩
      exact ⟨_, values, after, hcalls, rfl, ⟨c, rfl, harity⟩, hactive⟩
  · obtain ⟨level', task, machine, held⟩ := moment
    rintro level callee paren arguments called values after rfl rfl hcalls hrefusal
    exact hcalls.exists_counted hmost hrefusal

/-- Whatever a session has served, the depth is the number of calls in progress, at most `maxCallDepth`, where a task
starts and where it ends, and no call is in progress between requests. A call overflows the stack, at its own
parenthesis, if and only if it could be made otherwise and `maxCallDepth` calls are in progress, and every overflow
that ends a request is that of such a call. So a chain of `maxCallDepth` calls succeeds, and one more fails. -/
theorem callDepth_isExact (requests : List Request) (results : List Value) :
    (∀ moment around, InProgress requests results (moment :: around) →
      moment.Counts (activations (moment :: around))) ∧
    ∀ machine, Session requests results machine → machine.depth = 0 ∧
      (∀ level source paren after, machine.run level source = .failed (.runtime (.stackOverflow paren)) after →
        ∃ moment around callee arguments, InProgress (.run source :: requests) results (moment :: around) ∧
          moment.task = .eval (.call callee paren arguments) ∧ moment.FailsItself (.stackOverflow paren)) ∧
      (∀ level source paren after, machine.evaluate level source = .failed (.runtime (.stackOverflow paren)) after →
        ∃ moment around callee arguments, InProgress (.evaluate source :: requests) results (moment :: around) ∧
          moment.task = .eval (.call callee paren arguments) ∧ moment.FailsItself (.stackOverflow paren)) ∧
      ∀ f text level, Growing.Ready f text machine.store → 3 * maxCallDepth + 3 ≤ level →
        ((∃ n < maxCallDepth, text = Growing.letters n) →
          ∃ after, machine.evaluate level Growing.request = .done (.string text) after) ∧
        ((∀ n < maxCallDepth, text ≠ Growing.letters n) → ∃ after,
          machine.evaluate level Growing.request = .failed (.runtime (.stackOverflow Growing.paren)) after) := by
  refine ⟨fun moment around h => h.counts, fun machine h => ⟨h.depth_eq, ?_, ?_, ?_⟩⟩
  · intro level source paren after hrun
    rcases h.exists_failsItself_of_run hrun with ⟨fault, hfault⟩ | ⟨moment, around, hprogress, hfails⟩
    · cases hfault
    · obtain ⟨callee, arguments, htask⟩ := hfails.task_eq
      exact ⟨moment, around, callee, arguments, hprogress, htask, hfails⟩
  · intro level source paren after hevaluate
    obtain ⟨moment, around, hprogress, hfails⟩ := h.exists_failsItself_of_evaluate hevaluate
    obtain ⟨callee, arguments, htask⟩ := hfails.task_eq
    exact ⟨moment, around, callee, arguments, hprogress, htask, hfails⟩
  · exact fun f text level hready hlevel => Growing.evaluate_chain h hready hlevel

/-- A chain that comes to its end gives a value. One that does not fails when `maxCallDepth` calls are in progress. -/
theorem callDepth_isExact_in_chain :
    (∃ machine after, Session [.run (Growing.program "aa")] [] machine ∧
      machine.evaluate 4000 Growing.request = .done (.string "aa") after) ∧
    ∃ machine after moment around, Session [.run (Growing.program "b")] [] machine ∧
      machine.evaluate 4000 Growing.request = .failed (.runtime (.stackOverflow Growing.paren)) after ∧
        InProgress [.evaluate Growing.request, .run (Growing.program "b")] [] (moment :: around) ∧
          activations (moment :: around) = maxCallDepth := by
  have hread := Growing.readProgram_program
  obtain ⟨machine, f, hsession, hready⟩ := Growing.exists_session (hread "aa" (by decide))
  obtain ⟨machine', f', hsession', hready'⟩ := Growing.exists_session (hread "b" (by decide))
  constructor
  · obtain ⟨-, -, -, hchain⟩ := (callDepth_isExact [.run (Growing.program "aa")] []).2 machine hsession
    obtain ⟨after, hrun⟩ := (hchain f "aa" 4000 hready (by decide)).1 ⟨2, by decide, by decide⟩
    exact ⟨machine, after, hsession, hrun⟩
  · obtain ⟨-, -, hoverflows, hchain⟩ := (callDepth_isExact [.run (Growing.program "b")] []).2 machine' hsession'
    obtain ⟨after, hrun⟩ := (hchain f' "b" 4000 hready' (by decide)).2 fun n _ => Growing.ne_letters n
    obtain ⟨moment, around, callee, arguments, hprogress, htask, hfails⟩ := hoverflows _ _ _ _ hrun
    have hcounts := (callDepth_isExact _ _).1 moment around hprogress
    obtain ⟨-, hactive, -⟩ := (hcounts.overflows callee _ arguments _ htask).mp hfails
    exact ⟨machine', after, moment, around, hsession', hrun, hprogress, hactive⟩

end Script
