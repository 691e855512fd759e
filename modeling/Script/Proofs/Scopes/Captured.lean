import Script.Proofs.Moments.Standing
import Script.Proofs.Moments.Timeline
import Script.Proofs.Receiver.This
import Script.Proofs.Scopes.Tree

/-!
# What a function captures

A function keeps the scopes around it, not what they hold. In its body a name is looked up anew each time, and the
scopes that it captured only ever get more names. So a name of an outer scope is that of the same scope again the next
time, unless a scope further in has got the name meanwhile, and then it is that one's.
-/

namespace Script

/-- The innermost task is in the body of the function, of which the last call in progress is. -/
inductive RunsIn (f : Function) : List Moment → Prop where
  | call {outer inner : Moment} {around : List Moment} {expression : Expr} {statement : Stmt}
      {callable : Callable} {values : List Value} (hstarts : outer.Starts inner)
      (hcall : outer.task = .eval expression) (hbody : inner.task = .exec statement)
      (hheld : inner.held = .callable callable :: .callable (.function f) :: values) :
      RunsIn f (inner :: outer :: around)
  | inside {outer inner : Moment} {around : List Moment} (h : RunsIn f (outer :: around))
      (hstarts : outer.Starts inner)
      (hsame : (∃ expression, inner.task = .eval expression) ∨ ∃ statement, outer.task = .exec statement) :
      RunsIn f (inner :: outer :: around)

/-- The task looks up the name in the state, and finds it in the scope. An assignment does so after its value is
evaluated. -/
inductive Moment.Finds : Moment → Token → Machine → ScopeId → Prop where
  | read {level : Nat} {name : Token} {machine : Machine} {held : List Value} {scope : ScopeId}
      (h : machine.store.resolve? machine.environment name.lexeme = some scope) :
      Finds ⟨level, .eval (.variable name), machine, held⟩ name machine scope
  | write {level : Nat} {name : Token} {expression : Expr} {machine after : Machine} {held : List Value}
      {value : Value} {scope : ScopeId} (hvalue : eval level expression machine = .done value after)
      (h : after.store.resolve? after.environment name.lexeme = some scope) :
      Finds ⟨level + 1, .eval (.assign name expression), machine, held⟩ name after scope

/-- In a call of the function, while the last of the requests is served, the name is found in a scope that the
function has captured. -/
inductive Function.Reaches (f : Function) (requests : List Request) (name : Token) (machine : Machine)
    (scope : ScopeId) : Prop where
  | mk {results : List Value} {moment : Moment} {around : List Moment}
      (h : InProgress requests results (moment :: around)) (hruns : RunsIn f (moment :: around))
      (hfinds : moment.Finds name machine scope) (hcaptured : scope ∈ f.closure.chain)

/-! ### Scopes of a call -/

/-- In the body of a function, the scopes that it captured are around those of the call. -/
theorem RunsIn.exists_chain {f : Function} {moment : Moment} {around : List Moment}
    (h : RunsIn f (moment :: around)) :
    ∃ own, moment.machine.environment.chain = own ++ f.closure.chain := by
  generalize hstack : moment :: around = stack at h
  induction h generalizing moment around with
  | call hstarts hcall hbody hheld =>
      obtain ⟨rfl, rfl⟩ := List.cons.inj hstack
      obtain ⟨scope, henvironment⟩ := hstarts.stands.environment_eq_of_call hcall hbody hheld
      exact ⟨[scope], by rw [henvironment, Environment.chain_push]; rfl⟩
  | inside _ hstarts hsame ih =>
      obtain ⟨rfl, rfl⟩ := List.cons.inj hstack
      obtain ⟨own, hown⟩ := ih rfl
      cases hstarts.stands with
      | part _ henvironment => exact ⟨own, by rw [henvironment, hown]⟩
      | inner _ _ _ scope henvironment =>
          exact ⟨scope :: own, by rw [henvironment, Environment.chain_push, hown]; rfl⟩
      | body hcall _ _ htask =>
          rcases hsame with ⟨_, heval⟩ | ⟨_, hexec⟩
          · rw [htask] at heval
            cases heval
          · rw [hcall] at hexec
            cases hexec

theorem InProgress.nodup_chain {requests : List Request} {results : List Value} {moment : Moment}
    {around : List Moment} (h : InProgress requests results (moment :: around)) :
    moment.machine.environment.chain.Nodup := by
  obtain ⟨layout, -, -, hfits, -⟩ := (admits_treeDiscipline requests).inProgress h
  exact layout.grown.nodup (hfits moment List.mem_cons_self).task

theorem Moment.Finds.resolve?_eq {moment : Moment} {name : Token} {machine : Machine} {scope : ScopeId}
    (h : moment.Finds name machine scope) :
    machine.store.resolve? moment.machine.environment name.lexeme = some scope := by
  cases h with
  | read h => exact h
  | write hvalue h =>
      rw [(kept_of_eval (.of_done hvalue)).environment] at h
      exact h

/-- The scope has the name. -/
def Store.defines (store : Store) (name : String) (scope : ScopeId) : Bool :=
  ((store.scope scope).get? name).isSome

/-- A name that is found in a captured scope is in none further in. -/
theorem Function.Reaches.find?_eq {f : Function} {requests : List Request} {name : Token} {machine : Machine}
    {scope : ScopeId} (h : f.Reaches requests name machine scope) :
    f.closure.chain.find? (machine.store.defines name.lexeme) = some scope := by
  obtain ⟨hprogress, hruns, hfinds, hcaptured⟩ := h
  obtain ⟨own, hown⟩ := hruns.exists_chain
  have hnodup := hprogress.nodup_chain
  have hfound : (own ++ f.closure.chain).find? (machine.store.defines name.lexeme) = some scope :=
    hown ▸ hfinds.resolve?_eq
  rw [hown] at hnodup
  rw [List.find?_append] at hfound
  cases hinner : own.find? (machine.store.defines name.lexeme) with
  | none => rwa [hinner] at hfound
  | some other =>
      rw [hinner] at hfound
      obtain rfl : other = scope := Option.some.inj hfound
      exact absurd hcaptured (List.disjoint_of_nodup_append hnodup (List.mem_of_find?_eq_some hinner))

/-- A statement calls a function of no parameters that prints a captured variable. -/
theorem Function.reaches_of_call {requests : List Request} {results held : List Value} {around : List Moment}
    {level : Nat} {f : Function} {name callee paren : Token} {machine called : Machine} {scope : ScopeId}
    (h : InProgress requests results
      (⟨level + 4, .exec (.expression (.call (.variable callee) paren [])), machine, held⟩ :: around))
    (hcallee : Eval.values (eval (level + 2)) [.variable callee] machine = .done [.callable (.function f)] machine)
    (hparams : f.declaration.params = []) (hbody : f.declaration.body = [.print (.variable name)])
    (hdepth : machine.depth < maxCallDepth)
    (hcalled : Machine.enterBody { machine with depth := machine.depth + 1 } f [] = called)
    (hscope : called.store.resolve? called.environment name.lexeme = some scope)
    (hcaptured : scope ∈ f.closure.chain) :
    f.Reaches requests name called scope ∧
      Moment.Passes ⟨level + 4, .exec (.expression (.call (.variable callee) paren [])), machine, held⟩ called := by
  have hempty : Eval.sequence (exec (level + 2)) []
      (Machine.enterBody { machine with depth := machine.depth + 1 } f []) = .done .next called :=
    congrArg (Outcome.done Flow.next) hcalled
  have hstatement : f.declaration.body = [] ++ Stmt.print (.variable name) :: [] := hbody
  have hexpression : Moment.Starts
      ⟨level + 4, .exec (.expression (.call (.variable callee) paren [])), machine, held⟩
      ⟨level + 3, .eval (.call (.variable callee) paren []), machine, []⟩ :=
    .first rfl
  have hprint : Moment.Starts ⟨level + 3, .eval (.call (.variable callee) paren []), machine, []⟩
      ⟨level + 2, .exec (.print (.variable name)), called, [.callable (.function f), .callable (.function f)]⟩ :=
    .body hcallee (congrArg List.length hparams).symm hdepth (.function f _) hstatement hempty
  have hvariable : Moment.Starts
      ⟨level + 2, .exec (.print (.variable name)), called, [.callable (.function f), .callable (.function f)]⟩
      ⟨level + 1, .eval (.variable name), called, []⟩ :=
    .first rfl
  have hcall := h.deeper hexpression
  have hreaches : f.Reaches requests name called scope :=
    ⟨(hcall.deeper hprint).deeper hvariable, .inside (.call hprint rfl rfl rfl) hvariable (.inl ⟨_, rfl⟩),
      .read hscope, hcaptured⟩
  exact ⟨hreaches, .inside hexpression (.inside hprint (.start _))⟩

/-! ### Names stay -/

theorem Store.Step.defines_of_defines {store after : Store} (h : store.Step after) {name : String} {scope : ScopeId}
    (hdefines : store.defines name scope = true) : after.defines name scope = true := by
  obtain ⟨value, hvalue⟩ := Option.isSome_iff_exists.mp hdefines
  have hold : scope ≠ store.scopes.size := Nat.ne_of_lt (Store.lt_size_of_get? hvalue)
  unfold Store.defines
  cases h with
  | scope => rwa [Store.scope_addScope, if_neg hold]
  | bind => rwa [Store.scope_bind, if_neg hold]
  | define =>
      rw [Store.scope_define]
      split
      · next heq =>
          rw [Bindings.get?_set]
          split
          · rfl
          · rwa [← heq.1]
      · exact hdefines
  | numbers | object | field => exact hdefines

theorem Store.defines_of_le {store after : Store} (h : store ≤ after) {name : String} {scope : ScopeId}
    (hdefines : store.defines name scope = true) : after.defines name scope = true := by
  induction h with
  | refl => exact hdefines
  | tail _ hstep ih => exact hstep.defines_of_defines ih

/-- A search that more items answer to ends no later. -/
theorem find?_eq_or_sublist {α : Type} {p q : α → Bool} (hpq : ∀ x, p x = true → q x = true) {items : List α}
    {x y : α} (hx : items.find? p = some x) (hy : items.find? q = some y) :
    y = x ∨ [y, x].Sublist items ∧ p y = false := by
  induction items with
  | nil => cases hx
  | cons item rest ih =>
      rw [List.find?_cons] at hx hy
      cases hp : p item with
      | true =>
          rw [hp] at hx
          rw [hpq item hp] at hy
          exact .inl ((Option.some.inj hy).symm.trans (Option.some.inj hx))
      | false =>
          rw [hp] at hx
          cases hq : q item with
          | true =>
              rw [hq] at hy
              obtain rfl := Option.some.inj hy
              have hmem : x ∈ rest := List.mem_of_find?_eq_some hx
              exact .inr ⟨(List.singleton_sublist.mpr hmem).cons_cons item, hp⟩
          | false =>
              rw [hq] at hy
              refine (ih hx hy).imp_right fun ⟨hsublist, hfirst⟩ => ?_
              exact ⟨hsublist.cons item, hfirst⟩

/-! ### Lookups of a captured name -/

/-- After a lookup in the state that finds the name in the scope, a lookup finds it in that scope again, or in a captured
scope further in which did not define the name at the time of the first one. -/
def Function.MovesInward (f : Function) (name : String) (machine : Machine) (scope scope' : ScopeId) : Prop :=
  scope' = scope ∨ [scope', scope].Sublist f.closure.chain ∧ machine.store.defines name scope' = false

theorem Function.Reaches.movesInward {f : Function} {requests later : List Request} {name name' : Token}
    {machine machine' : Machine} {scope scope' : ScopeId} (hfinds : f.Reaches requests name machine scope)
    (hfinds' : f.Reaches later name' machine' scope') (hname : name'.lexeme = name.lexeme)
    (hprecedes : Precedes machine machine') : f.MovesInward name.lexeme machine scope scope' := by
  have hlater : f.closure.chain.find? (machine'.store.defines name.lexeme) = some scope' := hname ▸ hfinds'.find?_eq
  have hstays (other : ScopeId) (h : machine.store.defines name.lexeme other = true) :
      machine'.store.defines name.lexeme other = true :=
    Store.defines_of_le hprecedes.store_le h
  exact find?_eq_or_sublist hstays hfinds.find?_eq hlater

/-- Of any two evaluations in a session that find a name in scopes which the function has captured, in one call of the
function or in two, one comes no later than the other. The later one finds the name in the same scope, unless by then a
captured scope further in defines the name, which did not before, and then it finds it in that scope. -/
theorem captured_binding_movesInward (f : Function) (requests requests' : List Request) (name name' : Token)
    (machine machine' : Machine) (scope scope' : ScopeId) (hfinds : f.Reaches requests name machine scope)
    (hfinds' : f.Reaches requests' name' machine' scope') (hname : name'.lexeme = name.lexeme)
    (hsession : SameSession machine machine') :
    (Precedes machine machine' ∨ Precedes machine' machine) ∧
      (Precedes machine machine' → f.MovesInward name.lexeme machine scope scope') ∧
        (Precedes machine' machine → f.MovesInward name.lexeme machine' scope' scope) := by
  refine ⟨hsession.total, fun hprecedes => ?_, fun hprecedes => ?_⟩
  · exact hfinds.movesInward hfinds' hname hprecedes
  · exact hname ▸ hfinds'.movesInward hfinds hname.symm hprecedes

/-! ### A name that moves -/

namespace Shadowing

/-- A function that reads a global is called before and after its block declares a variable of that name. -/
def source : String :=
  "var a = \"global\"; \x7b func f() \x7b print a; \x7d f(); var a = \"block\"; f(); \x7d"

def mark (kind : Kind) (lexeme : String) : Token :=
  { kind, lexeme, literal := .none, line := 1 }

def name (lexeme : String) : Token :=
  { kind := .identifier, lexeme, literal := .identifier lexeme, line := 1 }

def text (lexeme : String) : Token :=
  { kind := .string, lexeme, literal := .string lexeme, line := 1 }

def definition (value : String) : List Token :=
  [mark .varWord "var", name "a", mark .equal "=", text value, mark .semicolon ";"]

def call : List Token :=
  [name "f", mark .leftParen "(", mark .rightParen ")", mark .semicolon ";"]

def tokens : List Token :=
  definition "global" ++ mark .leftBrace "\x7b" :: mark .funcWord "func" :: call.take 3 ++
    [mark .leftBrace "\x7b", mark .printWord "print", name "a", mark .semicolon ";", mark .rightBrace "\x7d"] ++
    call ++ definition "block" ++ call ++ [mark .rightBrace "\x7d", .closing 1]

def declaration : Declaration :=
  { name := name "f", params := [], body := [.print (.variable (name "a"))] }

def calling : Stmt :=
  .expression (.call (.variable (name "f")) (mark .rightParen ")") [])

def statement (value : String) : Stmt :=
  .var (name "a") (some (.literal (.string value)))

def block : List Stmt :=
  [.function declaration, calling, statement "block", calling]

def program : List Stmt :=
  [statement "global", .block block]

theorem tasks_eq : (Request.run source).tasks = ([statement "global"] ++ Stmt.block block :: []).map .exec := by
  have hscan : scan source = ⟨tokens, []⟩ := by decide +kernel
  have hread : readProgram source = ⟨program, []⟩ := by
    rw [readProgram, readWith, hscan]
    rfl
  rw [Request.tasks, hread]
  rfl

/-- The function that the block makes, with the scopes of the block and of the globals around it. -/
def function : Function :=
  { id := 0, declaration, closure := { innermost := 1, outer := [0] } }

/-- The state that the statements lead to, if they go on to their end. -/
def reached (level : Nat) (statements : List Stmt) (machine : Machine) : Machine :=
  match Eval.sequence (exec level) statements machine with
  | .done _ after => after
  | _ => machine

def beforeBlock : Machine :=
  reached 9 [statement "global"] (.start {} 0)

def inBlock (statements : List Stmt) : Machine :=
  reached 8 statements beforeBlock.enterBlock

section Block

variable {before after : List Stmt} {inner : Stmt} (hblock : block = before ++ inner :: after)
  (hbefore : Eval.sequence (exec 8) before beforeBlock.enterBlock = .done .next (inBlock before))

include hblock hbefore

theorem starts : Moment.Starts ⟨9, .exec (.block block), beforeBlock, []⟩ ⟨8, .exec inner, inBlock before, []⟩ := by
  rw [hblock]
  exact .inner hbefore

theorem inProgress : InProgress [.run source] []
    [⟨8, .exec inner, inBlock before, []⟩, ⟨9, .exec (.block block), beforeBlock, []⟩] :=
  (InProgress.statement (.start {} 0) tasks_eq rfl).deeper (starts hblock hbefore)

theorem passedIn {machine : Machine} (hpasses : Moment.Passes ⟨8, .exec inner, inBlock before, []⟩ machine) :
    PassedIn [(.run source, .start {} 0)] machine :=
  ⟨_, _, List.mem_singleton_self _, .statement 9 tasks_eq rfl (.inside (starts hblock hbefore) hpasses)⟩

end Block

/-- The name is found in the scope of the globals first, and in that of the block later. -/
theorem reaches_twice :
    ∃ machine machine', function.Reaches [.run source] (name "a") machine 0 ∧
      function.Reaches [.run source] (name "a") machine' 1 ∧ SameSession machine machine' ∧
        Precedes machine machine' := by
  have hfirst : InProgress [.run source] [] (⟨8, .exec calling, inBlock [.function declaration], []⟩ :: _) :=
    inProgress rfl rfl
  have hsecond : InProgress [.run source] []
      (⟨8, .exec calling, inBlock [.function declaration, calling, statement "block"], []⟩ :: _) :=
    inProgress rfl rfl
  have hdefinition : InProgress [.run source] []
      (⟨8, .exec (statement "block"), inBlock [.function declaration, calling], []⟩ :: _) :=
    inProgress rfl rfl
  have hcall : exec 8 calling (inBlock [.function declaration]) =
      .done .next (inBlock [.function declaration, calling]) :=
    rfl
  have hdefine : exec 8 (statement "block") (inBlock [.function declaration, calling]) =
      .done .next (inBlock [.function declaration, calling, statement "block"]) :=
    rfl
  have hglobal : function.Reaches [.run source] (name "a") _ 0 ∧ _ :=
    Function.reaches_of_call hfirst rfl rfl rfl (by decide) rfl rfl (by decide)
  have hlocal : function.Reaches [.run source] (name "a") _ 1 ∧ _ :=
    Function.reaches_of_call hsecond rfl rfl rfl (by decide) rfl rfl (by decide)
  obtain ⟨hreaches, hpasses⟩ := hglobal
  obtain ⟨hreaches', hpasses'⟩ := hlocal
  have hreturns : Precedes _ (inBlock [.function declaration, calling]) :=
    .single ⟨_, .ends hfirst hpasses (.exec (.of_done hcall))⟩
  have hdefines : Precedes (inBlock [.function declaration, calling])
      (inBlock [.function declaration, calling, statement "block"]) :=
    hdefinition.precedes_of_ends (.exec (.of_done hdefine))
  have hprecedes : Precedes _ _ := (hreturns.trans hdefines).trans (hsecond.precedes_of_passes hpasses')
  have hsession : SameSession _ _ :=
    ⟨[], .run source, .start {} 0, .start {} 0, passedIn rfl rfl hpasses, passedIn rfl rfl hpasses'⟩
  exact ⟨_, _, hreaches, hreaches', hsession, hprecedes⟩

end Shadowing

/-- The same variable of the same function is found in two scopes, one after the other. -/
theorem captured_binding_moves :
    Shadowing.function.declaration.body = [.print (.variable (Shadowing.name "a"))] ∧
      ∃ machine machine' scope scope',
        Shadowing.function.Reaches [.run Shadowing.source] (Shadowing.name "a") machine scope ∧
          Shadowing.function.Reaches [.run Shadowing.source] (Shadowing.name "a") machine' scope' ∧
            SameSession machine machine' ∧ Precedes machine machine' ∧ scope' ≠ scope := by
  obtain ⟨machine, machine', hglobal, hlocal, hsession, hprecedes⟩ := Shadowing.reaches_twice
  exact ⟨rfl, machine, machine', 0, 1, hglobal, hlocal, hsession, hprecedes, by decide⟩

/-- It moves from the globals to the block, where it was not defined before. -/
theorem captured_binding_movesInward_to_block :
    ∃ machine machine', Shadowing.function.Reaches [.run Shadowing.source] (Shadowing.name "a") machine 0 ∧
      Shadowing.function.Reaches [.run Shadowing.source] (Shadowing.name "a") machine' 1 ∧
        SameSession machine machine' ∧ Precedes machine machine' ∧
          [1, 0].Sublist Shadowing.function.closure.chain ∧ machine.store.defines "a" 1 = false := by
  obtain ⟨machine, machine', hglobal, hlocal, hsession, hprecedes⟩ := Shadowing.reaches_twice
  have hmoves := captured_binding_movesInward Shadowing.function _ _ _ _ machine machine' 0 1 hglobal hlocal rfl
    hsession
  exact ⟨machine, machine', hglobal, hlocal, hsession, hprecedes, (hmoves.2.1 hprecedes).resolve_left (by decide)⟩

end Script
