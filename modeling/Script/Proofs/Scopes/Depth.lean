import Mathlib.Algebra.GroupWithZero.Nat
import Script.Proofs.Moments.Standing
import Script.Proofs.Moments.Supply
import Script.Proofs.Scopes.Captured

/-!
# The depth of scopes is that of the position

Whatever is executed has a position in one of the programs: on from the task around it, or on from the declaration that
made the function whose body it is in. As many scopes are open as the position tells, by whatever calls it was come to.
-/

namespace Script

/-! ### Positions -/

/-- A step from a task to one in it: a part of it, a statement of a block, one of the body of a function, or one of the
body of a method, of which the number comes first. -/
inductive Position.Step where
  | part (index : Nat)
  | inner (index : Nat)
  | body (index : Nat)
  | method (number index : Nat)

/-- The scopes that are opened with the step. A method has one for its object and one for its parameters. -/
def Position.Step.scopes : Position.Step → Nat
  | .part _ => 0
  | .inner _ | .body _ => 1
  | .method _ _ => 2

/-- A position in the programs of a session: the number of the request, that of one of its tasks, and the way in from
there, the last step first. -/
structure Position where
  request : Nat
  index : Nat
  path : List Position.Step := []

/-- What is one step inside of the task. -/
def Task.child? : Task → Position.Step → Option Task
  | task, .part index => task.parts[index]?
  | .exec (.block statements), .inner index => statements[index]?.map .exec
  | .exec (.function declaration), .body index => declaration.body[index]?.map .exec
  | .exec (.classDecl _ declarations), .method number index =>
    declarations[number]?.bind fun declaration => declaration.body[index]?.map .exec
  | _, _ => none

@[simp]
theorem Task.child?_part (task : Task) (index : Nat) : task.child? (.part index) = task.parts[index]? := by
  cases task <;> rfl

/-- What the way leads to. -/
def Task.follow? (whole : Task) : List Position.Step → Option Task
  | [] => some whole
  | step :: around => (whole.follow? around).bind (·.child? step)

namespace Position

def inside (position : Position) (step : Step) : Position :=
  { position with path := step :: position.path }

/-- The scopes that are open at the position: that of the globals, and those of all steps to it. -/
def depth (position : Position) : Nat :=
  1 + (position.path.map Step.scopes).sum

/-- What there is at the position. Requests are counted from the first one on. -/
def task? (requests : List Request) (position : Position) : Option Task := do
  let request ← requests.reverse[position.request]?
  let whole ← request.tasks[position.index]?
  whole.follow? position.path

variable {requests earlier : List Request} {position : Position} {step : Step} {task inner : Task}

@[simp]
theorem depth_inside (position : Position) (step : Step) :
    (position.inside step).depth = position.depth + step.scopes := by
  simp only [depth, inside, List.map_cons, List.sum_cons]
  omega

theorem task?_inside (h : position.task? requests = some task) (hchild : task.child? step = some inner) :
    (position.inside step).task? requests = some inner := by
  obtain ⟨request, hrequest, h⟩ := Option.bind_eq_some_iff.mp h
  obtain ⟨whole, hwhole, h⟩ := Option.bind_eq_some_iff.mp h
  refine Option.bind_eq_some_iff.mpr ⟨request, hrequest, ?_⟩
  refine Option.bind_eq_some_iff.mpr ⟨whole, hwhole, ?_⟩
  exact Option.bind_eq_some_iff.mpr ⟨task, h, hchild⟩

/-- Later requests do not change what there is. -/
theorem task?_of_suffix (hsuffix : earlier <:+ requests) (h : position.task? earlier = some task) :
    position.task? requests = some task := by
  obtain ⟨request, hrequest, h⟩ := Option.bind_eq_some_iff.mp h
  refine Option.bind_eq_some_iff.mpr ⟨request, ?_, h⟩
  obtain ⟨hindex, heq⟩ := List.getElem?_eq_some_iff.mp hrequest
  rw [← heq]
  exact List.prefix_iff_getElem?.mp (List.reverse_prefix.mpr hsuffix) _ hindex

end Position

/-! ### Where moments are -/

/-- The step from the declaration that the moment executes into the body of the function: one that it makes, or a
method that it makes, bound to an object. -/
inductive Moment.Gives (maker : Moment) : (Nat → Position.Step) → Function → Prop where
  | function {f : Function} (h : maker.Makes (.callable (.function f))) : Gives maker .body f
  | method {c : Class} {name : String} {method : Function} {number : Nat}
      (h : maker.Makes (.callable (.class c))) (hmethod : c.methods.get? name = some method)
      (hnumber : method.id = maker.machine.store.functions + number) (object : Instance) (store : Store) :
      Gives maker (.method number) (store.bind method object).1

/-- While the last of the requests is served, the moment comes, and its task is the one at the position. The body of a
function is where the function was made. -/
inductive Moment.At : List Request → Moment → Position → Prop where
  | whole {requests : List Request} {request : Request} {results : List Value} {moment : Moment} {index : Nat}
      (h : InProgress (request :: requests) results [moment]) (htask : request.tasks[index]? = some moment.task) :
      At (request :: requests) moment ⟨requests.length, index, []⟩
  | inside {requests : List Request} {outer inner : Moment} {position : Position} {step : Position.Step}
      (h : At requests outer position) (hstarts : outer.Starts inner)
      (hchild : outer.task.child? step = some inner.task) : At requests inner (position.inside step)
  | body {requests earlier : List Request} {outer inner maker : Moment} {caller position : Position} {call : Expr}
      {callable : Callable} {f : Function} {values : List Value} {step : Nat → Position.Step} {index : Nat}
      (h : At requests outer caller) (hcall : outer.task = .eval call) (hstarts : outer.Starts inner)
      (hheld : inner.held = .callable callable :: .callable (.function f) :: values)
      (hearlier : earlier <:+ requests) (hmaker : At earlier maker position) (hgives : maker.Gives step f)
      (hchild : maker.task.child? (step index) = some inner.task) : At requests inner (position.inside (step index))

/-! ### Depth -/

theorem InProgress.environment_eq {requests : List Request} {results : List Value} {moment : Moment}
    (h : InProgress requests results [moment]) : moment.machine.environment = Discipline.top := by
  cases h with
  | statement h _ hbefore =>
      obtain ⟨_, -, -, htop, -⟩ := (admits_treeDiscipline _).session h
      exact (kept_of_sequence (.of_done hbefore)).environment.trans htop
  | expression level h _ =>
      obtain ⟨_, -, -, htop, -⟩ := (admits_treeDiscipline _).session h
      exact htop

/-- A task that has parts has nothing else in it. -/
theorem Task.scopes_eq_zero {task part inner : Task} {step : Position.Step} (hpart : part ∈ task.parts)
    (hchild : task.child? step = some inner) : step.scopes = 0 := by
  unfold Task.child? at hchild
  split at hchild
  · rfl
  · cases hpart
  · cases hpart
  · cases hpart
  · cases hchild

namespace Moment

variable {outer inner maker : Moment} {f : Function} {step : Nat → Position.Step}

theorem Gives.depth_eq (h : maker.Gives step f) (index : Nat) :
    f.closure.depth + 1 = maker.machine.environment.depth + (step index).scopes := by
  cases h with
  | function h =>
      cases h
      rfl
  | method h hmethod =>
      cases h
      obtain ⟨i, hi, rfl⟩ := Store.exists_of_method_addClass hmethod
      rfl

theorem Gives.child?_eq (h : maker.Gives step f) {index : Nat} {statement : Stmt}
    (hstatement : f.declaration.body[index]? = some statement) :
    maker.task.child? (step index) = some (.exec statement) := by
  cases h with
  | function h =>
      cases h
      exact congrArg (Option.map Task.exec) hstatement
  | method h hmethod hnumber =>
      cases h
      obtain ⟨i, hi, rfl⟩ := Store.exists_of_method_addClass hmethod
      obtain rfl := Nat.add_left_cancel hnumber
      rw [Task.child?, List.getElem?_eq_getElem hi]
      exact congrArg (Option.map Task.exec) hstatement

theorem Gives.exists_exec (h : maker.Gives step f) {index : Nat} {task : Task}
    (hchild : maker.task.child? (step index) = some task) : ∃ statement, task = .exec statement := by
  cases h with
  | function h =>
      cases h
      obtain ⟨statement, -, rfl⟩ := Option.map_eq_some_iff.mp hchild
      exact ⟨statement, rfl⟩
  | method h =>
      cases h
      obtain ⟨declaration, -, hbody⟩ := Option.bind_eq_some_iff.mp hchild
      obtain ⟨statement, -, rfl⟩ := Option.map_eq_some_iff.mp hbody
      exact ⟨statement, rfl⟩

/-- A step into the task around opens its scopes. -/
theorem Stands.depth_eq {step : Position.Step} (h : outer.Stands inner)
    (hchild : outer.task.child? step = some inner.task) :
    inner.machine.environment.depth = outer.machine.environment.depth + step.scopes := by
  cases h with
  | part htask henvironment => rw [henvironment, Task.scopes_eq_zero htask hchild, Nat.add_zero]
  | inner hblock _ _ scope henvironment =>
      rw [hblock] at hchild
      cases step with
      | inner => rw [henvironment, Environment.depth_push, Position.Step.scopes]
      | part | body | method => cases hchild
  | body hcall _ _ htask =>
      rw [hcall, htask] at hchild
      cases step with
      | part =>
          obtain ⟨_, -, heq⟩ := List.mem_map.mp (List.mem_of_getElem? hchild)
          cases heq
      | inner | body | method => cases hchild

/-- A call opens the scopes of the function around those in which that was made. -/
theorem Stands.depth_eq_of_call {call : Expr} {callable : Callable} {values : List Value} {index : Nat}
    (h : outer.Stands inner) (hcall : outer.task = .eval call)
    (hheld : inner.held = .callable callable :: .callable (.function f) :: values) (hgives : maker.Gives step f)
    (hchild : maker.task.child? (step index) = some inner.task) :
    inner.machine.environment.depth = maker.machine.environment.depth + (step index).scopes := by
  obtain ⟨statement, hexec⟩ := hgives.exists_exec hchild
  obtain ⟨scope, henvironment⟩ := h.environment_eq_of_call hcall hexec hheld
  rw [henvironment, Environment.depth_push, hgives.depth_eq index]

theorem At.describes {requests : List Request} {moment : Moment} {position : Position}
    (h : moment.At requests position) :
    position.task? requests = some moment.task ∧ moment.machine.environment.depth = position.depth := by
  induction h with
  | @whole requests request _ _ _ h htask =>
      refine ⟨Option.bind_eq_some_iff.mpr ⟨request, ?_, Option.bind_eq_some_iff.mpr ⟨_, htask, rfl⟩⟩, ?_⟩
      · rw [List.reverse_cons, List.getElem?_append_right (by simp), List.length_reverse, Nat.sub_self]
        rfl
      · rw [h.environment_eq]
        rfl
  | inside _ hstarts hchild ih =>
      refine ⟨Position.task?_inside ih.1 hchild, ?_⟩
      rw [Position.depth_inside, ← ih.2, hstarts.stands.depth_eq hchild]
  | body _ hcall hstarts hheld hearlier _ hgives hchild _ ih =>
      refine ⟨Position.task?_inside (Position.task?_of_suffix hearlier ih.1) hchild, ?_⟩
      rw [Position.depth_inside, ← ih.2, hstarts.stands.depth_eq_of_call hcall hheld hgives hchild]

end Moment

/-! ### All moments have a position -/

/-- The functions, and the methods, that have been made at positions of a session. -/
def madeSoFar (requests : List Request) : Stock where
  function f := ∃ earlier maker position step, earlier <:+ requests ∧ Moment.At earlier maker position ∧
    maker.Gives step f
  method f := ∃ earlier maker position c name number, earlier <:+ requests ∧ Moment.At earlier maker position ∧
    maker.Makes (.callable (.class c)) ∧ c.methods.get? name = some f ∧
      f.id = maker.machine.store.functions + number
  bound object store := by
    rintro ⟨earlier, maker, position, c, name, number, hearlier, hmaker, hmakes, hmethod, hnumber⟩
    exact ⟨earlier, maker, position, _, hearlier, hmaker, .method hmakes hmethod hnumber object store⟩

theorem madeSoFar_mono {requests : List Request} {request : Request} {value : Value}
    (h : (madeSoFar requests).value value) : (madeSoFar (request :: requests)).value value := by
  have hsuffix : requests <:+ request :: requests := List.suffix_cons request requests
  have hmethod {f : Function} : (madeSoFar requests).method f → (madeSoFar (request :: requests)).method f := by
    rintro ⟨earlier, maker, position, c, name, number, hearlier, h⟩
    exact ⟨earlier, maker, position, c, name, number, hearlier.trans hsuffix, h⟩
  cases value with
  | callable callable =>
      cases callable with
      | function f =>
          obtain ⟨earlier, maker, position, step, hearlier, h⟩ := h
          exact ⟨earlier, maker, position, step, hearlier.trans hsuffix, h⟩
      | «class» c => exact h.mono fun _ => hmethod
      | native => trivial
  | «instance» object => exact h.mono fun _ => hmethod
  | _ => trivial

namespace Moment

variable {requests : List Request} {outer inner : Moment} {position : Position}

theorem At.makes {moment : Moment} {value : Value} (h : moment.At requests position) (hmakes : moment.Makes value) :
    (madeSoFar requests).value value := by
  cases hmakes with
  | function => exact ⟨requests, _, position, _, List.suffix_rfl, h, .function (.function ..)⟩
  | cls level name declarations machine held =>
      intro other method hmethod
      obtain ⟨i, _, hid⟩ := Store.exists_of_method_addClass hmethod
      exact ⟨requests, _, position, _, other, i, List.suffix_rfl, h, .cls .., hmethod, hid ▸ rfl⟩

/-- What is started at a position has one itself, if all functions in hand do. -/
theorem At.starts (h : outer.At requests position) (hstarts : outer.Starts inner)
    (hheld : ∀ value ∈ inner.held, (madeSoFar requests).value value) : ∃ position, inner.At requests position := by
  cases hstarts.stands with
  | part htask =>
      obtain ⟨index, hindex⟩ := List.mem_iff_getElem?.mp htask
      exact ⟨position.inside (.part index), h.inside hstarts ((Task.child?_part _ _).trans hindex)⟩
  | inner hblock hstatement htask =>
      obtain ⟨index, hindex⟩ := List.mem_iff_getElem?.mp hstatement
      refine ⟨position.inside (.inner index), h.inside hstarts ?_⟩
      rw [hblock, htask]
      exact congrArg (Option.map Task.exec) hindex
  | body hcall hvalues hstatement htask =>
      rw [hvalues] at hheld
      obtain ⟨earlier, maker, made, step, hearlier, hmaker, hgives⟩ :=
        hheld _ (List.mem_cons_of_mem _ List.mem_cons_self)
      obtain ⟨index, hindex⟩ := List.mem_iff_getElem?.mp hstatement
      exact ⟨_, h.body hcall hstarts hvalues hearlier hmaker hgives (htask ▸ hgives.child?_eq hindex)⟩

end Moment

theorem supplies_madeSoFar :
    Stock.Supplies (fun requests moment => ∃ position, moment.At requests position) madeSoFar where
  begins {requests _ moment} h := by
    have htask : ∃ request earlier, requests = request :: earlier ∧ moment.task ∈ request.tasks := by
      cases h with
      | statement _ hprogram => exact ⟨_, _, rfl, by simp [hprogram]⟩
      | expression _ _ hexpression => exact ⟨_, _, rfl, by simp [hexpression]⟩
    obtain ⟨request, earlier, rfl, hmem⟩ := htask
    obtain ⟨index, hindex⟩ := List.mem_iff_getElem?.mp hmem
    exact ⟨_, .whole h hindex⟩
  starts := fun ⟨_, h⟩ hstarts hheld => h.starts hstarts hheld
  makes := fun ⟨_, h⟩ hmakes => h.makes hmakes
  mono := madeSoFar_mono

/-- Every moment of a session is at some position in the programs of the session, and wherever it is said to be, its
task is what there is. The scopes that are open then are as many as the position tells: that of the globals, one for
each block and each function around it, and two for each method. -/
theorem depth_isStatic (requests : List Request) (results : List Value) (moment : Moment) (around : List Moment)
    (h : InProgress requests results (moment :: around)) :
    (∃ position, moment.At requests position) ∧ ∀ position, moment.At requests position →
      position.task? requests = some moment.task ∧ moment.machine.environment.depth = position.depth :=
  ⟨(supplies_madeSoFar.inProgress h _ rfl).1, fun _ hat => hat.describes⟩

namespace Receiving

open Shadowing (mark name reached)

/-- A method is called whose body is a block. -/
def source : String :=
  "class C \x7b m() \x7b \x7b this; \x7d \x7d \x7d C().m();"

def keyword : Token :=
  mark .thisWord "this"

def call (callee : Expr) : Expr :=
  .call callee (mark .rightParen ")") []

def parens : List Token :=
  [mark .leftParen "(", mark .rightParen ")"]

def tokens : List Token :=
  [mark .classWord "class", name "C", mark .leftBrace "\x7b", name "m"] ++ parens ++
    [mark .leftBrace "\x7b", mark .leftBrace "\x7b", keyword, mark .semicolon ";", mark .rightBrace "\x7d",
      mark .rightBrace "\x7d", mark .rightBrace "\x7d", name "C"] ++ parens ++
    [mark .dot ".", name "m"] ++ parens ++ [mark .semicolon ";", .closing 1]

def method : Declaration :=
  { name := name "m", params := [], body := [.block [.expression (.this keyword)]] }

def declaration : Stmt :=
  .classDecl (name "C") [method]

def read : Expr :=
  .get (call (.variable (name "C"))) (name "m")

theorem tasks_eq : (Request.run source).tasks = [declaration, .expression (call read)].map .exec := by
  have hscan : scan source = ⟨tokens, []⟩ := by decide +kernel
  have hread : readProgram source = ⟨[declaration, .expression (call read)], []⟩ := by
    rw [readProgram, readWith, hscan]
    rfl
  rw [Request.tasks, hread]
  rfl

def made : Class :=
  ((Machine.start {} 0).store.addClass "C" [method] Discipline.top).1

def declared : Machine :=
  reached 9 [declaration] (.start {} 0)

/-- The method as it is read from the object that the call of the class makes. -/
def bound : Function × Store :=
  declared.store.addObject.2.bind { id := 0, declaration := method, closure := Discipline.top } ⟨made, 0⟩

/-- Where the body of the method begins. -/
def entered : Machine :=
  Machine.enterBody { declared with depth := 1, store := bound.2 } bound.1 []

end Receiving

open Receiving in
/-- In a block of a method, one scope of a block and two of the method are open inside of the globals. -/
theorem depth_isStatic_in_method :
    ∃ moment around, InProgress [.run source] [] (moment :: around) ∧ moment.task = .eval (.this keyword) ∧
      moment.At [.run source] ⟨0, 0, [.part 0, .inner 0, .method 0 0]⟩ ∧ moment.machine.environment.depth = 4 := by
  have hclass : (Request.run source).tasks = ([] ++ declaration :: [.expression (call read)]).map .exec := tasks_eq
  have hcalls : (Request.run source).tasks = ([declaration] ++ Stmt.expression (call read) :: []).map .exec :=
    tasks_eq
  have hmaker : Moment.At [.run source] ⟨9, .exec declaration, .start {} 0, []⟩ ⟨0, 0, []⟩ :=
    .whole (.statement (.start {} 0) hclass rfl) (by rw [hclass]; rfl)
  have hstart : InProgress [.run source] [] [⟨9, .exec (.expression (call read)), declared, []⟩] :=
    .statement (.start {} 0) hcalls rfl
  have hcall : Moment.Starts ⟨9, .exec (.expression (call read)), declared, []⟩ ⟨8, .eval (call read), declared, []⟩ :=
    .first rfl
  have hvalues : Eval.values (eval 7) [read] declared =
      .done [.callable (.function bound.1)] { declared with store := bound.2 } :=
    rfl
  have hmethod : bound.1.declaration.body = [] ++ Stmt.block [.expression (.this keyword)] :: [] := rfl
  have hbody : Moment.Starts ⟨8, .eval (call read), declared, []⟩
      ⟨7, .exec (.block [.expression (.this keyword)]), entered,
        [.callable (.function bound.1), .callable (.function bound.1)]⟩ :=
    .body hvalues rfl (by decide) (.function bound.1 _) hmethod rfl
  have hinner : Moment.Starts
      ⟨7, .exec (.block ([] ++ Stmt.expression (.this keyword) :: [])), entered,
        [.callable (.function bound.1), .callable (.function bound.1)]⟩
      ⟨6, .exec (.expression (.this keyword)), entered.enterBlock, []⟩ :=
    .inner rfl
  have hthis : Moment.Starts ⟨6, .exec (.expression (.this keyword)), entered.enterBlock, []⟩
      ⟨5, .eval (.this keyword), entered.enterBlock, []⟩ :=
    .first rfl
  have hmakes : Moment.Makes ⟨9, .exec declaration, .start {} 0, []⟩ (.callable (.class made)) := .cls ..
  have hfound : made.methods.get? "m" = some { id := 0, declaration := method, closure := Discipline.top } := rfl
  have hgives : Moment.Gives ⟨9, .exec declaration, .start {} 0, []⟩ (.method 0) bound.1 :=
    .method hmakes hfound rfl ⟨made, 0⟩ declared.store.addObject.2
  have hcaller : Moment.At [.run source] ⟨8, .eval (call read), declared, []⟩ ⟨0, 1, [.part 0]⟩ :=
    .inside (.whole hstart (by rw [hcalls]; rfl)) hcall rfl
  have hat : Moment.At [.run source] ⟨5, .eval (.this keyword), entered.enterBlock, []⟩
      ⟨0, 0, [.part 0, .inner 0, .method 0 0]⟩ :=
    .inside (.inside (.body hcaller rfl hbody rfl List.suffix_rfl hmaker hgives rfl) hinner rfl) hthis rfl
  have hprogress := (((hstart.deeper hcall).deeper hbody).deeper hinner).deeper hthis
  exact ⟨_, _, hprogress, rfl, hat, ((depth_isStatic _ _ _ _ hprogress).2 _ hat).2⟩

end Script
