import Script.Proofs.Levels
import Script.Proofs.Moments.Raising
import Script.Proofs.Moments.Standing
import Script.Proofs.Termination.LoopFree
import Script.Proofs.Termination.Sizes

/-!
# Programs without loops end

What a task starts is smaller than the task, unless it is in the body of a function that is called, and there are at
most `maxCallDepth` calls in progress. So there is a rank that falls from each moment to those that it starts, and no
more levels are ever needed than that. The code of loops is the only one to be executed more than once.
-/

namespace Script

theorem hereditary_loopFree : Hereditary Task.LoopFree where
  part {whole inner} h hpart := by
    cases whole with
    | eval expression =>
        obtain ⟨operand, -, rfl⟩ := List.mem_map.mp hpart
        trivial
    | exec statement =>
        change statement.LoopFree at h
        change inner ∈ statement.parts at hpart
        cases h with
        | conditional condition htrue hfalse =>
            rcases List.mem_cons.mp hpart with rfl | hpart
            · trivial
            rcases List.mem_cons.mp hpart with rfl | hpart
            · exact htrue
            obtain ⟨statement, hmem, rfl⟩ := List.mem_map.mp hpart
            exact hfalse statement (Option.mem_toList.mp hmem)
        | expression | print =>
            obtain rfl := List.mem_singleton.mp hpart
            trivial
        | «return» | var =>
            obtain ⟨value, -, rfl⟩ := List.mem_map.mp hpart
            trivial
        | block | classDecl | function => cases hpart
  block h := by
    cases h with
    | block h => exact h
  function h := by
    cases h with
    | function h => exact h
  method h := by
    cases h with
    | classDecl _ h => exact h

/-! ### Ranks -/

/-- More than all that can be started one inside the other, if no body of a function is larger than the size. -/
noncomputable def Moment.rank (size : Nat) (moment : Moment) : Nat :=
  (maxCallDepth - moment.machine.depth) * (size + 1) + sizeOf moment.task

theorem Moment.Stands.rank_lt {outer inner : Moment} {size : Nat} (h : outer.Stands inner)
    (hsize : sizeOf inner.task ≤ size) : inner.rank size < outer.rank size := by
  unfold rank
  cases h with
  | part htask _ hdepth =>
      rw [hdepth]
      exact Nat.add_lt_add_left (Task.sizeOf_lt_of_part htask) _
  | inner hblock hstatement htask _ _ hdepth =>
      rw [hdepth, hblock, htask]
      exact Nat.add_lt_add_left (Task.sizeOf_lt_of_block hstatement) _
  | body _ _ _ _ _ _ hdepth hmost =>
      obtain ⟨left, hleft⟩ := Nat.exists_eq_add_of_lt hmost
      rw [show maxCallDepth - inner.machine.depth = left by omega,
        show maxCallDepth - outer.machine.depth = left + 1 by omega, Nat.succ_mul]
      omega

section Bounded

variable {size : Nat}

/-- All code is free of loops, and not larger than the size. -/
theorem hereditary_bounded (size : Nat) : Hereditary fun task => task.LoopFree ∧ sizeOf task ≤ size :=
  hereditary_loopFree.and (hereditary_sizeOf size)

/-- A moment from which levels can run out has at most as many as its rank. -/
theorem Moment.Breaks.level_le_rank {moment : Moment} (h : moment.Breaks none)
    (hgood : (hereditary_bounded size).discipline.Good () moment.machine)
    (hfits : (hereditary_bounded size).discipline.Fits () moment) : moment.level ≤ moment.rank size := by
  induction hlevel : moment.level generalizing moment with
  | zero => exact Nat.zero_le _
  | succ level ih =>
      rcases h.stops_or_starts with ⟨hzero, -⟩ | hstops | ⟨inner, hstarts, hbreaks⟩
      · omega
      · have hloop := hfits.task.1
        generalize moment.task = task at hloop hstops
        cases hstops with
        | turns => cases hloop
      · obtain ⟨_, -, hnested⟩ := hfits.starts hgood hstarts
        have hinner : inner.level = level := by
          have hone := hstarts.level_eq
          omega
        calc level + 1 ≤ inner.rank size + 1 := Nat.succ_le_succ (ih hbreaks hnested.good hnested.fits hinner)
          _ ≤ moment.rank size := hstarts.stands.rank_lt hnested.fits.task.2

/-- Levels enough for code that is not larger than the size. -/
def levelsFor (size : Nat) : Nat :=
  maxCallDepth * (size + 1) + size + 1

variable {machine : Machine} {expression : Expr} {statement : Stmt}
  (hgood : (hereditary_bounded size).discipline.Good () machine)

include hgood

theorem Moment.level_lt_of_breaks {level : Nat} {task : Task} (h : Breaks ⟨level, task, machine, []⟩ none)
    (htask : task.LoopFree ∧ sizeOf task ≤ size) : level < levelsFor size := by
  have hrank := h.level_le_rank hgood ⟨htask, List.forall_mem_nil _⟩
  have hcalls : (maxCallDepth - machine.depth) * (size + 1) ≤ maxCallDepth * (size + 1) :=
    Nat.mul_le_mul_right _ (Nat.sub_le _ _)
  unfold rank at hrank
  unfold levelsFor
  simp only at hrank
  omega

theorem eval_ne_exhausted (htask : sizeOf (Task.eval expression) ≤ size) :
    eval (levelsFor size) expression machine ≠ .exhausted := by
  intro hexhausted
  have hbreaks : Moment.Breaks ⟨levelsFor size, .eval expression, machine, []⟩ none :=
    .eval (Outcome.breaks_none_iff.mpr hexhausted)
  exact absurd (Moment.level_lt_of_breaks hgood hbreaks ⟨trivial, htask⟩) (Nat.lt_irrefl _)

theorem exec_ne_exhausted (hloopFree : statement.LoopFree) (htask : sizeOf (Task.exec statement) ≤ size) :
    exec (levelsFor size) statement machine ≠ .exhausted := by
  intro hexhausted
  have hbreaks : Moment.Breaks ⟨levelsFor size, .exec statement, machine, []⟩ none :=
    .exec (Outcome.breaks_none_iff.mpr hexhausted)
  exact absurd (Moment.level_lt_of_breaks hgood hbreaks ⟨hloopFree, htask⟩) (Nat.lt_irrefl _)

end Bounded

/-! ### Totality -/

/-- With enough levels the computation ends, and then it ends so with more of them. -/
def Halts {ε α : Type} (run : Nat → Outcome ε α) : Prop :=
  ∃ level, run level ≠ .exhausted ∧ ∀ more, level ≤ more → run more = run level

theorem Halts.of_below {ε α : Type} {run : Nat → Outcome ε α} (level : Nat) (hends : run level ≠ .exhausted)
    (hbelow : ∀ more, level ≤ more → run level ≠ .exhausted → run more = run level) : Halts run :=
  ⟨level, hends, fun more hmore => hbelow more hmore hends⟩

theorem below_interpret {level level' : Nat} (hle : level ≤ level') (program : List Stmt) :
    Eval.Below (interpret level program) (interpret level' program) :=
  Eval.below_bind (Eval.below_sequence (below_exec hle) program) fun _ => .refl _

theorem Machine.below_run {level level' : Nat} (hle : level ≤ level') (source : String) (machine : Machine)
    (hends : machine.run level source ≠ .exhausted) : machine.run level' source = machine.run level source := by
  unfold Machine.run at hends ⊢
  simp only at hends ⊢
  split
  · rfl
  · next hread =>
      rw [if_neg hread] at hends
      rw [below_interpret hle]
      intro hexhausted
      rw [hexhausted] at hends
      exact hends rfl

theorem Machine.below_evaluate {level level' : Nat} (hle : level ≤ level') (source : String) (machine : Machine)
    (hends : machine.evaluate level source ≠ .exhausted) :
    machine.evaluate level' source = machine.evaluate level source := by
  unfold Machine.evaluate at hends ⊢
  simp only at hends ⊢
  generalize (readExpression source).tree = tree? at hends ⊢
  cases tree? with
  | none => rfl
  | some expression =>
      simp only at hends ⊢
      split
      · rfl
      · next hread =>
          rw [if_neg hread] at hends
          rw [below_eval hle]
          intro hexhausted
          rw [hexhausted] at hends
          exact hends rfl

section Machines

variable {machine : Machine} (hmachine : machine.Runs Task.LoopFree)

include hmachine

/-- There is a size that neither the code in the store nor other code goes beyond. -/
theorem Machine.exists_good (least : Nat) :
    ∃ size, least ≤ size ∧ (hereditary_bounded size).discipline.Good () machine := by
  refine ⟨max least (sizeOf machine.store), Nat.le_max_left _ _, (hereditary_bounded _).good_iff.mpr ?_⟩
  intro value hstores f hhas statement hmem
  refine ⟨hmachine value hstores f hhas statement hmem, ?_⟩
  exact Nat.le_trans (machine.runs_sizeOf value hstores f hhas statement hmem) (Nat.le_max_right _ _)

theorem halts_eval (expression : Expr) : Halts fun level => eval level expression machine := by
  obtain ⟨size, hsize, hgood⟩ := machine.exists_good hmachine (sizeOf (Task.eval expression))
  exact Halts.of_below _ (eval_ne_exhausted hgood hsize) fun more hmore => below_eval hmore expression machine

theorem halts_exec {statement : Stmt} (h : statement.LoopFree) : Halts fun level => exec level statement machine := by
  obtain ⟨size, hsize, hgood⟩ := machine.exists_good hmachine (sizeOf (Task.exec statement))
  exact Halts.of_below _ (exec_ne_exhausted hgood h hsize) fun more hmore => below_exec hmore statement machine

variable {source : String} (hsource : Loopless (scan source).tokens)

include hsource

theorem halts_run : Halts fun level => machine.run level source := by
  obtain ⟨size, hsize, hgood⟩ := machine.exists_good hmachine (sizeOf (Request.run source).tasks)
  have htasks (task : Task) (hmem : task ∈ (Request.run source).tasks) : task.LoopFree ∧ sizeOf task ≤ size :=
    ⟨(Request.run source).loopFree hsource task hmem, Nat.le_trans (Nat.le_of_lt (List.sizeOf_lt_of_mem hmem)) hsize⟩
  refine Halts.of_below (levelsFor size) (fun hexhausted => ?_) fun more hmore => machine.below_run hmore source
  have hbreaks : (machine.run (levelsFor size) source).Breaks (none.map .runtime) := by
    rw [hexhausted]
    exact .exhausted
  rcases Machine.exists_of_run_breaks hbreaks with
    ⟨_, hnone⟩ | ⟨before, statement, rest, middle, hread, hbefore, hstatement⟩
  · cases hnone
  · rw [hread, List.forall_mem_map] at htasks
    obtain ⟨_, -, hmiddle, -⟩ := hgood.sequence (fun other hmem => htasks other (List.mem_append_left _ hmem)) hbefore
    obtain ⟨hloopFree, hbound⟩ := htasks statement (by simp)
    exact exec_ne_exhausted hmiddle hloopFree hbound (Outcome.breaks_none_iff.mp hstatement)

omit hsource in
theorem halts_evaluate (source : String) : Halts fun level => machine.evaluate level source := by
  obtain ⟨size, hsize, hgood⟩ := machine.exists_good hmachine (sizeOf (Request.evaluate source).tasks)
  refine Halts.of_below (levelsFor size) (fun hexhausted => ?_) fun more hmore => machine.below_evaluate hmore source
  have hbreaks : (machine.evaluate (levelsFor size) source).Breaks (none.map .runtime) := by
    rw [hexhausted]
    exact .exhausted
  obtain ⟨expression, hread, hexpression⟩ := Machine.exists_of_evaluate_breaks hbreaks
  have hbound : sizeOf (Task.eval expression) ≤ size :=
    Nat.le_trans (Nat.le_of_lt (List.sizeOf_lt_of_mem (hread ▸ List.mem_singleton_self _))) hsize
  exact eval_ne_exhausted hgood hbound (Outcome.breaks_none_iff.mp hexpression)

end Machines

/-- What is known of a state in which no code has a loop, about all that can be evaluated or executed in it. -/
structure Machine.Total (machine : Machine) : Prop where
  eval : ∀ expression, Halts fun level => eval level expression machine
  exec : ∀ statement : Stmt, statement.LoopFree → Halts fun level => exec level statement machine
  /-- No code has a loop in the states that they end in, nor has that of the values they give. -/
  closed : ∀ level task, task.LoopFree → ∀ values after, Moment.Ends ⟨level, task, machine, []⟩ values after →
    after.Runs Task.LoopFree ∧ ∀ value ∈ values, value.Runs Task.LoopFree

theorem Machine.total {machine : Machine} (hmachine : machine.Runs Task.LoopFree) : machine.Total where
  eval := halts_eval hmachine
  exec _ h := halts_exec hmachine h
  closed level task htask values after hends := by
    have hheld : ∀ value ∈ (Moment.mk level task machine []).held, value.Runs Task.LoopFree := List.forall_mem_nil _
    exact hereditary_loopFree.runs_of_ends hmachine htask hheld hends

/-- In a session without `while` and `for` every request comes to an end, however its functions call each other. And
to evaluate or execute code without loops, in any state whose functions have none, is a total function to such
states. -/
theorem loopFree_halts :
    (∀ requests results machine, Session requests results machine →
      (∀ request ∈ requests, Loopless (scan request.source).tokens) →
      ∀ source, Loopless (scan source).tokens →
        (Halts fun level => machine.run level source) ∧ Halts fun level => machine.evaluate level source) ∧
    ∀ machine : Machine, machine.Runs Task.LoopFree → machine.Total := by
  refine ⟨fun requests results machine hsession hrequests source hsource => ?_, fun machine => machine.total⟩
  have hmachine : machine.Runs Task.LoopFree :=
    hereditary_loopFree.runs_of_session (fun request hmem => request.loopFree (hrequests request hmem)) hsession
  exact ⟨halts_run hmachine hsource, halts_evaluate hmachine source⟩

/-- Functions that call each other without end, from a method too, are stopped. -/
theorem loopFree_halts_despite_recursion :
    let source :=
      "class A \x7b init() \x7b f(); \x7d \x7d func f() \x7b return g(); \x7d func g() \x7b return A(); \x7d f();"
    let start := Machine.start {} 0
    Loopless (scan source).tokens ∧ (Halts fun level => start.run level source) ∧ start.Total := by
  intro source start
  have hsource : Loopless (scan source).tokens := by
    unfold Loopless
    decide +kernel
  have hstart : Session [] [] start := .start {} 0
  have hruns : start.Runs Task.LoopFree := hereditary_loopFree.runs_of_session (List.forall_mem_nil _) hstart
  exact ⟨hsource, (loopFree_halts.1 [] [] start hstart (List.forall_mem_nil _) source hsource).1,
    loopFree_halts.2 start hruns⟩

end Script
