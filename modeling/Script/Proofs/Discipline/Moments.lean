import Script.Proofs.Discipline.Resumption

/-!
# A discipline holds at every moment

What keeps a discipline from start to end keeps it in between: whenever a task of a session starts, the
machine is in a good state and the task is as it should be where it stands. It is enough that machines
start well and that the tasks of the requests are as they should be in the environment of the globals.
-/

namespace Script

namespace Discipline

variable {α W : Type} [Preorder W] {d : Discipline W} {world : W}

/-! ### What has come to its end -/

section Done

variable {machine after : Machine} {level : Nat}

theorem Keeps.of_done {environment : Environment} {body : Eval α} {post : W → α → Prop} {value : α}
    (h : d.Keeps world environment body post) (hgood : d.Good world machine)
    (henvironment : machine.environment = environment) (hrun : body machine = .done value after) :
    ∃ later, world ≤ later ∧ d.Good later after ∧ after.environment = environment ∧ post later value := by
  obtain ⟨later, hle, hafter, hback, hvalue⟩ :=
    h machine (some value) after hgood henvironment (hrun ▸ .done value after)
  exact ⟨later, hle, hafter, hback, hvalue value rfl⟩

variable (hgood : d.Good world machine)

include hgood

theorem Good.values {expressions : List Expr} {values : List Value}
    (htasks : ∀ expression ∈ expressions, d.task world machine.environment (.eval expression))
    (hrun : Eval.values (eval level) expressions machine = .done values after) :
    ∃ later, world ≤ later ∧ d.Good later after ∧ after.environment = machine.environment ∧
      ∀ value ∈ values, d.value later value :=
  (keeps_values (d.keeps_eval level) htasks).of_done hgood rfl hrun

theorem Good.eval {expression : Expr} {value : Value}
    (htask : d.task world machine.environment (.eval expression))
    (hrun : eval level expression machine = .done value after) :
    ∃ later, world ≤ later ∧ d.Good later after ∧ after.environment = machine.environment ∧
      d.value later value :=
  (d.keeps_eval level _ _ _ htask).of_done hgood rfl hrun

theorem Good.exec {statement : Stmt} {flow : Flow}
    (htask : d.task world machine.environment (.exec statement))
    (hrun : exec level statement machine = .done flow after) :
    ∃ later, world ≤ later ∧ d.Good later after ∧ after.environment = machine.environment ∧
      d.flow later flow :=
  (d.keeps_exec level _ _ _ htask).of_done hgood rfl hrun

theorem Good.sequence {statements : List Stmt} {flow : Flow}
    (htasks : ∀ statement ∈ statements, d.task world machine.environment (.exec statement))
    (hrun : Eval.sequence (Script.exec level) statements machine = .done flow after) :
    ∃ later, world ≤ later ∧ d.Good later after ∧ after.environment = machine.environment ∧
      d.flow later flow :=
  (keeps_sequence (d.keeps_exec level) htasks).of_done hgood rfl hrun

theorem Good.turns {condition : Expr} {body : Stmt}
    (htask : d.task world machine.environment (.exec (.loop condition body)))
    (hturns : Turns level condition body machine after) :
    ∃ later, world ≤ later ∧ d.Good later after ∧ after.environment = machine.environment := by
  induction hturns with
  | none => exact ⟨world, le_refl world, hgood, rfl⟩
  | more _ hcondition _ hbody ih =>
      obtain ⟨first, hle₁, hfirst, hback₁⟩ := ih
      have hpart {later : W} {part : Task} (hle : world ≤ later)
          (hmem : part ∈ (Stmt.loop condition body).parts) : d.task later machine.environment part :=
        d.task_mono hle (d.part htask hmem)
      rw [← hback₁] at hpart
      obtain ⟨second, hle₂, hsecond, hback₂, -⟩ :=
        hfirst.eval (hpart hle₁ (by simp [Stmt.parts])) hcondition
      rw [← hback₂] at hpart
      obtain ⟨third, hle₃, hthird, hback₃, -⟩ :=
        hsecond.exec (hpart (le_trans hle₁ hle₂) (by simp [Stmt.parts])) hbody
      exact ⟨third, le_trans (le_trans hle₁ hle₂) hle₃, hthird, hback₃.trans (hback₂.trans hback₁)⟩

theorem Good.calls {callable : Callable} {f : Function} (hcallable : d.value world (.callable callable))
    (hcalls : callable.Calls machine f after) :
    ∃ later, world ≤ later ∧ d.Good later after ∧ d.function later f := by
  cases hcalls with
  | function => exact ⟨world, le_refl world, hgood, hcallable⟩
  | «class» hobject hmethod hbound =>
      obtain ⟨made, hle₁, hmade, hback, hobject, -⟩ :=
        (keeps_instantiate hcallable).of_done hgood rfl hobject
      have hfound := d.method_mono hle₁ (d.method_of_cls hcallable _ _ hmethod)
      obtain ⟨later, hle₂, hlater, -, hf⟩ := (keeps_bind_method hfound hobject).of_done hmade hback hbound
      exact ⟨later, le_trans hle₁ hle₂, hlater, hf⟩

end Done

/-! ### Moments -/

/-- The task and what is held around it are as they should be. -/
structure Fits (d : Discipline W) (world : W) (moment : Moment) : Prop where
  task : d.task world moment.machine.environment moment.task
  held : ∀ value ∈ moment.held, d.value world value

theorem Fits.mono {later : W} {moment : Moment} (h : d.Fits world moment) (hle : world ≤ later) :
    d.Fits later moment :=
  ⟨d.task_mono hle h.task, fun value hmem => value_mono hle (h.held value hmem)⟩

theorem Good.ends {moment : Moment} {after : Machine} {values : List Value}
    (hgood : d.Good world moment.machine) (hfits : d.Fits world moment)
    (hends : moment.Ends values after) :
    ∃ later, world ≤ later ∧ d.Good later after ∧ after.environment = moment.machine.environment ∧
      ∀ value ∈ values, d.value later value := by
  have htask := hfits.task
  cases hends with
  | @eval level expression _ _ _ value? hrun =>
      obtain ⟨later, hle, hlater, hback, hvalue⟩ :=
        d.keeps_eval level _ _ _ htask _ value? after hgood rfl hrun
      exact ⟨later, hle, hlater, hback, fun value hmem => hvalue value (Option.mem_toList.mp hmem)⟩
  | @exec level statement _ _ _ flow? hrun =>
      obtain ⟨later, hle, hlater, hback, hflow⟩ :=
        d.keeps_exec level _ _ _ htask _ flow? after hgood rfl hrun
      refine ⟨later, hle, hlater, hback, ?_⟩
      cases flow? with
      | none => exact List.forall_mem_nil _
      | some flow =>
          cases flow with
          | next => exact List.forall_mem_nil _
          | returned value => exact List.forall_mem_singleton.mpr (hflow _ rfl)

/-- The task of the moment has come to an end, and what is around it goes on from there to the state. -/
def Returns (d : Discipline W) (world : W) (moment : Moment) (after : Machine) : Prop :=
  ∃ values last, moment.Ends values last ∧
    ∀ later, world ≤ later → d.Good later last → last.environment = moment.machine.environment →
      (∀ value ∈ values, d.value later value) → ∃ final, later ≤ final ∧ d.Good final after

section Returns

variable {level : Nat} {machine after : Machine} {held : List Value}

theorem Resumes.eval_returns {expression : Expr}
    (h : d.Resumes world machine.environment (Script.eval level expression machine) d.value after) :
    d.Returns world ⟨level, .eval expression, machine, held⟩ after := by
  obtain ⟨value?, last, hends, hrest⟩ := h
  refine ⟨_, last, .eval hends, fun later hle hgood henvironment hvalues => ?_⟩
  exact hrest later hle hgood henvironment fun value hmem => hvalues value (Option.mem_toList.mpr hmem)

theorem Resumes.exec_returns {statement : Stmt}
    (h : d.Resumes world machine.environment (Script.exec level statement machine) d.flow after) :
    d.Returns world ⟨level, .exec statement, machine, held⟩ after := by
  obtain ⟨flow?, last, hends, hrest⟩ := h
  refine ⟨_, last, .exec hends, fun later hle hgood henvironment hvalues => ?_⟩
  refine hrest later hle hgood henvironment fun flow hmem => ?_
  rw [Option.mem_def.mp hmem] at hvalues
  cases flow with
  | next => trivial
  | returned value => exact hvalues value (List.mem_singleton.mpr rfl)

end Returns

/-- What a task starts fits too, and if the task ends, so does what it started. -/
structure Nested (d : Discipline W) (world : W) (outer inner : Moment) : Prop where
  good : d.Good world inner.machine
  fits : d.Fits world inner
  returns : ∀ values after, outer.Ends values after → d.Returns world inner after

theorem Fits.starts {outer inner : Moment} (hfits : d.Fits world outer)
    (hgood : d.Good world outer.machine) (hstarts : outer.Starts inner) :
    ∃ later, world ≤ later ∧ d.Nested later outer inner := by
  have htask := hfits.task
  cases hstarts with
  | operand hparts hvalues hgoesOn =>
      have hpart {part : Expr} (hmem : part ∈ _ ++ _ :: _) : d.task world _ (.eval part) :=
        d.part htask (List.mem_map_of_mem (hparts ▸ hmem))
      obtain ⟨later, hle, hlater, hback, hheld⟩ :=
        hgood.values (fun part hmem => hpart (List.mem_append_left _ hmem)) hvalues
      refine ⟨later, hle, hlater, ⟨?_, hheld⟩, fun values after hends => ?_⟩
      · simp only [hback]
        exact d.task_mono hle (hpart (by simp))
      · cases hends with
        | eval hrun =>
            have htask := d.task_mono hle htask
            rw [← hback] at htask
            exact (resumes_operand htask hparts hvalues hgoesOn hheld hrun).eval_returns
  | body hvalues harity hdepth hcalls hbody hbefore =>
      obtain ⟨first, hle₁, hfirst, -, hheld⟩ :=
        hgood.values (fun part hmem => d.part htask (List.mem_map_of_mem hmem)) hvalues
      rw [List.forall_mem_cons] at hheld
      obtain ⟨second, hle₂, hsecond, hf⟩ := (hfirst.elsewhere _ _ _).calls hheld.1 hcalls
      obtain ⟨third, hle₃, hthird, htasks⟩ := hsecond.enterBody hf
        fun value hmem => value_mono hle₂ (hheld.2 value hmem)
      rw [hbody] at htasks
      obtain ⟨last, hle₄, hlast, hback, -⟩ := hthird.sequence
        (fun statement hmem => htasks statement (List.mem_append_left _ hmem)) hbefore
      have hsince : first ≤ last := le_trans hle₂ (le_trans hle₃ hle₄)
      refine ⟨last, le_trans hle₁ hsince, hlast, ⟨?_, ?_⟩, fun values after hends => ?_⟩
      · simp only [hback]
        exact d.task_mono hle₄ (htasks _ (by simp))
      · refine List.forall_mem_cons.mpr ⟨value_mono hsince hheld.1, ?_⟩
        refine List.forall_mem_cons.mpr ⟨d.function_mono (le_trans hle₃ hle₄) hf, fun value hmem => ?_⟩
        exact value_mono hsince (hheld.2 value hmem)
      · cases hends with
        | eval hrun =>
            refine Resumes.exec_returns ?_
            rw [hback]
            exact resumes_body hvalues harity hdepth hcalls hbody hbefore
              (fun statement hmem => d.task_mono hle₄ (htasks statement (by simp [hmem]))) hrun
  | first hparts =>
      refine ⟨world, le_refl world, hgood, ⟨d.part htask ?_, List.forall_mem_nil _⟩, ?_⟩
      · rw [Task.parts, hparts]
        exact List.mem_cons_self
      · intro values after hends
        cases hends with
        | exec hrun => exact (resumes_first htask hparts hrun).eval_returns
  | branch hcondition hbranch =>
      obtain ⟨later, hle, hlater, hback, -⟩ := hgood.eval (d.part htask List.mem_cons_self) hcondition
      refine ⟨later, hle, hlater, ⟨?_, List.forall_mem_nil _⟩, fun values after hends => ?_⟩
      · simp only [hback]
        refine d.task_mono hle (d.part htask ?_)
        split at hbranch
        · cases hbranch
          simp [Task.parts, Stmt.parts]
        · simp [Task.parts, Stmt.parts, hbranch]
      · cases hends with
        | exec hrun => exact (resumes_of_ends _ (Stmt.ends_branch hcondition hbranch hrun)).exec_returns
  | condition hturns =>
      obtain ⟨later, hle, hlater, hback⟩ := hgood.turns htask hturns
      have htask := d.task_mono hle htask
      rw [← hback] at htask
      refine ⟨later, hle, hlater, ⟨d.part htask List.mem_cons_self, List.forall_mem_nil _⟩, ?_⟩
      intro values after hends
      cases hends with
      | exec hrun => exact (resumes_condition htask hturns hrun).eval_returns
  | turn hturns hcondition htrue =>
      obtain ⟨first, hle₁, hfirst, hback₁⟩ := hgood.turns htask hturns
      obtain ⟨later, hle₂, hlater, hback₂, -⟩ :=
        hfirst.eval (hback₁ ▸ d.task_mono hle₁ (d.part htask List.mem_cons_self)) hcondition
      have htask := d.task_mono (le_trans hle₁ hle₂) htask
      rw [← hback₁, ← hback₂] at htask
      refine ⟨later, le_trans hle₁ hle₂, hlater, ⟨?_, List.forall_mem_nil _⟩, ?_⟩
      · exact d.part htask (by simp [Task.parts, Stmt.parts])
      · intro values after hends
        cases hends with
        | exec hrun => exact (resumes_turn htask hturns hrun hcondition htrue).exec_returns
  | inner hbefore =>
      obtain ⟨first, hle₁, hfirst, htasks⟩ := hgood.enterBlock htask
      obtain ⟨later, hle₂, hlater, hback, -⟩ := hfirst.sequence
        (fun statement hmem => htasks statement (List.mem_append_left _ hmem)) hbefore
      refine ⟨later, le_trans hle₁ hle₂, hlater, ⟨?_, List.forall_mem_nil _⟩, fun values after hends => ?_⟩
      · simp only [hback]
        exact d.task_mono hle₂ (htasks _ (by simp))
      · cases hends with
        | exec hrun =>
            refine Resumes.exec_returns ?_
            rw [hback]
            exact resumes_inner hbefore
              (fun statement hmem => d.task_mono hle₂ (htasks statement (by simp [hmem]))) hrun

/-! ### Sessions -/

theorem keeps_flush {environment : Environment} :
    d.Keeps world environment Eval.flush fun _ _ => True := by
  intro machine value? after hgood henvironment hends
  unfold Eval.flush at hends
  cases hflush : machine.sink.flush <;> rw [hflush] at hends <;> cases hends <;>
    exact ⟨world, le_refl world, hgood, henvironment, fun _ _ => trivial⟩

section Requests

variable {machine after : Machine} {level : Nat} {source : String} (hgood : d.Good world machine)

include hgood

theorem Good.run {value? : Option Unit}
    (htasks : ∀ task ∈ (Request.run source).tasks, d.task world machine.environment task)
    (hends : (machine.run level source).Ends value? after) :
    ∃ later, world ≤ later ∧ d.Good later after ∧ after.environment = machine.environment := by
  simp only [Request.tasks] at htasks
  simp only [Machine.run] at hends
  split at hends
  · cases hends
    exact ⟨world, le_refl world, hgood, rfl⟩
  · next hread =>
      rw [if_neg hread] at htasks
      have hprogram : d.Keeps world machine.environment (interpret level (readProgram source).tree)
          fun _ _ => True :=
        keeps_bind (keeps_sequence (d.keeps_exec level) fun statement hmem =>
          htasks _ (List.mem_map_of_mem hmem)) fun _ _ _ _ => keeps_flush
      obtain ⟨later, hle, hafter, hback, -⟩ :=
        hprogram machine value? after hgood rfl (Outcome.ends_mapError_iff.mp hends)
      exact ⟨later, hle, hafter, hback⟩

theorem Good.evaluate {value? : Option Value}
    (htasks : ∀ task ∈ (Request.evaluate source).tasks, d.task world machine.environment task)
    (hends : (machine.evaluate level source).Ends value? after) :
    ∃ later, world ≤ later ∧ d.Good later after ∧ after.environment = machine.environment ∧
      ∀ value ∈ value?, d.value later value := by
  have hrefused {value? : Option Value} {diagnostics : Diagnostics}
      (hends : (Outcome.failed (RunError.unreadable diagnostics) machine).Ends value? after) :
      ∃ later, world ≤ later ∧ d.Good later after ∧ after.environment = machine.environment ∧
        ∀ value ∈ value?, d.value later value := by
    cases hends
    exact ⟨world, le_refl world, hgood, rfl, fun _ h => absurd h (Option.not_mem_none _)⟩
  simp only [Request.tasks] at htasks
  simp only [Machine.evaluate] at hends
  split at hends
  · next expression htree =>
      split at hends
      · exact hrefused hends
      · next hread =>
          rw [if_neg hread, htree] at htasks
          exact d.keeps_eval level _ _ _ (htasks (.eval expression) (by simp)) machine value? after hgood
            rfl (Outcome.ends_mapError_iff.mp hends)
  · exact hrefused hends

end Requests

/-- The environment of the globals, in which requests are served. -/
def top : Environment :=
  { innermost := 0 }

/-- What a session needs of a discipline: a good start, and requests that ask for what they should. -/
structure Admits (d : Discipline W) (world : W) (requests : List Request) : Prop where
  start : ∀ sink time, d.state world (.start sink time)
  tasks : ∀ request ∈ requests, ∀ task ∈ request.tasks, d.task world top task

variable {requests : List Request} {results : List Value} {machine : Machine}

theorem Admits.tail {request : Request} (h : d.Admits world (request :: requests)) :
    d.Admits world requests :=
  ⟨h.start, fun other hmem => h.tasks other (List.mem_cons_of_mem _ hmem)⟩

/-- At first there is one value in the store, which holds no function of the program. -/
theorem good_start {sink : Sink} {time : Clock} (hstate : d.state world (.start sink time)) :
    d.Good world (.start sink time) := by
  refine ⟨hstate, fun value hstored => ?_⟩
  rw [Machine.eq_clock_of_start hstored]
  trivial

theorem Admits.session (hadmits : d.Admits world requests) (h : Session requests results machine) :
    ∃ later, world ≤ later ∧ d.Good later machine ∧ machine.environment = top ∧
      ∀ value ∈ results, d.value later value := by
  induction h with
  | start sink time =>
      exact ⟨world, le_refl world, good_start (hadmits.start sink time), rfl, List.forall_mem_nil _⟩
  | run _ level source hends ih =>
      obtain ⟨middle, hle, hgood, htop, hresults⟩ := ih hadmits.tail
      obtain ⟨later, hle', hlater, hback⟩ := hgood.run (fun task hmem => htop ▸
        d.task_mono hle (hadmits.tasks _ List.mem_cons_self task hmem)) hends
      exact ⟨later, le_trans hle hle', hlater, hback.trans htop,
        fun value hmem => value_mono hle' (hresults value hmem)⟩
  | evaluate _ level source hends ih =>
      obtain ⟨middle, hle, hgood, htop, hresults⟩ := ih hadmits.tail
      obtain ⟨later, hle', hlater, hback, hvalue⟩ := hgood.evaluate (fun task hmem => htop ▸
        d.task_mono hle (hadmits.tasks _ List.mem_cons_self task hmem)) hends
      refine ⟨later, le_trans hle hle', hlater, hback.trans htop, fun value hmem => ?_⟩
      rcases List.mem_append.mp hmem with hnew | hbefore
      · exact hvalue value (Option.mem_toList.mp hnew)
      · exact value_mono hle' (hresults value hbefore)
  | clock _ time ih =>
      obtain ⟨later, hle, hgood, htop, hresults⟩ := ih hadmits
      exact ⟨later, hle, hgood.elsewhere _ _ time, htop, hresults⟩

/-- At each moment of a session the machine is in a good state, and all that is in progress fits. -/
theorem Admits.inProgress {stack : List Moment} (hadmits : d.Admits world requests)
    (h : InProgress requests results stack) :
    ∃ later, world ≤ later ∧ (∀ moment ∈ stack.head?, d.Good later moment.machine) ∧
      (∀ moment ∈ stack, d.Fits later moment) ∧ ∀ value ∈ results, d.value later value := by
  induction h with
  | statement h hprogram hbefore =>
      obtain ⟨first, hle₁, hgood, htop, hresults⟩ := hadmits.tail.session h
      have htasks := hadmits.tasks _ List.mem_cons_self
      rw [hprogram, List.forall_mem_map] at htasks
      obtain ⟨later, hle₂, hlater, hback, -⟩ := hgood.sequence (fun statement hmem => htop ▸
        d.task_mono hle₁ (htasks statement (List.mem_append_left _ hmem))) hbefore
      refine ⟨later, le_trans hle₁ hle₂, ?_, ?_, fun value hmem => value_mono hle₂ (hresults value hmem)⟩
      · rintro _ ⟨⟩
        exact hlater
      · refine List.forall_mem_singleton.mpr ⟨?_, List.forall_mem_nil _⟩
        simp only [hback, htop]
        exact d.task_mono (le_trans hle₁ hle₂) (htasks _ (by simp))
  | expression _ h hexpression =>
      obtain ⟨later, hle, hgood, htop, hresults⟩ := hadmits.tail.session h
      have htasks := hadmits.tasks _ List.mem_cons_self
      rw [hexpression, List.forall_mem_singleton] at htasks
      refine ⟨later, hle, ?_, ?_, hresults⟩
      · rintro _ ⟨⟩
        exact hgood
      · refine List.forall_mem_singleton.mpr ⟨?_, List.forall_mem_nil _⟩
        simp only [htop]
        exact d.task_mono hle htasks
  | deeper _ hstarts ih =>
      obtain ⟨middle, hle, hgood, hfits, hresults⟩ := ih hadmits
      obtain ⟨later, hle', hnested⟩ := (hfits _ List.mem_cons_self).starts (hgood _ rfl) hstarts
      refine ⟨later, le_trans hle hle', ?_, ?_, fun value hmem => value_mono hle' (hresults value hmem)⟩
      · rintro _ ⟨⟩
        exact hnested.good
      · exact List.forall_mem_cons.mpr ⟨hnested.fits, fun moment hmem => (hfits moment hmem).mono hle'⟩

/-- In all states of a session, the machine is good, its environment is the first one in use, something
fits in each environment but that of the globals, and the values in hand are as they should be. -/
theorem Admits.situation {environments : List Environment} {values : List Value}
    (hadmits : d.Admits world requests) (h : Situation requests machine environments values) :
    ∃ later, world ≤ later ∧ d.Good later machine ∧ environments.head? = some machine.environment ∧
      (∀ environment ∈ environments, environment = top ∨ ∃ task, d.task later environment task) ∧
      ∀ value ∈ values, d.value later value := by
  have hheld {later : W} {stack : List Moment} {results : List Value} (hfits : ∀ moment ∈ stack, d.Fits later moment)
      (hresults : ∀ value ∈ results, d.value later value) :
      ∀ value ∈ stack.flatMap Moment.held ++ results, d.value later value := by
    intro value hmem
    rcases List.mem_append.mp hmem with hheld | hresult
    · obtain ⟨moment, hmoment, hvalue⟩ := List.mem_flatMap.mp hheld
      exact (hfits moment hmoment).held value hvalue
    · exact hresults value hresult
  have henvironments {later : W} {stack : List Moment} (hfits : ∀ moment ∈ stack, d.Fits later moment) :
      ∀ environment ∈ stack.map (·.machine.environment),
        environment = top ∨ ∃ task, d.task later environment task :=
    List.forall_mem_map.mpr fun moment hmem => Or.inr ⟨moment.task, (hfits moment hmem).task⟩
  cases h with
  | between h =>
      obtain ⟨later, hle, hgood, htop, hresults⟩ := hadmits.session h
      exact ⟨later, hle, hgood, rfl, List.forall_mem_singleton.mpr (Or.inl htop), hresults⟩
  | start h =>
      obtain ⟨later, hle, hgood, hfits, hresults⟩ := hadmits.inProgress h
      exact ⟨later, hle, hgood _ rfl, rfl, henvironments hfits, hheld hfits hresults⟩
  | stop h hends =>
      obtain ⟨middle, hle, hgood, hfits, hresults⟩ := hadmits.inProgress h
      obtain ⟨later, hle', hlater, hback, hvalues⟩ :=
        (hgood _ rfl).ends (hfits _ List.mem_cons_self) hends
      have hfits := fun moment hmem => (hfits moment hmem).mono hle'
      have hresults := fun value hmem => value_mono hle' (hresults value hmem)
      refine ⟨later, le_trans hle hle', hlater, congrArg some hback.symm, henvironments hfits, ?_⟩
      intro value hmem
      rcases List.mem_append.mp hmem with hnew | hheld'
      · exact hvalues value hnew
      · exact hheld hfits hresults value hheld'

end Discipline

end Script
