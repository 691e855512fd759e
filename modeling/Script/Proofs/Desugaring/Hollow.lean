import Mathlib.Order.CompleteBooleanAlgebra
import Mathlib.Order.CompletePartialOrder
import Script.Proofs.Alike.Operations
import Script.Proofs.Discipline.Time

/-!
# Scopes that stay empty

A block of statements that are no declarations defines nothing in its scope. What is executed inside of them
stands in scopes of its own, and an assignment does not find a name there. So the scope is empty at every moment
while the block is executed.
-/

namespace Script

def Task.definesNothing : Task → Bool
  | .eval _ => true
  | .exec statement => statement.definesNothing

theorem Task.definesNothing_of_part {whole part : Task} (h : whole.definesNothing = true)
    (hpart : part ∈ whole.parts) : part.definesNothing = true := by
  cases whole with
  | eval expression =>
      obtain ⟨_, -, rfl⟩ := List.mem_map.mp hpart
      rfl
  | exec statement =>
      cases statement with
      | conditional condition whenTrue whenFalse =>
          cases whenFalse with
          | none =>
              rcases List.mem_cons.mp hpart with rfl | hbranch
              · rfl
              · rw [List.mem_singleton.mp hbranch]
                exact h
          | some whenFalse =>
              obtain ⟨htrue, hfalse⟩ := Bool.and_eq_true_iff.mp h
              rcases List.mem_cons.mp hpart with rfl | hbranch
              · rfl
              · rcases List.mem_cons.mp hbranch with rfl | hbranch
                · exact htrue
                · rw [List.mem_singleton.mp hbranch]
                  exact hfalse
      | loop condition body =>
          rcases List.mem_cons.mp hpart with rfl | hbody
          · rfl
          · rw [List.mem_singleton.mp hbody]
            exact h
      | expression | print =>
          rw [List.mem_singleton.mp hpart]
          rfl
      | «return» keyword value =>
          obtain ⟨_, -, rfl⟩ := List.mem_map.mp hpart
          rfl
      | block | classDecl | function | var => cases h <;> cases hpart

/-- The scope is there and holds nothing. -/
structure Store.Hollow (scope : ScopeId) (store : Store) : Prop where
  made : scope < store.scopes.size
  empty : store.scope scope = {}

namespace Store.Hollow

variable {scope : ScopeId} {store : Store}

theorem addScope (h : store.Hollow scope) (contents : Bindings Value) : (store.addScope contents).2.Hollow scope where
  made := Nat.lt_of_lt_of_eq (Nat.lt_succ_of_lt h.made) (Array.size_push _).symm
  empty := by
    rw [scope_addScope, if_neg (Nat.ne_of_lt h.made)]
    exact h.empty

theorem define (h : store.Hollow scope) {other : ScopeId} (hother : other ≠ scope) (name : String) (value : Value) :
    (store.define other name value).Hollow scope where
  made := Nat.lt_of_lt_of_eq h.made Array.size_modify.symm
  empty := by
    rw [scope_define, if_neg fun heq => hother heq.1.symm]
    exact h.empty

/-- No name is found in it. -/
theorem ne_of_resolve? (h : store.Hollow scope) {environment : Environment} {name : String} {found : ScopeId}
    (hfound : store.resolve? environment name = some found) : found ≠ scope := by
  rintro rfl
  have hholds := List.find?_some hfound
  rw [h.empty] at hholds
  cases hholds

end Store.Hollow

theorem Stmt.defines_eq_none {statement : Stmt} (h : statement.definesNothing = true) : statement.defines = none := by
  cases statement with
  | classDecl | function | var => cases h
  | _ => rfl

/-- What stands in the scope itself defines nothing. -/
def hollowDiscipline (hollow : ScopeId) : Discipline Unit where
  state _ machine := machine.store.Hollow hollow
  function _ _ := True
  method _ _ := True
  cls _ _ := True
  object _ _ := True
  task _ environment task := environment.innermost = hollow → task.definesNothing = true
  function_mono _ _ := trivial
  method_mono _ _ := trivial
  cls_mono _ _ := trivial
  object_mono _ _ := trivial
  task_mono _ h := h
  method_of_cls _ _ _ _ := trivial
  cls_of_object _ := trivial
  elsewhere _ _ _ h := h
  written _ h := h
  part h hpart hinnermost := Task.definesNothing_of_part (h hinnermost) hpart
  block _ h := ⟨(), le_refl _, h.addScope _, fun _ _ hinnermost => absurd hinnermost (Nat.ne_of_gt h.made)⟩
  body _ _ h := ⟨(), le_refl _, h.addScope _, fun _ _ hinnermost => absurd hinnermost (Nat.ne_of_gt h.made)⟩
  declared _ h := ⟨(), le_refl _, ⟨h.made, h.empty⟩, trivial⟩
  declaredClass _ h := by
    refine ⟨(), le_refl _, ?_, trivial⟩
    rw [Store.addClass_eq]
    exact ⟨h.made, h.empty⟩
  bound _ _ h := ⟨(), le_refl _, ⟨(h.addScope _).made, (h.addScope _).empty⟩, trivial⟩
  made _ h := ⟨(), le_refl _, ⟨h.made, h.empty⟩, trivial⟩
  defined value htask hname h := by
    refine ⟨(), le_refl _, h.define (fun hinnermost => ?_) _ value⟩
    cases (Stmt.defines_eq_none (htask hinnermost)).symm.trans hname
  assigned value _ hscope h := ⟨(), le_refl _, h.define (h.ne_of_resolve? hscope) _ value⟩
  field _ _ _ h := ⟨(), le_refl _, ⟨h.made, h.empty⟩⟩

/-- While a block of statements that define nothing is executed, its scope is empty. -/
theorem scope_block_empty {level : Nat} {statements : List Stmt} {machine : Machine} {held : List Value}
    (hstatements : ∀ statement ∈ statements, statement.definesNothing = true) {machine' : Machine}
    (hpasses : (⟨level, .exec (.block statements), machine, held⟩ : Moment).Passes machine') :
    machine'.store.scope machine.store.scopes.size = {} := by
  have hhollow : machine.enterBlock.store.Hollow machine.store.scopes.size :=
    ⟨Nat.lt_of_lt_of_eq (Nat.lt_succ_self _) (Array.size_push _).symm, by
      rw [Machine.enterBlock, Store.scope_addScope, if_pos rfl]⟩
  have hgood : (hollowDiscipline machine.store.scopes.size).Good () machine.enterBlock :=
    ⟨hhollow, fun value _ => Discipline.value_of_all (fun _ => trivial) (fun _ => trivial) (fun _ => trivial) value⟩
  have htasks (environment : Environment) (statement : Stmt) (hmem : statement ∈ statements) :
      (hollowDiscipline machine.store.scopes.size).task () environment (.exec statement) :=
    fun _ => hstatements statement hmem
  cases hpasses with
  | start =>
      exact @Store.contents_of_not_has _ (.scope machine.store.scopes.size) (Nat.lt_irrefl _)
  | inside hstarts hpasses =>
      cases hstarts with
      | first hparts => cases hparts
      | inner hbefore =>
          obtain ⟨_, -, hmiddle, -⟩ := hgood.sequence
            (fun statement hmem => htasks _ statement (List.mem_append_left _ hmem)) hbefore
          obtain ⟨_, -, hlater⟩ := hmiddle.throughout
            ⟨htasks _ _ (List.mem_append_right _ List.mem_cons_self), List.forall_mem_nil _⟩ hpasses
          exact hlater.state.empty
  | stop hends =>
      cases hends with
      | exec hrun =>
          cases level with
          | zero => cases hrun
          | succ level =>
              obtain ⟨last, hlast, rfl⟩ := Outcome.ends_mapMachine_iff.mp hrun
              obtain ⟨_, -, hlater, -⟩ := Discipline.keeps_sequence
                (Discipline.keeps_exec _ level) (htasks _) _ _ _ hgood rfl hlast
              exact hlater.state.empty

end Script
