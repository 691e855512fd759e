import Script.Proofs.Desugaring.Hollow
import Script.Proofs.Formed.Parser
import Script.Proofs.Scopes.Captured

/-!
# Names of a scope

Only a declaration adds a name, and only to the scope it stands in. Calls run other declarations in the middle of an
expression, but these stand in scopes that the calls have made. What stands in an older scope is a branch or the body
of a loop, which is no declaration.
-/

namespace Script

/-! ### Stores with the same names -/

/-- All scopes of the first store are in the second one, with the names that they had. -/
structure Store.KeepsNames (store after : Store) : Prop where
  scopes : store.scopes.size ≤ after.scopes.size
  names : ∀ scope < store.scopes.size, ∀ name, after.defines name scope = store.defines name scope

/-- All scopes of the first store are in the second one, with the names that they had, but for one name that is in
one of the scopes now. -/
structure Store.AddsName (store after : Store) (added : String) (place : ScopeId) : Prop where
  scopes : store.scopes.size ≤ after.scopes.size
  names : ∀ scope < store.scopes.size, ∀ name,
    after.defines name scope = (store.defines name scope || (decide (scope = place) && decide (name = added)))

theorem Store.defines_define (store : Store) (id : ScopeId) (name : String) (value : Value) (other : String)
    {scope : ScopeId} (hscope : scope < store.scopes.size) :
    (store.define id name value).defines other scope =
      (store.defines other scope || (decide (scope = id) && decide (other = name))) := by
  unfold Store.defines
  rw [Store.scope_define]
  by_cases hid : scope = id
  · subst hid
    rw [if_pos ⟨rfl, hscope⟩, Bindings.get?_set]
    by_cases hname : other = name <;> simp [hname]
  · simp [hid]

theorem Store.defines_of_resolve? {store : Store} {environment : Environment} {name : String} {scope : ScopeId}
    (h : store.resolve? environment name = some scope) : store.defines name scope = true :=
  List.find?_some h

namespace Store.KeepsNames

variable {start store after : Store}

theorem refl (store : Store) : store.KeepsNames store :=
  ⟨le_refl _, fun _ _ _ => rfl⟩

theorem addScope (h : start.KeepsNames store) (contents : Bindings Value) :
    start.KeepsNames (store.addScope contents).2 where
  scopes := Nat.le_trans h.scopes (Array.size_push contents ▸ Nat.le_succ _)
  names scope hscope name := by
    have hold : scope ≠ store.scopes.size := Nat.ne_of_lt (Nat.lt_of_lt_of_le hscope h.scopes)
    rw [← h.names scope hscope, Store.defines, Store.scope_addScope, if_neg hold]
    rfl

/-- A definition adds nothing to older scopes if it is in a newer one, or if the name is there already. -/
theorem define (h : start.KeepsNames store) {id : ScopeId} {name : String} (value : Value)
    (hid : id < start.scopes.size → store.defines name id = true) :
    start.KeepsNames (store.define id name value) where
  scopes := h.scopes.trans_eq Array.size_modify.symm
  names scope hscope other := by
    rw [Store.defines_define _ _ _ _ _ (Nat.lt_of_lt_of_le hscope h.scopes), ← h.names scope hscope]
    by_cases heq : scope = id ∧ other = name
    · obtain ⟨rfl, rfl⟩ := heq
      simp [hid hscope]
    · rw [← Bool.decide_and, decide_eq_false heq, Bool.or_false]

/-- A definition in one of the scopes adds its name there. -/
theorem addsName_define (h : start.KeepsNames store) (id : ScopeId) (name : String) (value : Value) :
    start.AddsName (store.define id name value) name id where
  scopes := h.scopes.trans_eq Array.size_modify.symm
  names scope hscope other := by
    rw [Store.defines_define _ _ _ _ _ (Nat.lt_of_lt_of_le hscope h.scopes), h.names scope hscope]

theorem of_scopes (h : start.KeepsNames store) (hscopes : after.scopes = store.scopes) : start.KeepsNames after where
  scopes := hscopes ▸ h.scopes
  names scope hscope name := by
    rw [← h.names scope hscope, Store.defines, Store.scope, hscopes]
    rfl

end Store.KeepsNames

/-! ### What is executed -/

/-- What stands in a scope that was there at the start defines nothing. -/
def namesDiscipline (start : Store) : Discipline Unit where
  state _ machine := start.KeepsNames machine.store
  function _ _ := True
  method _ _ := True
  cls _ _ := True
  object _ _ := True
  task _ environment task := environment.innermost < start.scopes.size → task.definesNothing = true
  function_mono _ _ := trivial
  method_mono _ _ := trivial
  cls_mono _ _ := trivial
  object_mono _ _ := trivial
  task_mono _ h := h
  method_of_cls _ _ _ _ := trivial
  cls_of_object _ := trivial
  elsewhere _ _ _ h := h
  written _ h := h
  part h hpart hinnermost := Task.definesNothing_of_part (h hinnermost) hpart
  block _ h := ⟨(), le_refl _, h.addScope _, fun _ _ hnew => absurd hnew (Nat.not_lt.mpr h.scopes)⟩
  body _ _ h := ⟨(), le_refl _, h.addScope _, fun _ _ hnew => absurd hnew (Nat.not_lt.mpr h.scopes)⟩
  declared _ h := ⟨(), le_refl _, h.of_scopes rfl, trivial⟩
  declaredClass _ h := by
    refine ⟨(), le_refl _, ?_, trivial⟩
    rw [Store.addClass_eq]
    exact h.of_scopes rfl
  bound _ _ h := ⟨(), le_refl _, (h.addScope _).of_scopes rfl, trivial⟩
  made _ h := ⟨(), le_refl _, h.of_scopes rfl, trivial⟩
  defined value htask hname h := by
    refine ⟨(), le_refl _, h.define value fun hold => ?_⟩
    cases (Stmt.defines_eq_none (htask hold)).symm.trans hname
  assigned value _ hscope h := ⟨(), le_refl _, h.define value fun _ => Store.defines_of_resolve? hscope⟩
  field _ _ _ h := ⟨(), le_refl _, h.of_scopes rfl⟩

section Tasks

variable {level : Nat} {machine after : Machine}

theorem namesDiscipline_good (machine : Machine) : (namesDiscipline machine.store).Good () machine :=
  ⟨.refl _, fun value _ => Discipline.value_of_all (fun _ => trivial) (fun _ => trivial) (fun _ => trivial) value⟩

/-- However an expression ends, it adds no names. -/
theorem Store.keepsNames_of_eval {expression : Expr} {value? : Option Value}
    (hends : (eval level expression machine).Ends value? after) : machine.store.KeepsNames after.store := by
  obtain ⟨_, -, hafter, -⟩ := Discipline.keeps_eval _ level () _ _ (fun _ => rfl) _ _ _
    (namesDiscipline_good machine) rfl hends
  exact hafter.state

theorem Store.keepsNames_of_exec {statement : Stmt} (hstatement : statement.definesNothing = true)
    {flow? : Option Flow} (hends : (exec level statement machine).Ends flow? after) :
    machine.store.KeepsNames after.store := by
  obtain ⟨_, -, hafter, -⟩ := Discipline.keeps_exec _ level () _ _ (fun _ => hstatement) _ _ _
    (namesDiscipline_good machine) rfl hends
  exact hafter.state

/-- A declaration makes a value, which adds no names, and then defines its own. -/
theorem Stmt.exists_define {statement : Stmt} {name : String} (h : statement.defines = some name) (level : Nat) :
    ∃ first : Eval Value,
      exec (level + 1) statement = (first >>= fun value => Eval.define name value >>= fun _ => pure .next) ∧
        ∀ machine value? after, (first machine).Ends value? after →
          machine.store.KeepsNames after.store ∧ after.environment = machine.environment := by
  cases statement with
  | var token initializer =>
      cases h
      cases initializer with
      | none =>
          refine ⟨pure .nil, rfl, fun machine value? after hends => ?_⟩
          cases hends
          exact ⟨.refl _, rfl⟩
      | some e =>
          refine ⟨eval level e, rfl, fun machine value? after hends => ?_⟩
          exact ⟨Store.keepsNames_of_eval hends, (kept_of_eval hends).environment⟩
  | classDecl token declarations =>
      cases h
      refine ⟨Eval.environment >>= fun environment =>
        Eval.change (·.addClass token.lexeme declarations environment) >>= fun cls => pure (.callable (.class cls)),
        rfl, fun machine value? after hends => ?_⟩
      cases hends
      refine ⟨(Store.KeepsNames.refl _).of_scopes ?_, rfl⟩
      exact congrArg (·.2.scopes) (Store.addClass_eq machine.store token.lexeme declarations machine.environment)
  | function declaration =>
      cases h
      refine ⟨Eval.environment >>= fun environment =>
        Eval.change (·.addFunction declaration environment) >>= fun f => pure (.callable (.function f)),
        rfl, fun machine value? after hends => ?_⟩
      cases hends
      exact ⟨(Store.KeepsNames.refl _).of_scopes rfl, rfl⟩
  | block | expression | conditional | print | «return» | loop => cases h

/-- A declaration adds its name to the current scope if it succeeds, and nothing else. -/
theorem Stmt.addsName_of_exec {statement : Stmt} {name : String} (h : statement.defines = some name)
    {flow? : Option Flow} (hends : (exec level statement machine).Ends flow? after) :
    if flow?.isSome then machine.store.AddsName after.store name machine.environment.innermost
    else machine.store.KeepsNames after.store := by
  cases level with
  | zero => cases hends
  | succ level =>
      obtain ⟨first, heq, hfirst⟩ := Stmt.exists_define h level
      rw [heq] at hends
      rcases Eval.ends_bind hends with ⟨error, hfailed, rfl⟩ | ⟨value, middle, hdone, hends⟩
      · exact (hfirst machine none after (hfailed ▸ .failed error after)).1
      · obtain ⟨hkeeps, henvironment⟩ := hfirst _ _ _ (.of_done hdone)
        cases hends
        exact henvironment ▸ hkeeps.addsName_define middle.environment.innermost name value

end Tasks

/-! ### Names and lookups last -/

theorem Store.isSome_lookup? (store : Store) (environment : Environment) (name : String) :
    (store.lookup? environment name).isSome = environment.chain.any (store.defines name) := by
  unfold Store.lookup?
  induction environment.chain with
  | nil => rfl
  | cons scope rest ih =>
      rw [List.findSome?_cons, List.any_cons, Store.defines, ← ih]
      cases (store.scope scope).get? name <;> rfl

theorem Store.isSome_lookup?_of_le {store after : Store} (hle : store ≤ after) {environment : Environment}
    {name : String} (h : (store.lookup? environment name).isSome = true) :
    (after.lookup? environment name).isSome = true := by
  rw [Store.isSome_lookup?, List.any_eq_true] at h ⊢
  obtain ⟨scope, hmem, hdefines⟩ := h
  exact ⟨scope, hmem, Store.defines_of_le hle hdefines⟩

/-- In whatever state, an expression leaves all scopes with the names that they had, and so does a statement of a
program that is no declaration. A declaration adds its name to the current scope, unless it fails, and nothing else.
In the course of a session, scopes lose no names, and a name that is found in an environment is always found in it
later. -/
theorem names_addedByDeclarations (tokens : List Token) :
    (∀ level expression machine value? after, (eval level expression machine).Ends value? after →
      machine.store.KeepsNames after.store) ∧
    (∀ layers statement, Occurs (programOf tokens) layers (.exec statement) →
      ∀ level machine flow? after, (exec level statement machine).Ends flow? after →
        match statement.defines with
        | none => machine.store.KeepsNames after.store
        | some name =>
          if flow?.isSome then machine.store.AddsName after.store name machine.environment.innermost
          else machine.store.KeepsNames after.store) ∧
    ∀ before after, Precedes before after →
      (∀ scope name, before.store.defines name scope = true → after.store.defines name scope = true) ∧
      ∀ environment name, (before.store.lookup? environment name).isSome = true →
        (after.store.lookup? environment name).isSome = true := by
  refine ⟨fun _ _ _ _ _ hends => Store.keepsNames_of_eval hends, ?_, fun before after h => ⟨?_, ?_⟩⟩
  · intro layers statement hoccurs level machine flow? after hends
    split
    · next hnone => exact Store.keepsNames_of_exec (hoccurs.definesNothing hnone) hends
    · next name hname => exact Stmt.addsName_of_exec hname hends
  · exact fun scope name hdefines => Store.defines_of_le h.store_le hdefines
  · exact fun environment name hfound => Store.isSome_lookup?_of_le h.store_le hfound

/-- In a block, the call of a function adds no name, and the declaration of a variable after it adds that of the
variable. The name of the function is found before and after. -/
theorem names_addedByDeclarations_in_block :
    ∃ before middle after, exec 8 Shadowing.calling before = .done .next middle ∧
      before.store.KeepsNames middle.store ∧ exec 8 (Shadowing.statement "block") middle = .done .next after ∧
        middle.store.AddsName after.store "a" 1 ∧ middle.store.defines "a" 1 = false ∧ Precedes middle after ∧
          (after.store.lookup? after.environment "f").isSome = true := by
  have htree : (parseProgram Shadowing.tokens).tree = Shadowing.program := rfl
  have hblock : Occurs (programOf Shadowing.tokens) [] (.exec (.block Shadowing.block)) :=
    .whole ⟨_, htree ▸ List.mem_cons_of_mem _ List.mem_cons_self, rfl⟩
  have hinner {statement : Stmt} (h : statement ∈ Shadowing.block) :
      Occurs (programOf Shadowing.tokens) [.block] (.exec statement) :=
    hblock.inside (List.mem_singleton.mpr rfl) h
  obtain ⟨-, hstatements, hsession⟩ := names_addedByDeclarations Shadowing.tokens
  have hcall : exec 8 Shadowing.calling (Shadowing.inBlock [.function Shadowing.declaration]) =
      .done .next (Shadowing.inBlock [.function Shadowing.declaration, Shadowing.calling]) :=
    rfl
  have hdefine : exec 8 (Shadowing.statement "block")
      (Shadowing.inBlock [.function Shadowing.declaration, Shadowing.calling]) = .done .next
        (Shadowing.inBlock [.function Shadowing.declaration, Shadowing.calling, Shadowing.statement "block"]) :=
    rfl
  have hprogress : InProgress [.run Shadowing.source] [] (⟨8, .exec (Shadowing.statement "block"),
      Shadowing.inBlock [.function Shadowing.declaration, Shadowing.calling], []⟩ :: _) :=
    Shadowing.inProgress rfl rfl
  have hprecedes : Precedes (Shadowing.inBlock [.function Shadowing.declaration, Shadowing.calling])
      (Shadowing.inBlock [.function Shadowing.declaration, Shadowing.calling, Shadowing.statement "block"]) :=
    hprogress.precedes_of_ends (.exec (.of_done hdefine))
  refine ⟨_, _, _, hcall, ?_, hdefine, ?_, rfl, hprecedes, ?_⟩
  · exact hstatements _ _ (hinner (by simp [Shadowing.block])) _ _ _ _ (.of_done hcall)
  · exact hstatements _ _ (hinner (by simp [Shadowing.block])) _ _ _ _ (.of_done hdefine)
  · exact (hsession _ _ hprecedes).2 _ "f" rfl

end Script
