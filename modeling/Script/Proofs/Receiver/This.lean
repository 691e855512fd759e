import Script.Proofs.Discipline.Time
import Script.Proofs.Receiver.Layers
import Script.Proofs.Receiver.Names

/-!
# `this` means the receiver

No definition, parameter or assignment of a program is of `this`, so what stands under that name is what a
binding put there. Where a task stands in the program tells which scopes it sees, and with them whose binding.
-/

namespace Script

/-! ### Names in the parts of a program -/

theorem Stmt.Like.layers {T : Matching} {statement : Stmt} (h : Stmt.Like T statement statement)
    {layer : Layer} {statements : List Stmt} (hlayer : (layer, statements) ∈ statement.layers) :
    ∀ inner ∈ statements, Stmt.Like T inner inner := by
  cases h with
  | block h =>
      obtain ⟨-, rfl⟩ := Prod.mk.inj (List.mem_singleton.mp hlayer)
      exact List.forall₂_same.mp h
  | function h =>
      obtain ⟨-, rfl⟩ := Prod.mk.inj (List.mem_singleton.mp hlayer)
      cases h with
      | mk _ _ hbody => exact List.forall₂_same.mp hbody
  | classDecl _ hmethods =>
      obtain ⟨method, hmethod, heq⟩ := List.mem_map.mp hlayer
      obtain ⟨-, rfl⟩ := Prod.mk.inj heq
      cases List.forall₂_same.mp hmethods method hmethod with
      | mk _ _ hbody => exact List.forall₂_same.mp hbody
  | expression | conditional | print | «return» | var | loop => cases hlayer

theorem Occurs.like {T : Matching} {programs : Set Task} (hprograms : ∀ task ∈ programs, Task.Like T task task)
    {layers : List Layer} {task : Task} (h : Occurs programs layers task) : Task.Like T task task := by
  induction h with
  | whole h => exact hprograms _ h
  | part _ hpart ih => exact List.forall₂_same.mp ih.parts _ hpart
  | inside _ hlayer hstatement ih =>
      cases ih with
      | exec h => exact .exec (h.layers hlayer _ hstatement)

theorem Declaration.Like.params_ne {declaration : Declaration}
    (h : Declaration.Like .named declaration declaration) :
    ∀ param ∈ declaration.params, param.lexeme ≠ "this" := by
  cases h with
  | mk _ hparams => exact List.forall₂_same.mp hparams

theorem Stmt.Like.defines_ne {statement : Stmt} (h : Stmt.Like .named statement statement) {name : String}
    (hname : statement.defines = some name) : name ≠ "this" := by
  cases h with
  | var hlexeme | classDecl hlexeme =>
      obtain rfl := Option.some.inj hname
      exact hlexeme
  | function h =>
      obtain rfl := Option.some.inj hname
      cases h with
      | mk hlexeme => exact hlexeme
  | block | expression | conditional | print | «return» | loop => cases hname

theorem Task.Like.of_exec {T : Matching} {statement statement' : Stmt}
    (h : Task.Like T (.exec statement) (.exec statement')) : Stmt.Like T statement statement' := by
  cases h with
  | exec h => exact h

theorem Task.Like.assigns_ne {name : Token} {value : Expr}
    (h : Task.Like .named (.eval (.assign name value)) (.eval (.assign name value))) :
    name.lexeme ≠ "this" := by
  cases h with
  | eval h =>
      cases h with
      | assign hname => exact hname

/-! ### The discipline -/

/-- The function's body stands in layers of which the inner one is its own, and its closure has the scopes
of the others. -/
structure Opens (programs : Set Task) (store : Store) (f : Function) : Prop where
  named : Declaration.Like .named f.declaration f.declaration
  body : ∃ layers receiver, (∀ statement ∈ f.declaration.body, Occurs programs layers (.exec statement)) ∧
    ∀ later scope, store ≤ later → later.Plain scope →
      Enclosed later layers (scope :: f.closure.chain) receiver

/-- The method's body stands in a layer of its own, and its closure has the scopes of the layers around. -/
structure Declares (programs : Set Task) (store : Store) (f : Function) : Prop where
  named : Declaration.Like .named f.declaration f.declaration
  body : ∃ layers receiver, Enclosed store layers f.closure.chain receiver ∧
    ∀ statement ∈ f.declaration.body, Occurs programs (.method f.declaration :: layers) (.exec statement)

/-- The task is from the programs, and the environment has the scopes of the layers it stands in. -/
structure Stands (programs : Set Task) (store : Store) (environment : Environment) (task : Task) : Prop where
  named : Task.Like .named task task
  place : ∃ layers receiver, Occurs programs layers task ∧ Enclosed store layers environment.chain receiver

theorem Store.plain_addScope (store : Store) {contents : Bindings Value}
    (hfree : contents.get? "this" = none) : (store.addScope contents).2.Plain store.scopes.size := by
  refine ⟨?_, ?_⟩
  · change _ < (store.scopes.push contents).size
    rw [Array.size_push]
    exact Nat.lt_succ_self _
  · rw [Store.scope_addScope, if_pos rfl]
    exact hfree

/-- Where a name other than `this` is found, there is no `this`. -/
theorem Store.free_of_resolve? {store : Store} (hstore : Store.initial ≤ store) {environment : Environment}
    {name : String} (hname : name ≠ "this") {scope : ScopeId}
    (h : store.resolve? environment name = some scope) : (store.scope scope).get? "this" = none := by
  have hfound := List.find?_some h
  cases hthis : (store.scope scope).get? "this" with
  | none => rfl
  | some value =>
      obtain ⟨method, object, bound, hbound, rfl⟩ := Store.exists_bound hstore hthis
      rw [hbound.scope_eq.2.2, Bindings.get?_receiver, if_neg hname] at hfound
      cases hfound

/-- The world is the store of the machine. -/
structure Store.Describes (store : Store) (machine : Machine) : Prop where
  eq : machine.store = store
  started : Store.initial ≤ store

theorem Store.Describes.step {store after : Store} {machine : Machine} (h : store.Describes machine)
    (hstep : machine.store.Step after) : store ≤ after ∧ after.Describes { machine with store := after } := by
  obtain ⟨rfl, hstart⟩ := h
  exact ⟨hstep.le, rfl, le_trans hstart hstep.le⟩

theorem Stands.block {programs : Set Task} {store : Store} {environment : Environment}
    {statements : List Stmt} (h : Stands programs store environment (.exec (.block statements)))
    {later : Store} (hle : store ≤ later) {scope : ScopeId} (hplain : later.Plain scope) :
    ∀ statement ∈ statements, Stands programs later (environment.push scope) (.exec statement) := by
  obtain ⟨hnamed, layers, receiver, hoccurs, henclosed⟩ := h
  have hlayer : (Layer.block, statements) ∈ (Stmt.block statements).layers := List.mem_singleton.mpr rfl
  intro statement hmem
  exact ⟨.exec (hnamed.of_exec.layers hlayer statement hmem), _, receiver, hoccurs.inside hlayer hmem,
    .block (henclosed.mono hle) hplain⟩

theorem Stands.declared {programs : Set Task} {store : Store} {environment : Environment}
    {declaration : Declaration} (h : Stands programs store environment (.exec (.function declaration)))
    (id : Nat) : Opens programs store ⟨id, declaration, environment⟩ := by
  obtain ⟨hnamed, layers, receiver, hoccurs, henclosed⟩ := h
  have hdeclaration : Declaration.Like .named declaration declaration := by
    cases hnamed.of_exec with
    | function h => exact h
  refine ⟨hdeclaration, .function declaration :: layers, receiver, fun statement hmem => ?_, ?_⟩
  · exact hoccurs.inside (List.mem_singleton.mpr rfl) hmem
  · exact fun later scope hle hplain => .function declaration (henclosed.mono hle) hplain

theorem Stands.member {programs : Set Task} {store : Store} {environment : Environment} {name : Token}
    {declarations : List Declaration} {declaration : Declaration}
    (h : Stands programs store environment (.exec (.classDecl name declarations)))
    (hmem : declaration ∈ declarations) (id : Nat) :
    Declares programs store ⟨id, declaration, environment⟩ := by
  obtain ⟨hnamed, layers, receiver, hoccurs, henclosed⟩ := h
  have hmethods : List.Forall₂ (Declaration.Like .named) declarations declarations := by
    cases hnamed.of_exec with
    | classDecl _ h => exact h
  exact ⟨List.forall₂_same.mp hmethods declaration hmem, layers, receiver, henclosed, fun statement hbody =>
    hoccurs.inside (List.mem_map.mpr ⟨declaration, hmem, rfl⟩) hbody⟩

theorem Declares.mono {programs : Set Task} {store later : Store} {f : Function} (hle : store ≤ later)
    (h : Declares programs store f) : Declares programs later f := by
  obtain ⟨hnamed, layers, receiver, henclosed, hbody⟩ := h
  exact ⟨hnamed, layers, receiver, henclosed.mono hle, hbody⟩

theorem Declares.bind {programs : Set Task} {store : Store} {f : Function} (h : Declares programs store f)
    (hstart : Store.initial ≤ store) (object : Instance) :
    Opens programs (store.bind f object).2 (store.bind f object).1 := by
  obtain ⟨hnamed, layers, receiver, henclosed, hbody⟩ := h
  have hbound : (store.bind f object).2.Bound f object (store.bind f object).1 :=
    ⟨store, hstart, rfl, le_refl _⟩
  refine ⟨hnamed, .method f.declaration :: layers, some object, hbody, fun later scope hle hplain => ?_⟩
  exact .method (henclosed.mono (le_trans (Store.Step.bind f object).le hle)) (hbound.mono hle) hplain

theorem Opens.mono {programs : Set Task} {store later : Store} {f : Function} (hle : store ≤ later)
    (h : Opens programs store f) : Opens programs later f := by
  obtain ⟨hnamed, layers, receiver, hbody, henclosed⟩ := h
  exact ⟨hnamed, layers, receiver, hbody, fun last scope hle' => henclosed last scope (le_trans hle hle')⟩

theorem Opens.body_stands {programs : Set Task} {store later : Store} {f : Function}
    (h : Opens programs store f) (hle : store ≤ later) {scope : ScopeId} (hplain : later.Plain scope) :
    ∀ statement ∈ f.declaration.body, Stands programs later (f.closure.push scope) (.exec statement) := by
  obtain ⟨⟨-, -, hnamed⟩, layers, receiver, hbody, henclosed⟩ := h
  intro statement hmem
  exact ⟨.exec (List.forall₂_same.mp hnamed statement hmem), layers, receiver, hbody statement hmem,
    henclosed later scope hle hplain⟩

theorem Declaration.Like.free_params {declaration : Declaration}
    (h : Declaration.Like .named declaration declaration) (arguments : List Value) :
    (Bindings.ofList ((declaration.params.map Token.lexeme).zip arguments)).get? "this" = none := by
  refine Bindings.get?_ofList_of_forall_ne fun entry hmem => ?_
  obtain ⟨param, hparam, heq⟩ := List.mem_map.mp (List.of_mem_zip hmem).1
  exact heq ▸ h.params_ne param hparam

/-- What is evaluated or executed stands in the programs where its environment says. -/
def receiverDiscipline (programs : Set Task) : Discipline Store where
  state := Store.Describes
  function := Opens programs
  method := Declares programs
  cls store c := c.All (Declares programs store)
  object store o := o.cls.All (Declares programs store)
  task := Stands programs
  function_mono := Opens.mono
  method_mono := Declares.mono
  cls_mono hle h := h.mono fun _ => Declares.mono hle
  object_mono hle h := h.mono fun _ => Declares.mono hle
  task_mono hle h := by
    obtain ⟨hnamed, layers, receiver, hoccurs, henclosed⟩ := h
    exact ⟨hnamed, layers, receiver, hoccurs, henclosed.mono hle⟩
  method_of_cls h := h
  cls_of_object h := h
  elsewhere _ _ _ h := ⟨h.eq, h.started⟩
  written _ h := ⟨h.eq, h.started⟩
  part h hpart := by
    obtain ⟨hnamed, layers, receiver, hoccurs, henclosed⟩ := h
    exact ⟨List.forall₂_same.mp hnamed.parts _ hpart, layers, receiver, hoccurs.part hpart, henclosed⟩
  block h hstate := by
    obtain ⟨hle, hlater⟩ := hstate.step (.scope (Bindings.get?_empty "this"))
    exact ⟨_, hle, hlater, h.block hle (Store.plain_addScope _ rfl)⟩
  body arguments h hstate := by
    have hfree := h.named.free_params arguments
    obtain ⟨hle, hlater⟩ := hstate.step (.scope hfree)
    exact ⟨_, hle, hlater, h.body_stands hle (Store.plain_addScope _ hfree)⟩
  declared h hstate := by
    obtain ⟨hle, hlater⟩ := hstate.step (.numbers _ _)
    exact ⟨_, hle, hlater, (h.declared _).mono hle⟩
  declaredClass {_ environment name declarations machine} h hstate := by
    have hstep : machine.store.Step (machine.store.addClass name.lexeme declarations environment).2 := by
      rw [Store.addClass_eq]
      exact .numbers _ _
    obtain ⟨hle, hlater⟩ := hstate.step hstep
    refine ⟨_, hle, hlater, fun name method hmethod => ?_⟩
    obtain ⟨i, hi, rfl⟩ := Store.exists_of_method_addClass hmethod
    exact (h.member (List.getElem_mem hi) _).mono hle
  bound h _ hstate := by
    obtain ⟨hle, hlater⟩ := hstate.step (.bind _ _)
    obtain ⟨rfl, hstart⟩ := hstate
    exact ⟨_, hle, hlater, h.bind hstart _⟩
  made hcls hstate := by
    obtain ⟨hle, hlater⟩ := hstate.step .object
    exact ⟨_, hle, hlater, hcls.mono fun _ => Declares.mono hle⟩
  defined value h hname hstate := by
    obtain ⟨hnamed, layers, receiver, -, henclosed⟩ := h
    have hplain := henclosed.plain_innermost
    rw [← hstate.eq] at hplain
    exact ⟨_, hstate.step (.define value (hnamed.of_exec.defines_ne hname) hplain.free)⟩
  assigned value h hscope hstate := by
    have hfree := Store.free_of_resolve? (hstate.eq ▸ hstate.started) h.named.assigns_ne hscope
    exact ⟨_, hstate.step (.define value h.named.assigns_ne hfree)⟩
  field id name value hstate := ⟨_, hstate.step (.field id name value)⟩

/-- All that the requests of a session ask for. -/
def Request.programs (requests : List Request) : Set Task :=
  { task | ∃ request ∈ requests, task ∈ request.tasks }

theorem admits_receiverDiscipline (requests : List Request) :
    (receiverDiscipline (Request.programs requests)).Admits Store.initial requests := by
  refine ⟨fun sink time => ⟨rfl, le_refl _⟩, fun request hrequest task htask => ?_⟩
  refine ⟨request.tasks_named task htask, [], none, .whole ⟨request, hrequest, htask⟩, .globals ?_⟩
  exact Store.plain_addScope {} rfl

theorem Precedes.store_le {before after : Machine} (h : Precedes before after) :
    before.store ≤ after.store := by
  induction h with
  | refl => exact le_refl _
  | tail _ hleads ih =>
      obtain ⟨requests, hleads⟩ := hleads
      exact le_trans ih
        ((admits_receiverDiscipline requests).le_of_leads (fun _ _ => Store.Describes.eq) hleads)

end Script
