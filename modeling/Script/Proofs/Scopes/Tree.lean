import Mathlib.Data.List.Nodup
import Script.Proofs.Discipline.Moments

/-!
# Scopes form a tree

New scopes are put at the end of chains that exist already, so the chains of all scopes grow as a tree does,
leaf by leaf from the globals. All environments that occur in a session are branches of it: where two of
them share a scope, they are the same from there on outwards.
-/

namespace Script

/-- The chain of each scope, from the scope outwards, in the order in which scopes are made. -/
inductive Grown : List (List ScopeId) → Prop where
  | root : Grown [[0]]
  | leaf {chains : List (List ScopeId)} {chain : List ScopeId} (h : Grown chains) (hchain : chain ∈ chains) :
      Grown (chains ++ [chains.length :: chain])

namespace Grown

variable {chains : List (List ScopeId)} {chain : List ScopeId}

theorem getLast?_eq (h : Grown chains) (hchain : chain ∈ chains) : chain.getLast? = some 0 := by
  induction h generalizing chain with
  | root =>
      rw [List.mem_singleton.mp hchain]
      rfl
  | @leaf chains parent _ hparent ih =>
      rcases List.mem_append.mp hchain with hbefore | hnew
      · exact ih hbefore
      · rw [List.mem_singleton.mp hnew, List.getLast?_cons, ih hparent]
        rfl

theorem lt_length (h : Grown chains) (hchain : chain ∈ chains) : ∀ scope ∈ chain, scope < chains.length := by
  induction h generalizing chain with
  | root =>
      rw [List.mem_singleton.mp hchain]
      simp
  | leaf _ hparent ih =>
      intro scope hscope
      rw [List.length_append, List.length_singleton]
      rcases List.mem_append.mp hchain with hbefore | hnew
      · exact Nat.lt_succ_of_lt (ih hbefore scope hscope)
      · rw [List.mem_singleton.mp hnew] at hscope
        rcases List.mem_cons.mp hscope with rfl | houter
        · exact Nat.lt_succ_self _
        · exact Nat.lt_succ_of_lt (ih hparent scope houter)

theorem nodup (h : Grown chains) (hchain : chain ∈ chains) : chain.Nodup := by
  induction h generalizing chain with
  | root =>
      rw [List.mem_singleton.mp hchain]
      exact List.nodup_singleton 0
  | leaf h hparent ih =>
      rcases List.mem_append.mp hchain with hbefore | hnew
      · exact ih hbefore
      · rw [List.mem_singleton.mp hnew]
        exact List.nodup_cons.mpr
          ⟨fun hmem => Nat.lt_irrefl _ (h.lt_length hparent _ hmem), ih hparent⟩

/-- From a scope on outwards, a chain is the chain of that scope. -/
theorem getElem?_eq (h : Grown chains) {before after : List ScopeId} {scope : ScopeId}
    (hchain : before ++ scope :: after ∈ chains) : chains[scope]? = some (scope :: after) := by
  induction h generalizing before with
  | root =>
      have hsingle := List.mem_singleton.mp hchain
      cases before with
      | nil =>
          obtain ⟨rfl, rfl⟩ := List.cons.inj hsingle
          rfl
      | cons => simp at hsingle
  | @leaf chains parent h hparent ih =>
      rcases List.mem_append.mp hchain with hbefore | hnew
      · have hfound := ih hbefore
        have hscope := (List.getElem?_eq_some_iff.mp hfound).1
        rw [List.getElem?_append_left hscope, hfound]
      · have hsplit := List.mem_singleton.mp hnew
        cases before with
        | nil =>
            rw [List.nil_append] at hsplit
            rw [hsplit, (List.cons.inj hsplit).1, List.getElem?_append_right (Nat.le_refl _), Nat.sub_self]
            rfl
        | cons _ before =>
            have houter : before ++ scope :: after ∈ chains := by
              rw [List.cons_append, List.cons.injEq] at hsplit
              rwa [hsplit.2]
            have hfound := ih houter
            have hscope := (List.getElem?_eq_some_iff.mp hfound).1
            rw [List.getElem?_append_left hscope, hfound]

end Grown

/-- The chains that there are at some moment. -/
structure Layout where
  chains : List (List ScopeId)
  grown : Grown chains

namespace Layout

instance : Preorder Layout where
  le before after := before.chains <+: after.chains
  le_refl layout := List.prefix_rfl
  le_trans _ _ _ := List.IsPrefix.trans

/-- The number of scopes, and where the globals are. -/
def Describes (layout : Layout) (machine : Machine) : Prop :=
  machine.store.scopes.size = layout.chains.length ∧ machine.globals = Discipline.top

/-- A new scope lengthens one of the chains. -/
theorem Describes.addScope {layout : Layout} {machine : Machine} (h : layout.Describes machine)
    {environment : Environment} (henvironment : environment.chain ∈ layout.chains)
    (contents : Bindings Value) :
    ∃ later, layout ≤ later ∧
      later.Describes { machine with store := (machine.store.addScope contents).2 } ∧
      (environment.push (machine.store.addScope contents).1).chain ∈ later.chains := by
  refine ⟨⟨_, layout.grown.leaf henvironment⟩, List.prefix_append _ _, ⟨?_, h.2⟩, ?_⟩
  · simp [Store.addScope, h.1]
  · simp [Store.addScope, h.1]

end Layout

/-- Each scope of the machine has its chain, and those of functions and of environments are among these. -/
def treeDiscipline : Discipline Layout where
  state := Layout.Describes
  function layout f := f.closure.chain ∈ layout.chains
  method layout f := f.closure.chain ∈ layout.chains
  cls layout c := c.All (·.closure.chain ∈ layout.chains)
  object layout o := o.cls.All (·.closure.chain ∈ layout.chains)
  task layout environment _ := environment.chain ∈ layout.chains
  function_mono hle h := hle.mem h
  method_mono hle h := hle.mem h
  cls_mono hle h := h.mono fun _ => hle.mem
  object_mono hle h := h.mono fun _ => hle.mem
  task_mono hle h := hle.mem h
  method_of_cls h := h
  cls_of_object h := h
  elsewhere _ _ _ h := h
  written _ h := h
  part h _ := h
  block htask hstate := by
    obtain ⟨later, hle, hlater, hchain⟩ := hstate.addScope htask {}
    exact ⟨later, hle, hlater, fun _ _ => hchain⟩
  body arguments hfunction hstate := by
    obtain ⟨later, hle, hlater, hchain⟩ := hstate.addScope hfunction (.ofList (.zip _ arguments))
    exact ⟨later, hle, hlater, fun _ _ => hchain⟩
  declared htask hstate := ⟨_, le_refl _, hstate, htask⟩
  declaredClass htask hstate := by
    refine ⟨_, le_refl _, ?_, fun name method hmethod => ?_⟩
    · rw [Store.addClass_eq]
      exact hstate
    · obtain ⟨_, _, rfl⟩ := Store.exists_of_method_addClass hmethod
      exact htask
  bound hmethod _ hstate := hstate.addScope hmethod (({} : Bindings Value).set "this" (.instance _))
  made hcls hstate := ⟨_, le_refl _, hstate, hcls⟩
  defined _ _ _ hstate :=
    ⟨_, le_refl _, (Array.size_modify).trans hstate.1, hstate.2⟩
  assigned _ _ _ hstate :=
    ⟨_, le_refl _, (Array.size_modify).trans hstate.1, hstate.2⟩
  field _ _ _ hstate := ⟨_, le_refl _, hstate⟩

/-! ### Environments that occur -/

namespace Environment

/-- Scopes from the outermost one inwards. -/
def layers (environment : Environment) : List ScopeId :=
  environment.chain.reverse

end Environment

def Class.closures (c : Class) : Set Environment :=
  { closure | ∃ name method, c.methods.get? name = some method ∧ closure = method.closure }

/-- The environments of the functions that a value holds. -/
def Value.closures : Value → Set Environment
  | .callable (.function f) => {f.closure}
  | .callable (.class c) => c.closures
  | .instance object => object.cls.closures
  | _ => ∅

/-- The environments of a state: that of the globals, the current one, those in use around it, and those of
all functions that are in hand or in the store. -/
def Machine.environments (machine : Machine) (inUse : List Environment) (values : List Value) :
    Set Environment :=
  { environment | environment = machine.globals ∨ environment = machine.environment ∨
    environment ∈ inUse ∨
    ∃ value, (value ∈ values ∨ machine.store.Stores value) ∧ environment ∈ value.closures }

/-- All environments have the same outermost scope, none has a scope twice, and any two of them that share
a scope have it at the same place, with the same scopes before it. -/
structure FormTree (root : ScopeId) (environments : Set Environment) : Prop where
  rooted : ∀ environment ∈ environments, environment.layers.head? = some root
  nodup : ∀ environment ∈ environments, environment.layers.Nodup
  shared : ∀ first ∈ environments, ∀ second ∈ environments, ∀ (i j : Nat) (scope : ScopeId),
    first.layers[i]? = some scope → second.layers[j]? = some scope →
      i = j ∧ first.layers.take i = second.layers.take j

theorem Layout.formTree (layout : Layout) :
    FormTree 0 { environment | environment.chain ∈ layout.chains } := by
  -- what is outside of a scope is the rest of the chain of that scope
  have houter {environment : Environment} (h : environment.chain ∈ layout.chains) {i : Nat}
      {scope : ScopeId} (hscope : environment.layers[i]? = some scope) :
      ∃ outer, layout.chains[scope]? = some (scope :: outer) ∧ outer.length = i ∧
        environment.layers.take i = outer.reverse := by
    obtain ⟨hi, hget⟩ := List.getElem?_eq_some_iff.mp hscope
    have hsplit : environment.layers = environment.layers.take i ++ scope ::
        environment.layers.drop (i + 1) := by
      rw [← hget, ← List.drop_eq_getElem_cons hi, List.take_append_drop]
    have hchain : environment.chain = (environment.layers.drop (i + 1)).reverse ++ scope ::
        (environment.layers.take i).reverse := by
      rw [← List.reverse_reverse environment.chain]
      change environment.layers.reverse = _
      conv => lhs; rw [hsplit]
      simp
    refine ⟨(environment.layers.take i).reverse, layout.grown.getElem?_eq (hchain ▸ h), ?_,
      (List.reverse_reverse _).symm⟩
    rw [List.length_reverse, List.length_take_of_le (Nat.le_of_lt hi)]
  refine ⟨fun environment h => ?_, fun environment h => ?_, ?_⟩
  · rw [Environment.layers, List.head?_reverse]
    exact layout.grown.getLast?_eq h
  · exact List.nodup_reverse.mpr (layout.grown.nodup h)
  · intro first hfirst second hsecond i j scope hi hj
    obtain ⟨outer, hchain, hlength, htake⟩ := houter hfirst hi
    obtain ⟨outer', hchain', hlength', htake'⟩ := houter hsecond hj
    obtain rfl : outer = outer' := by simpa [hchain] using hchain'
    exact ⟨hlength.symm.trans hlength', htake.trans htake'.symm⟩

theorem FormTree.mono {root : ScopeId} {environments fewer : Set Environment}
    (h : FormTree root environments) (hsubset : fewer ⊆ environments) : FormTree root fewer :=
  ⟨fun environment hmem => h.rooted environment (hsubset hmem),
    fun environment hmem => h.nodup environment (hsubset hmem),
    fun first hfirst second hsecond => h.shared first (hsubset hfirst) second (hsubset hsecond)⟩

theorem chain_mem_of_closures {layout : Layout} {value : Value} (h : treeDiscipline.value layout value)
    {closure : Environment} (hclosure : closure ∈ value.closures) : closure.chain ∈ layout.chains := by
  have hcls {c : Class} (h : treeDiscipline.cls layout c) (hclosure : closure ∈ c.closures) :
      closure.chain ∈ layout.chains := by
    obtain ⟨name, method, hmethod, rfl⟩ := hclosure
    exact h name method hmethod
  cases value with
  | callable c =>
      cases c with
      | function f => exact (Set.mem_singleton_iff.mp hclosure) ▸ h
      | «class» c => exact hcls h hclosure
      | native => exact hclosure.elim
  | «instance» object => exact hcls h hclosure
  | _ => exact hclosure.elim

theorem admits_treeDiscipline (requests : List Request) :
    treeDiscipline.Admits ⟨[[0]], .root⟩ requests :=
  ⟨fun _ _ => ⟨rfl, rfl⟩, fun _ _ _ _ => List.mem_singleton.mpr rfl⟩

/-- In all states of a session, the environments that occur form a tree with the globals at its root. -/
theorem environments_formTree {requests : List Request} {machine : Machine} {inUse : List Environment}
    {values : List Value} (h : Situation requests machine inUse values) :
    FormTree machine.globals.innermost (machine.environments inUse values) := by
  obtain ⟨layout, hle, hgood, hcurrent, hinUse, hvalues⟩ := (admits_treeDiscipline requests).situation h
  have hglobals : machine.globals.chain ∈ layout.chains := by
    rw [hgood.state.2]
    exact hle.mem (List.mem_singleton.mpr rfl)
  have huse : ∀ environment ∈ inUse, environment.chain ∈ layout.chains := by
    intro environment hmem
    rcases hinUse environment hmem with rfl | ⟨task, htask⟩
    · exact hle.mem (List.mem_singleton.mpr rfl)
    · exact htask
  have hroot : machine.globals.innermost = 0 := by rw [hgood.state.2]; rfl
  rw [hroot]
  refine layout.formTree.mono ?_
  rintro environment (rfl | rfl | hmem | ⟨value, hvalue, hclosure⟩)
  · exact hglobals
  · exact huse _ (List.mem_of_mem_head? hcurrent)
  · exact huse environment hmem
  · rcases hvalue with hhand | hstored
    · exact chain_mem_of_closures (hvalues value hhand) hclosure
    · exact chain_mem_of_closures (hgood.stored value hstored) hclosure

/-- The closure of the function that a global holds after a run, if it holds one. -/
def Outcome.closure? (name : String) : Outcome RunError Unit → Option Environment
  | .done () machine =>
    match machine.store.lookup? machine.globals name with
    | some (.callable (.function f)) => some f.closure
    | _ => none
  | _ => none

theorem Outcome.exists_of_closure? {name : String} {outcome : Outcome RunError Unit} {closure : Environment}
    (h : outcome.closure? name = some closure) : ∃ machine f, outcome = .done () machine ∧
      machine.store.lookup? machine.globals name = some (.callable (.function f)) ∧ f.closure = closure := by
  unfold closure? at h
  split at h
  · next machine =>
      split at h
      · next f hvalue => exact ⟨machine, f, rfl, hvalue, Option.some.inj h⟩
      · cases h
  · cases h

/-- The environment of a function outlives its block, as a branch of the tree. -/
theorem environments_formTree_after_block :
    let source := "var g; \x7b func f() \x7b\x7d g = f; \x7d"
    ∃ (machine : Machine) (closure : Environment),
      Situation [.run source] machine [machine.environment] [] ∧
        closure ∈ machine.environments [machine.environment] [] ∧ closure.layers = [0, 1] ∧
        FormTree machine.globals.innermost (machine.environments [machine.environment] []) := by
  intro source
  have hkept : (Machine.run 20 source (.start {} 0)).closure? "g" =
      some { innermost := 1, outer := [0] } := by
    decide +kernel
  obtain ⟨machine, f, hrun, hvalue, hclosure⟩ := Outcome.exists_of_closure? hkept
  have hends : (Machine.run 20 source (.start {} 0)).Ends (some ()) machine := hrun ▸ .done () machine
  have hsession : Session [.run source] [] machine := .run (.start {} 0) 20 source hends
  have hsituation : Situation [.run source] machine [machine.environment] [] := .between hsession
  have hstored : f.closure ∈ machine.environments [machine.environment] [] :=
    Or.inr (Or.inr (Or.inr ⟨_, Or.inr (Store.stores_of_lookup? hvalue), Set.mem_singleton _⟩))
  exact ⟨machine, f.closure, hsituation, hstored, by rw [hclosure]; rfl, environments_formTree hsituation⟩

end Script
