import Mathlib.Data.List.Find
import Script.Machine

/-!
# Environments by their history

Handles for environments share scopes: a copy of a handle has the same scopes, and both may get more of them on
their own. What an environment gives for a name can be told from the operations that came before, on all handles:
where the scopes of the handles came from, in which of them the name was defined, and what was written there last.
-/

namespace Script

/-- What is done with the environments that handles stand for. -/
inductive Operation where
  | new (handle : String)
  | clone (handle copy : String)
  | addScope (handle : String)
  | define (handle name : String) (value : Value)
  | assign (handle : String) (name : Token) (value : Value)
  | get (handle : String) (name : Token)

/-- The environments of the handles, and the machine with their scopes. -/
structure Handles where
  environments : Bindings Environment := {}
  machine : Machine

/-- Nothing is done with a handle that there is not. -/
def Handles.use (environments : Bindings Environment) (handle : String)
    (operation : Environment → Eval (Bindings Environment × Option Value)) :
    Eval (Bindings Environment × Option Value) :=
  match environments.get? handle with
  | some environment => operation environment
  | none => return (environments, none)

/-- Gives the environments that the handles stand for then, and the value that is read. -/
def Operation.perform (environments : Bindings Environment) :
    Operation → Eval (Bindings Environment × Option Value)
  | .new handle => do
    let scope ← Eval.change (·.addScope {})
    return (environments.set handle { innermost := scope }, none)
  | .clone handle copy => Handles.use environments handle fun environment =>
    return (environments.set copy environment, none)
  | .addScope handle => Handles.use environments handle fun environment => do
    let scope ← Eval.change (·.addScope {})
    return (environments.set handle (environment.push scope), none)
  | .define handle name value => Handles.use environments handle fun environment => do
    Eval.within environment (Eval.define name value)
    return (environments, none)
  | .assign handle name value => Handles.use environments handle fun environment => do
    Eval.within environment (Eval.assign name value)
    return (environments, none)
  | .get handle name => Handles.use environments handle fun environment => do
    return (environments, some (← Eval.within environment (Eval.lookup name)))

namespace Handles

def perform (handles : Handles) (operation : Operation) : Outcome RuntimeError (Bindings Environment × Option Value) :=
  operation.perform handles.environments handles.machine

/-- The handles after an operation, which may have failed. -/
def next (handles : Handles) (operation : Operation) : Handles :=
  match handles.perform operation with
  | .done (environments, _) machine => { environments, machine }
  | .failed _ machine => { handles with machine }
  | .exhausted => handles

/-- The handles after some operations, of which the last one comes first. -/
def after (start : Machine) : List Operation → Handles
  | [] => { machine := start }
  | operation :: earlier => (after start earlier).next operation

/-- What the name stands for, through the handle. -/
def value? (handles : Handles) (handle name : String) : Option Value :=
  (handles.environments.get? handle).bind (handles.machine.store.lookup? · name)

end Handles

/-! ### What the history tells -/

/-- How many scopes have been made, and which of them each handle has, the innermost first. -/
structure ScopeLayout where
  made : Nat := 0
  chains : Bindings (List Nat) := {}

def ScopeLayout.next (layout : ScopeLayout) : Operation → ScopeLayout
  | .new handle => { made := layout.made + 1, chains := layout.chains.set handle [layout.made] }
  | .clone handle copy =>
    match layout.chains.get? handle with
    | some chain => { layout with chains := layout.chains.set copy chain }
    | none => layout
  | .addScope handle =>
    match layout.chains.get? handle with
    | some chain => { made := layout.made + 1, chains := layout.chains.set handle (layout.made :: chain) }
    | none => layout
  | .define .. | .assign .. | .get .. => layout

namespace History

def layout : List Operation → ScopeLayout
  | [] => {}
  | operation :: earlier => (layout earlier).next operation

/-- The scopes of the handle, by the order in which they were made, the innermost first. -/
def chain? (history : List Operation) (handle : String) : Option (List Nat) :=
  (layout history).chains.get? handle

def innermost? (history : List Operation) (handle : String) : Option Nat :=
  (chain? history handle).bind List.head?

/-- Whether the name was ever defined in the scope, through whichever handle. -/
def defined : List Operation → Nat → String → Bool
  | [], _, _ => false
  | .define handle name _ :: earlier, scope, other =>
    (decide (innermost? earlier handle = some scope) && decide (name = other)) || defined earlier scope other
  | _ :: earlier, scope, other => defined earlier scope other

/-- The innermost scope of the handle in which the name was ever defined. -/
def nearest? (history : List Operation) (handle name : String) : Option Nat :=
  (chain? history handle).bind (·.find? (defined history · name))

/-- The value that was written last to the name in the scope: by a definition, or by an assignment through a handle
of which that is the innermost scope with the name. -/
def written : List Operation → Nat → String → Option Value
  | [], _, _ => none
  | .define handle name value :: earlier, scope, other =>
    if innermost? earlier handle = some scope ∧ name = other then some value else written earlier scope other
  | .assign handle name value :: earlier, scope, other =>
    if nearest? earlier handle name.lexeme = some scope ∧ name.lexeme = other then some value
    else written earlier scope other
  | _ :: earlier, scope, other => written earlier scope other

section Layouts

variable {history : List Operation} {handle : String}

theorem layout_clone {chain : List Nat} (h : chain? history handle = some chain) (copy : String) :
    layout (.clone handle copy :: history) =
      ⟨(layout history).made, (layout history).chains.set copy chain⟩ := by
  rw [chain?] at h
  rw [layout, ScopeLayout.next, h]

theorem layout_addScope {chain : List Nat} (h : chain? history handle = some chain) :
    layout (.addScope handle :: history) =
      ⟨(layout history).made + 1, (layout history).chains.set handle ((layout history).made :: chain)⟩ := by
  rw [chain?] at h
  rw [layout, ScopeLayout.next, h]

theorem layout_clone_of_none (h : chain? history handle = none) (copy : String) :
    layout (.clone handle copy :: history) = layout history := by
  rw [chain?] at h
  rw [layout, ScopeLayout.next, h]

theorem layout_addScope_of_none (h : chain? history handle = none) :
    layout (.addScope handle :: history) = layout history := by
  rw [chain?] at h
  rw [layout, ScopeLayout.next, h]

end Layouts

/-- Handles have only scopes that have been made. -/
theorem lt_made {history : List Operation} {handle : String} {chain : List Nat}
    (h : chain? history handle = some chain) : ∀ scope ∈ chain, scope < (layout history).made := by
  induction history generalizing handle chain with
  | nil => cases h
  | cons operation earlier ih =>
      have hold {other : String} {chain : List Nat} (h : (layout earlier).chains.get? other = some chain) :
          ∀ scope ∈ chain, scope < (layout earlier).made + 1 :=
        fun scope hmem => Nat.lt_succ_of_lt (ih h scope hmem)
      simp only [chain?, layout, ScopeLayout.next] at h ⊢
      cases operation with
      | new other =>
          simp only [Bindings.get?_set] at h ⊢
          split at h
          · cases h
            simp
          · exact hold h
      | clone other copy =>
          cases hother : (layout earlier).chains.get? other with
          | none =>
              simp only [hother] at h ⊢
              exact ih h
          | some found =>
              simp only [hother, Bindings.get?_set] at h ⊢
              split at h
              · cases h
                exact ih hother
              · exact ih h
      | addScope other =>
          cases hother : (layout earlier).chains.get? other with
          | none =>
              simp only [hother] at h ⊢
              exact ih h
          | some found =>
              simp only [hother, Bindings.get?_set] at h ⊢
              split at h
              · cases h
                exact List.forall_mem_cons.mpr ⟨Nat.lt_succ_self _, hold hother⟩
              · exact hold h
      | define | assign | get => exact ih h

theorem defined_of_nearest? {history : List Operation} {handle name : String} {scope : Nat}
    (h : nearest? history handle name = some scope) : defined history scope name = true := by
  obtain ⟨chain, -, hfind⟩ := Option.bind_eq_some_iff.mp h
  have hholds := List.find?_some hfind
  exact hholds

/-- Nothing is defined in a scope before it is made. -/
theorem lt_made_of_defined {history : List Operation} {scope : Nat} {name : String}
    (h : defined history scope name = true) : scope < (layout history).made := by
  induction history with
  | nil => cases h
  | cons operation earlier ih =>
      have hmore : (layout earlier).made ≤ (layout (operation :: earlier)).made := by
        rw [layout]
        unfold ScopeLayout.next
        split <;> try split
        all_goals simp
      refine Nat.lt_of_lt_of_le ?_ hmore
      cases operation with
      | define handle other value =>
          rcases Bool.or_eq_true_iff.mp h with hhere | hbefore
          · obtain ⟨hinnermost, -⟩ := Bool.and_eq_true_iff.mp hhere
            obtain ⟨chain, hchain, hhead⟩ := Option.bind_eq_some_iff.mp (of_decide_eq_true hinnermost)
            exact lt_made hchain scope (List.mem_of_mem_head? hhead)
          · exact ih hbefore
      | new | clone | addScope | assign | get => exact ih h

/-- What was defined has been written, and nothing else has. -/
theorem isSome_written (history : List Operation) (scope : Nat) (name : String) :
    (written history scope name).isSome = defined history scope name := by
  induction history with
  | nil => rfl
  | cons operation earlier ih =>
      cases operation with
      | define handle other value =>
          rw [written, defined, ← ih]
          by_cases hwritten : innermost? earlier handle = some scope ∧ other = name
          · simp [hwritten]
          · rw [if_neg hwritten, ← Bool.decide_and, decide_eq_false hwritten, Bool.false_or]
      | assign handle other value =>
          change _ = defined earlier scope name
          rw [written]
          split
          · next hwritten =>
              obtain ⟨hnearest, rfl⟩ := hwritten
              exact (defined_of_nearest? hnearest).symm
          · exact ih
      | new | clone | addScope | get => exact ih

end History

/-! ### The scopes that the handles have -/

section Steps

variable {environments : Bindings Environment} {handle : String} {environment : Environment} {machine : Machine}

theorem Handles.use_of_get? (h : environments.get? handle = some environment)
    (operation : Environment → Eval (Bindings Environment × Option Value)) :
    Handles.use environments handle operation = operation environment := by
  rw [use, h]

theorem Handles.use_of_get?_none (h : environments.get? handle = none)
    (operation : Environment → Eval (Bindings Environment × Option Value)) :
    Handles.use environments handle operation = pure (environments, none) := by
  rw [use, h]

theorem Eval.within_lookup (environment : Environment) (name : Token) (machine : Machine) :
    Eval.within environment (Eval.lookup name) machine =
      match machine.store.lookup? environment name.lexeme with
      | some value => .done value machine
      | none => .failed (.undefinedVariable name) machine := by
  simp only [Eval.within, Eval.lookup_apply]
  cases machine.store.lookup? environment name.lexeme <;> rfl

theorem Eval.within_assign (environment : Environment) (name : Token) (value : Value) (machine : Machine) :
    Eval.within environment (Eval.assign name value) machine =
      match machine.store.resolve? environment name.lexeme with
      | some scope => .done () { machine with store := machine.store.define scope name.lexeme value }
      | none => .failed (.undefinedVariable name) machine := by
  simp only [Eval.within, Eval.assign_apply, Store.assign?]
  cases machine.store.resolve? environment name.lexeme <;> rfl

theorem Operation.perform_get (h : environments.get? handle = some environment) (name : Token) :
    (Operation.get handle name).perform environments machine =
      match machine.store.lookup? environment name.lexeme with
      | some value => .done (environments, some value) machine
      | none => .failed (.undefinedVariable name) machine := by
  rw [Operation.perform, Handles.use_of_get? h, Eval.bind_apply, Eval.within_lookup]
  cases machine.store.lookup? environment name.lexeme <;> rfl

theorem Operation.perform_assign (h : environments.get? handle = some environment) (name : Token) (value : Value) :
    (Operation.assign handle name value).perform environments machine =
      match machine.store.resolve? environment name.lexeme with
      | some scope =>
        .done (environments, none) { machine with store := machine.store.define scope name.lexeme value }
      | none => .failed (.undefinedVariable name) machine := by
  rw [Operation.perform, Handles.use_of_get? h, Eval.bind_apply, Eval.within_assign]
  cases machine.store.resolve? environment name.lexeme <;> rfl

end Steps

/-- The handles have the scopes that the history tells, which were made after the first ones of the machine, and
these hold what it tells. -/
structure Handles.Follows (handles : Handles) (first : Nat) (history : List Operation) : Prop where
  size : handles.machine.store.scopes.size = first + (History.layout history).made
  chain : ∀ handle, (handles.environments.get? handle).map Environment.chain =
    (History.chain? history handle).map (·.map (first + ·))
  contents : ∀ scope < (History.layout history).made, ∀ name,
    (handles.machine.store.scope (first + scope)).get? name = History.written history scope name

namespace Handles.Follows

variable {handles : Handles} {first : Nat} {history : List Operation} (h : handles.Follows first history)

include h

theorem chain?_eq_none {handle : String} (hnone : handles.environments.get? handle = none) :
    History.chain? history handle = none := by
  have hchain := h.chain handle
  rw [hnone] at hchain
  exact Option.map_eq_none_iff.mp hchain.symm

theorem exists_chain {handle : String} {environment : Environment}
    (hhandle : handles.environments.get? handle = some environment) :
    ∃ chain, History.chain? history handle = some chain ∧ environment.chain = chain.map (first + ·) := by
  have hchain := h.chain handle
  rw [hhandle] at hchain
  obtain ⟨chain, hfound, heq⟩ := Option.map_eq_some_iff.mp hchain.symm
  exact ⟨chain, hfound, heq.symm⟩

theorem exists_innermost {handle : String} {environment : Environment}
    (hhandle : handles.environments.get? handle = some environment) :
    ∃ scope, History.innermost? history handle = some scope ∧ environment.innermost = first + scope := by
  obtain ⟨chain, hchain, heq⟩ := h.exists_chain hhandle
  cases chain with
  | nil => cases heq
  | cons scope outer =>
      refine ⟨scope, ?_, (List.cons.inj heq).1⟩
      rw [History.innermost?, hchain]
      rfl

/-- A name is found in the scope that the history tells. -/
theorem resolve?_eq {handle : String} {environment : Environment}
    (hhandle : handles.environments.get? handle = some environment) (name : String) :
    handles.machine.store.resolve? environment name =
      (History.nearest? history handle name).map (first + ·) := by
  obtain ⟨chain, hchain, heq⟩ := h.exists_chain hhandle
  have hmade := History.lt_made hchain
  have hsame (scope : Nat) (hmem : scope ∈ chain) :
      ((handles.machine.store.scope (first + scope)).get? name).isSome = History.defined history scope name := by
    rw [h.contents scope (hmade scope hmem), History.isSome_written]
  rw [Store.resolve?, heq, History.nearest?, hchain, List.find?_map, Option.bind_some]
  congr 1
  exact List.find?_congr hsame

theorem lookup?_eq {handle : String} {environment : Environment}
    (hhandle : handles.environments.get? handle = some environment) (name : String) :
    handles.machine.store.lookup? environment name =
      (History.nearest? history handle name).bind fun scope => History.written history scope name := by
  rw [Store.lookup?_eq_bind_resolve?, h.resolve?_eq hhandle]
  cases hnearest : History.nearest? history handle name with
  | none => rfl
  | some scope =>
      obtain ⟨chain, hchain, hfind⟩ := Option.bind_eq_some_iff.mp hnearest
      exact h.contents scope (History.lt_made hchain scope (List.mem_of_find?_eq_some hfind)) name

/-! ### What one operation does -/

/-- An operation that makes a scope for a handle. -/
theorem grown {operation : Operation} {handle : String} {environment : Environment} {chain : List Nat}
    (hchain : environment.chain = chain.map (first + ·))
    (hlayout : History.layout (operation :: history) =
      ⟨(History.layout history).made + 1, (History.layout history).chains.set handle chain⟩)
    (hwritten : History.written (operation :: history) = History.written history) :
    Handles.Follows
      { environments := handles.environments.set handle environment
        machine := { handles.machine with store := (handles.machine.store.addScope {}).2 } }
      first (operation :: history) where
  size := by
    rw [hlayout]
    exact (Array.size_push _).trans (congrArg (· + 1) h.size)
  chain other := by
    rw [History.chain?, hlayout, Bindings.get?_set, Bindings.get?_set]
    split
    · exact congrArg some hchain
    · exact h.chain other
  contents scope hscope name := by
    rw [hlayout] at hscope
    change scope < (History.layout history).made + 1 at hscope
    rw [Store.scope_addScope, hwritten, h.size]
    by_cases hnew : scope = (History.layout history).made
    · subst hnew
      have hnone : History.written history (History.layout history).made name = none := by
        rw [← Option.not_isSome_iff_eq_none, History.isSome_written]
        exact fun hdefined => Nat.lt_irrefl _ (History.lt_made_of_defined hdefined)
      rw [if_pos rfl, hnone]
      rfl
    · have hold : scope < (History.layout history).made :=
        Nat.lt_of_le_of_ne (Nat.le_of_lt_succ hscope) hnew
      rw [if_neg fun heq => hnew (Nat.add_left_cancel heq)]
      exact h.contents scope hold name

/-- A copy has the scopes of its original. -/
theorem copied {handle : String} {environment : Environment}
    (hhandle : handles.environments.get? handle = some environment) (copy : String) :
    Handles.Follows { handles with environments := handles.environments.set copy environment } first
      (.clone handle copy :: history) := by
  obtain ⟨chain, hchain, heq⟩ := h.exists_chain hhandle
  have hlayout := History.layout_clone hchain copy
  refine ⟨by rw [hlayout]; exact h.size, fun other => ?_, fun scope hscope => ?_⟩
  · rw [History.chain?, hlayout, Bindings.get?_set, Bindings.get?_set]
    split
    · exact congrArg some heq
    · exact h.chain other
  · rw [hlayout] at hscope
    exact h.contents scope hscope

/-- An operation that writes to a name in a scope. -/
theorem wrote {operation : Operation} {scope : Nat} {name : String} {value : Value}
    (hscope : scope < (History.layout history).made)
    (hlayout : History.layout (operation :: history) = History.layout history)
    (hwritten : ∀ other lexeme, History.written (operation :: history) other lexeme =
      if some scope = some other ∧ name = lexeme then some value else History.written history other lexeme) :
    Handles.Follows
      { handles with
        machine := { handles.machine with store := handles.machine.store.define (first + scope) name value } }
      first (operation :: history) where
  size := by
    rw [hlayout]
    exact Array.size_modify.trans h.size
  chain other := by
    rw [History.chain?, hlayout]
    exact h.chain other
  contents other hother lexeme := by
    rw [hlayout] at hother
    have hsize : first + scope < handles.machine.store.scopes.size := by
      rw [h.size]
      omega
    rw [Store.scope_define, hwritten]
    by_cases hhere : scope = other
    · subst hhere
      rw [if_pos ⟨rfl, hsize⟩, Bindings.get?_set, h.contents scope hscope]
      by_cases hname : lexeme = name
      · rw [if_pos hname, if_pos ⟨rfl, hname.symm⟩]
      · rw [if_neg hname, if_neg fun heq => hname heq.2.symm]
    · rw [if_neg fun heq => hhere (Nat.add_left_cancel heq.1).symm, if_neg fun heq => hhere (Option.some.inj heq.1)]
      exact h.contents other hother lexeme

/-- An operation that changes nothing. -/
theorem same {operation : Operation} (hlayout : History.layout (operation :: history) = History.layout history)
    (hwritten : History.written (operation :: history) = History.written history) :
    handles.Follows first (operation :: history) where
  size := by
    rw [hlayout]
    exact h.size
  chain other := by
    rw [History.chain?, hlayout]
    exact h.chain other
  contents := by
    rw [hlayout, hwritten]
    exact h.contents

/-- Nothing is known of a handle that there is not, and nothing is done with it. -/
theorem unknown {operation : Operation} {handle : String} (hnone : handles.environments.get? handle = none)
    {use : Environment → Eval (Bindings Environment × Option Value)}
    (hperform : operation.perform handles.environments = Handles.use handles.environments handle use)
    (hlayout : History.layout (operation :: history) = History.layout history)
    (hwritten : History.written (operation :: history) = History.written history) :
    (handles.next operation).Follows first (operation :: history) := by
  rw [Handles.next, Handles.perform, hperform, Handles.use_of_get?_none hnone]
  exact h.same hlayout hwritten

/-- Whatever the operation, and whether it fails or not, the handles follow the longer history. -/
theorem next (operation : Operation) : (handles.next operation).Follows first (operation :: history) := by
  cases operation with
  | new handle =>
      have hchain : ({ innermost := handles.machine.store.scopes.size } : Environment).chain =
          [(History.layout history).made].map (first + ·) :=
        congrArg (fun scope => [scope]) h.size
      exact h.grown hchain rfl rfl
  | clone handle copy =>
      cases hhandle : handles.environments.get? handle with
      | none => exact h.unknown hhandle rfl (History.layout_clone_of_none (h.chain?_eq_none hhandle) copy) rfl
      | some environment =>
          rw [Handles.next, Handles.perform, Operation.perform, Handles.use_of_get? hhandle]
          exact h.copied hhandle copy
  | addScope handle =>
      cases hhandle : handles.environments.get? handle with
      | none => exact h.unknown hhandle rfl (History.layout_addScope_of_none (h.chain?_eq_none hhandle)) rfl
      | some environment =>
          obtain ⟨chain, hchain, heq⟩ := h.exists_chain hhandle
          rw [Handles.next, Handles.perform, Operation.perform, Handles.use_of_get? hhandle]
          have hpushed : (environment.push handles.machine.store.scopes.size).chain =
              ((History.layout history).made :: chain).map (first + ·) := by
            rw [Environment.chain_push, heq, h.size]
            rfl
          exact h.grown hpushed (History.layout_addScope hchain) rfl
  | define handle name value =>
      cases hhandle : handles.environments.get? handle with
      | none =>
          refine h.unknown hhandle rfl rfl (funext fun scope => funext fun other => if_neg ?_)
          rw [History.innermost?, h.chain?_eq_none hhandle]
          simp
      | some environment =>
          obtain ⟨scope, hscope, heq⟩ := h.exists_innermost hhandle
          obtain ⟨chain, hchain, hhead⟩ := Option.bind_eq_some_iff.mp hscope
          have hmade := History.lt_made hchain scope (List.mem_of_mem_head? hhead)
          rw [Handles.next, Handles.perform, Operation.perform, Handles.use_of_get? hhandle]
          have hwritten (other : Nat) (lexeme : String) :
              History.written (.define handle name value :: history) other lexeme =
                if some scope = some other ∧ name = lexeme then some value else History.written history other lexeme := by
            rw [History.written, hscope]
          have hwrote := h.wrote hmade rfl hwritten
          rw [← heq] at hwrote
          exact hwrote
  | assign handle name value =>
      cases hhandle : handles.environments.get? handle with
      | none =>
          refine h.unknown hhandle rfl rfl (funext fun scope => funext fun other => if_neg ?_)
          rw [History.nearest?, h.chain?_eq_none hhandle]
          simp
      | some environment =>
          rw [Handles.next, Handles.perform, Operation.perform_assign hhandle, h.resolve?_eq hhandle]
          cases hnearest : History.nearest? history handle name.lexeme with
          | none =>
              refine h.same rfl (funext fun scope => funext fun other => if_neg ?_)
              rw [hnearest]
              simp
          | some scope =>
              obtain ⟨chain, hchain, hfind⟩ := Option.bind_eq_some_iff.mp hnearest
              have hmade := History.lt_made hchain scope (List.mem_of_find?_eq_some hfind)
              exact h.wrote hmade rfl fun other lexeme => by rw [History.written, hnearest]
  | get handle name =>
      cases hhandle : handles.environments.get? handle with
      | none => exact h.unknown hhandle rfl rfl rfl
      | some environment =>
          rw [Handles.next, Handles.perform, Operation.perform_get hhandle]
          cases handles.machine.store.lookup? environment name.lexeme <;> exact h.same rfl rfl

end Handles.Follows

/-- The handles follow all that was done with them. -/
theorem Handles.follows_after (start : Machine) (history : List Operation) :
    (Handles.after start history).Follows start.store.scopes.size history := by
  induction history with
  | nil => exact ⟨rfl, fun _ => rfl, fun _ hscope => nomatch hscope⟩
  | cons operation earlier ih => exact ih.next operation

/-! ### Reading and writing through a handle -/

namespace History

variable {history : List Operation} {handle name : String} {chain : List Nat}

theorem nearest?_eq_none_iff (h : chain? history handle = some chain) :
    nearest? history handle name = none ↔ ∀ scope ∈ chain, defined history scope name = false := by
  rw [nearest?, h, Option.bind_some, List.find?_eq_none]
  simp only [Bool.not_eq_true]

theorem nearest?_eq_some_iff (h : chain? history handle = some chain) {scope : Nat} :
    nearest? history handle name = some scope ↔ defined history scope name = true ∧ ∃ inner outer,
      chain = inner ++ scope :: outer ∧ ∀ nearer ∈ inner, defined history nearer name = false := by
  rw [nearest?, h, Option.bind_some, List.find?_eq_some_iff_append]
  simp only [Bool.not_eq_true']

theorem chain?_addScope {other : String} (hother : other ≠ handle) :
    chain? (.addScope handle :: history) other = chain? history other := by
  cases h : chain? history handle with
  | none => rw [chain?, layout_addScope_of_none h, ← chain?]
  | some chain => rw [chain?, layout_addScope h, Bindings.get?_set, if_neg hother, ← chain?]

end History

/-- What is read and written through a handle that has these scopes, the innermost first. -/
structure Handles.Obeys (handles : Handles) (history : List Operation) (handle : String) (chain : List Nat)
    (name : Token) : Prop where
  /-- Reading fails if and only if the name was never defined in any of the scopes. -/
  fails : ∀ error machine, handles.perform (.get handle name) = .failed error machine ↔
    error = .undefinedVariable name ∧ machine = handles.machine ∧
      ∀ scope ∈ chain, History.defined history scope name.lexeme = false
  /-- Otherwise it gives what was written last in the innermost scope that has the name. -/
  gives : ∀ inner scope outer, chain = inner ++ scope :: outer → History.defined history scope name.lexeme = true →
    (∀ nearer ∈ inner, History.defined history nearer name.lexeme = false) →
      ∃ value, History.written history scope name.lexeme = some value ∧
        handles.perform (.get handle name) = .done (handles.environments, some value) handles.machine
  assigns : ∀ value, (∃ result machine, handles.perform (.assign handle name value) = .done result machine) ↔
    ∃ result machine, handles.perform (.get handle name) = .done result machine
  refuses : ∀ value error machine, handles.perform (.assign handle name value) = .failed error machine →
    error = .undefinedVariable name ∧ handles.next (.assign handle name value) = handles
  /-- An assignment is seen through the handles for which that is the innermost scope with the name, and changes
  nothing else. -/
  writes : ∀ value inner scope outer, chain = inner ++ scope :: outer →
    History.defined history scope name.lexeme = true →
      (∀ nearer ∈ inner, History.defined history nearer name.lexeme = false) →
        ∀ other lexeme, (handles.next (.assign handle name value)).value? other lexeme =
          if lexeme = name.lexeme ∧ History.nearest? history other lexeme = some scope then some value
          else handles.value? other lexeme

namespace Handles.Follows

variable {handles : Handles} {first : Nat} {history : List Operation} (h : handles.Follows first history)

include h

theorem value?_eq (handle name : String) :
    handles.value? handle name =
      (History.nearest? history handle name).bind fun scope => History.written history scope name := by
  rw [Handles.value?]
  cases hhandle : handles.environments.get? handle with
  | none =>
      rw [History.nearest?, h.chain?_eq_none hhandle]
      rfl
  | some environment => exact h.lookup?_eq hhandle name

theorem exists_environment {handle : String} {chain : List Nat} (hchain : History.chain? history handle = some chain) :
    ∃ environment, handles.environments.get? handle = some environment := by
  cases hhandle : handles.environments.get? handle with
  | none => cases (h.chain?_eq_none hhandle).symm.trans hchain
  | some environment => exact ⟨environment, rfl⟩

/-- Reading fails or gives a value, and so does assigning in the same cases. -/
theorem perform_cases {handle : String} {chain : List Nat} (hchain : History.chain? history handle = some chain)
    (name : Token) :
    (History.nearest? history handle name.lexeme = none ∧
      handles.perform (.get handle name) = .failed (.undefinedVariable name) handles.machine ∧
        ∀ value, handles.perform (.assign handle name value) = .failed (.undefinedVariable name) handles.machine) ∨
    ∃ scope value, History.nearest? history handle name.lexeme = some scope ∧
      History.written history scope name.lexeme = some value ∧
        handles.perform (.get handle name) = .done (handles.environments, some value) handles.machine ∧
          ∀ value, ∃ result machine, handles.perform (.assign handle name value) = .done result machine := by
  obtain ⟨environment, hhandle⟩ := h.exists_environment hchain
  simp only [Handles.perform, Operation.perform_get hhandle, Operation.perform_assign hhandle,
    h.lookup?_eq hhandle, h.resolve?_eq hhandle]
  cases hnearest : History.nearest? history handle name.lexeme with
  | none => exact .inl ⟨rfl, rfl, fun _ => rfl⟩
  | some scope =>
      obtain ⟨value, hvalue⟩ : ∃ value, History.written history scope name.lexeme = some value := by
        rw [← Option.isSome_iff_exists, History.isSome_written]
        exact History.defined_of_nearest? hnearest
      refine .inr ⟨scope, value, rfl, hvalue, ?_, fun _ => ⟨_, _, rfl⟩⟩
      rw [Option.bind_some, hvalue]

theorem obeys {handle : String} {chain : List Nat} (hchain : History.chain? history handle = some chain)
    (name : Token) : handles.Obeys history handle chain name := by
  have hnearest (inner : List Nat) (scope : Nat) (outer : List Nat) (heq : chain = inner ++ scope :: outer)
      (hdefined : History.defined history scope name.lexeme = true)
      (hnearer : ∀ nearer ∈ inner, History.defined history nearer name.lexeme = false) :
      History.nearest? history handle name.lexeme = some scope :=
    (History.nearest?_eq_some_iff hchain).mpr ⟨hdefined, inner, outer, heq, hnearer⟩
  rcases h.perform_cases hchain name with ⟨hnone, hget, hassign⟩ | ⟨scope, value, hsome, hwritten, hget, hassign⟩
  · have hnever := (History.nearest?_eq_none_iff hchain).mp hnone
    constructor
    case fails =>
      intro error machine
      rw [hget, Outcome.failed.injEq]
      exact ⟨fun ⟨herror, hmachine⟩ => ⟨herror.symm, hmachine.symm, hnever⟩,
        fun ⟨herror, hmachine, _⟩ => ⟨herror.symm, hmachine.symm⟩⟩
    case gives =>
      intro inner scope outer heq hdefined hnearer
      cases hnone.symm.trans (hnearest inner scope outer heq hdefined hnearer)
    case assigns =>
      intro value
      simp [hget, hassign value]
    case refuses =>
      intro value error machine hfailed
      rw [hassign value] at hfailed
      cases hfailed
      refine ⟨rfl, ?_⟩
      rw [Handles.next, hassign value]
    case writes =>
      intro value inner scope outer heq hdefined hnearer
      cases hnone.symm.trans (hnearest inner scope outer heq hdefined hnearer)
  · constructor
    case fails =>
      intro error machine
      rw [hget]
      refine ⟨fun hfailed => (nomatch hfailed), fun ⟨_, _, hnever⟩ => ?_⟩
      cases ((History.nearest?_eq_none_iff hchain).mpr hnever).symm.trans hsome
    case gives =>
      intro inner other outer heq hdefined hnearer
      cases hsome.symm.trans (hnearest inner other outer heq hdefined hnearer)
      exact ⟨value, hwritten, hget⟩
    case assigns =>
      intro other
      exact iff_of_true (hassign other) ⟨_, _, hget⟩
    case refuses =>
      intro other error machine hfailed
      obtain ⟨_, _, hdone⟩ := hassign other
      cases hdone.symm.trans hfailed
    case writes =>
      intro other inner place outer heq hdefined hnearer copy lexeme
      have hplace := hnearest inner place outer heq hdefined hnearer
      rw [(h.next (.assign handle name other)).value?_eq, h.value?_eq]
      change (History.nearest? history copy lexeme).bind _ = _
      cases hseen : History.nearest? history copy lexeme with
      | none => simp
      | some seen =>
          simp only [Option.bind_some, History.written, hplace, Option.some_inj]
          by_cases hhere : place = seen ∧ name.lexeme = lexeme
          · obtain ⟨rfl, rfl⟩ := hhere
            simp
          · rw [if_neg hhere, if_neg fun heq => hhere ⟨heq.2.symm, heq.1.symm⟩]

/-- A scope that one handle gets is none of the others. -/
theorem addScope_apart {handle other : String} (hother : other ≠ handle) :
    (handles.next (.addScope handle)).environments.get? other = handles.environments.get? other ∧
      ∀ name, (handles.next (.addScope handle)).value? other name = handles.value? other name := by
  constructor
  · cases hhandle : handles.environments.get? handle with
    | none =>
        rw [Handles.next, Handles.perform, Operation.perform, Handles.use_of_get?_none hhandle]
        rfl
    | some environment =>
        rw [Handles.next, Handles.perform, Operation.perform, Handles.use_of_get? hhandle]
        exact (Bindings.get?_set ..).trans (if_neg hother)
  · intro name
    rw [(h.next (.addScope handle)).value?_eq, h.value?_eq, History.nearest?, History.chain?_addScope hother]
    rfl

end Handles.Follows

/-- Whatever has been done with any number of handles, what is read and written through a handle is what the history
tells. Each handle has at least one scope, and one that gets another scope leaves all others as they are. -/
theorem handles_obeyHistory (start : Machine) (history : List Operation) :
    let handles := Handles.after start history
    (∀ handle chain name, History.chain? history handle = some chain → handles.Obeys history handle chain name) ∧
    (∀ handle environment, handles.environments.get? handle = some environment →
      1 ≤ environment.depth ∧
        ∃ chain, History.chain? history handle = some chain ∧ environment.depth = chain.length) ∧
    ∀ handle other, other ≠ handle →
      (handles.next (.addScope handle)).environments.get? other = handles.environments.get? other ∧
        ∀ name, (handles.next (.addScope handle)).value? other name = handles.value? other name := by
  have hfollows := Handles.follows_after start history
  refine ⟨fun handle chain name hchain => hfollows.obeys hchain name, fun handle environment hhandle => ?_,
    fun handle other hother => hfollows.addScope_apart hother⟩
  obtain ⟨chain, hchain, heq⟩ := hfollows.exists_chain hhandle
  exact ⟨environment.depth_pos, chain, hchain, by rw [Environment.depth, heq, List.length_map]⟩

/-- A copy that has got a scope of its own sees an assignment through the first handle, until it defines the name
itself. -/
theorem handles_obeyHistory_through_copy (start : Machine) :
    let name : Token := { kind := .identifier, lexeme := "x", literal := .identifier "x", line := 1 }
    let history : List Operation :=
      [.assign "first" name (.bool true), .addScope "copy", .clone "first" "copy", .define "first" "x" .nil, .new "first"]
    let handles := Handles.after start history
    let later := Handles.after start (.define "copy" "x" .nil :: history)
    handles.perform (.get "copy" name) = .done (handles.environments, some (.bool true)) handles.machine ∧
      later.perform (.get "copy" name) = .done (later.environments, some .nil) later.machine ∧
        later.perform (.get "first" name) = .done (later.environments, some (.bool true)) later.machine := by
  intro name history handles later
  have hbefore := (handles_obeyHistory start history).1 "copy" [1, 0] name rfl
  have hafter := (handles_obeyHistory start (.define "copy" "x" .nil :: history)).1
  obtain ⟨value, hvalue, hcopy⟩ := hbefore.gives [1] 0 [] rfl rfl (by decide)
  obtain ⟨value', hvalue', hcopy'⟩ := (hafter "copy" [1, 0] name rfl).gives [] 1 [0] rfl rfl (by decide)
  obtain ⟨value'', hvalue'', hfirst⟩ := (hafter "first" [0] name rfl).gives [] 0 [] rfl rfl (by decide)
  cases hvalue
  cases hvalue'
  cases hvalue''
  exact ⟨hcopy, hcopy', hfirst⟩

end Script
