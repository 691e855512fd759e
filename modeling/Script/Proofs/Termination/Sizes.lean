import Script.Proofs.Discipline.Code

/-!
# Sizes of code

What is in a task is smaller than the task, and all code that a state leads to is smaller than its store.
-/

namespace Script

theorem Bindings.mem_of_get? {α : Type} {bindings : Bindings α} {name : String} {value : α}
    (h : bindings.get? name = some value) : (name, value) ∈ bindings.entries := by
  obtain ⟨before, after, hsplit, -⟩ := List.lookup_eq_some_iff.mp h
  rw [hsplit]
  exact List.mem_append_right _ List.mem_cons_self

theorem Bindings.sizeOf_lt_of_get? {α : Type} [SizeOf α] {bindings : Bindings α} {name : String} {value : α}
    (h : bindings.get? name = some value) : sizeOf value < sizeOf bindings := by
  obtain ⟨entries⟩ := bindings
  have hentry := List.sizeOf_lt_of_mem (mem_of_get? h)
  simp only [Prod.mk.sizeOf_spec, Bindings.mk.sizeOf_spec] at hentry ⊢
  omega

/-! ### Tasks -/

theorem Task.sizeOf_lt_of_part {whole inner : Task} (h : inner ∈ whole.parts) : sizeOf inner < sizeOf whole := by
  cases whole with
  | eval expression =>
      obtain ⟨operand, hmem, rfl⟩ := List.mem_map.mp h
      cases expression with
      | call callee paren arguments =>
          rcases List.mem_cons.mp hmem with rfl | hmem
          · simp only [eval.sizeOf_spec, Expr.call.sizeOf_spec]
            omega
          · have hargument := List.sizeOf_lt_of_mem hmem
            simp only [eval.sizeOf_spec, Expr.call.sizeOf_spec]
            omega
      | _ => simp [Expr.parts] at hmem <;> grind
  | exec statement => cases statement <;> simp [Task.parts, Stmt.parts] at h <;> grind

theorem Task.sizeOf_lt_of_block {statements : List Stmt} {statement : Stmt} (h : statement ∈ statements) :
    sizeOf (Task.exec statement) < sizeOf (Task.exec (.block statements)) := by
  have hstatement := List.sizeOf_lt_of_mem h
  simp only [exec.sizeOf_spec, Stmt.block.sizeOf_spec]
  omega

theorem Declaration.sizeOf_lt_of_body {declaration : Declaration} {statement : Stmt}
    (h : statement ∈ declaration.body) : sizeOf (Task.exec statement) < 1 + sizeOf declaration := by
  have hstatement := List.sizeOf_lt_of_mem h
  obtain ⟨name, params, body⟩ := declaration
  simp only [Task.exec.sizeOf_spec, Declaration.mk.sizeOf_spec] at hstatement ⊢
  omega

/-! ### Stores -/

theorem Bindings.sizeOf_lt_of_getD {tables : Array (Bindings Value)} {id : Nat} {name : String} {value : Value}
    (h : (tables.getD id {}).get? name = some value) : sizeOf value < sizeOf tables := by
  rw [Array.getD_eq_getD_getElem?] at h
  by_cases hid : id < tables.size
  · rw [Array.getElem?_eq_getElem hid] at h
    exact Nat.lt_trans (sizeOf_lt_of_get? h) (Array.sizeOf_lt_of_mem (Array.getElem_mem hid))
  · rw [Array.getElem?_eq_none (Nat.le_of_not_lt hid)] at h
    cases h

theorem Store.sizeOf_lt_of_stores {store : Store} {value : Value} (h : store.Stores value) :
    sizeOf value < sizeOf store := by
  obtain ⟨cell, name, h⟩ := h
  obtain ⟨scopes, objects, functions, classes⟩ := store
  rw [Store.mk.sizeOf_spec]
  cases cell with
  | scope id =>
      have hscopes : sizeOf value < sizeOf scopes := Bindings.sizeOf_lt_of_getD h
      omega
  | fields id =>
      have hobjects : sizeOf value < sizeOf objects := Bindings.sizeOf_lt_of_getD h
      omega

theorem Value.Has.sizeOf_lt {value : Value} {f : Function} (h : value.Has f) : sizeOf f < sizeOf value := by
  cases h with
  | function =>
      simp only [callable.sizeOf_spec, Callable.function.sizeOf_spec]
      omega
  | @«class» c _ _ hmethod =>
      have hmethods := Bindings.sizeOf_lt_of_get? hmethod
      obtain ⟨id, name, methods⟩ := c
      simp only [callable.sizeOf_spec, Callable.class.sizeOf_spec, Class.mk.sizeOf_spec] at hmethods ⊢
      omega
  | @«instance» object _ _ hmethod =>
      have hmethods := Bindings.sizeOf_lt_of_get? hmethod
      obtain ⟨⟨id, name, methods⟩, number⟩ := object
      simp only [instance.sizeOf_spec, Instance.mk.sizeOf_spec, Class.mk.sizeOf_spec] at hmethods ⊢
      omega

theorem Function.runs_of_sizeOf {f : Function} {size : Nat} (h : sizeOf f ≤ size) :
    f.Runs fun task => sizeOf task ≤ size := by
  intro statement hmem
  have hstatement := Declaration.sizeOf_lt_of_body hmem
  obtain ⟨id, declaration, closure⟩ := f
  rw [Function.mk.sizeOf_spec] at h
  simp only at hstatement ⊢
  omega

theorem Machine.runs_sizeOf (machine : Machine) : machine.Runs fun task => sizeOf task ≤ sizeOf machine.store := by
  intro value hstores f hhas
  refine Function.runs_of_sizeOf ?_
  calc sizeOf f ≤ sizeOf value := Nat.le_of_lt hhas.sizeOf_lt
    _ ≤ sizeOf machine.store := Nat.le_of_lt (Store.sizeOf_lt_of_stores hstores)

/-! ### Bounds -/

theorem hereditary_sizeOf (size : Nat) : Hereditary fun task => sizeOf task ≤ size where
  part h hpart := Nat.le_trans (Nat.le_of_lt (Task.sizeOf_lt_of_part hpart)) h
  block h _ hmem := Nat.le_trans (Nat.le_of_lt (Task.sizeOf_lt_of_block hmem)) h
  function h _ hmem := by
    have hstatement := Declaration.sizeOf_lt_of_body hmem
    simp only [Task.exec.sizeOf_spec, Stmt.function.sizeOf_spec] at h hstatement ⊢
    omega
  method h _ hdeclaration _ hmem := by
    have hstatement := Declaration.sizeOf_lt_of_body hmem
    have hmethod := List.sizeOf_lt_of_mem hdeclaration
    simp only [Task.exec.sizeOf_spec, Stmt.classDecl.sizeOf_spec] at h hstatement ⊢
    omega

theorem Hereditary.and {p q : Task → Prop} (hp : Hereditary p) (hq : Hereditary q) :
    Hereditary fun task => p task ∧ q task where
  part h hpart := ⟨hp.part h.1 hpart, hq.part h.2 hpart⟩
  block h _ hmem := ⟨hp.block h.1 _ hmem, hq.block h.2 _ hmem⟩
  function h _ hmem := ⟨hp.function h.1 _ hmem, hq.function h.2 _ hmem⟩
  method h _ hdeclaration _ hmem := ⟨hp.method h.1 _ hdeclaration _ hmem, hq.method h.2 _ hdeclaration _ hmem⟩

end Script
