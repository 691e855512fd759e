import Script.Store

/-!
# Tables of names

In a table made from a list, the last entry of a name counts. So it is for the methods of a class, which are
numbered in the order of their declarations.
-/

namespace Script

variable {α : Type}

namespace Bindings

theorem get?_foldl_set (entries : List (String × α)) (bindings : Bindings α) (name : String) :
    (entries.foldl (fun bindings entry => bindings.set entry.1 entry.2) bindings).get? name =
      (entries.reverse.lookup name).or (bindings.get? name) := by
  induction entries generalizing bindings with
  | nil => rfl
  | cons entry rest ih =>
      obtain ⟨key, value⟩ := entry
      rw [List.foldl_cons, ih, get?_set, List.reverse_cons, List.lookup_append, Option.or_assoc]
      congr 1
      by_cases heq : name = key
      · rw [heq, List.lookup_cons_self, if_pos rfl]
        rfl
      · rw [List.lookup_cons, beq_false_of_ne heq, if_neg heq]
        rfl

theorem get?_ofList_eq (entries : List (String × α)) (name : String) :
    (ofList entries).get? name = entries.reverse.lookup name := by
  rw [ofList, get?_foldl_set, get?_empty, Option.or_none]

theorem get?_ofList {entries : List (String × α)} {name : String} {value : α}
    (h : (ofList entries).get? name = some value) : (name, value) ∈ entries := by
  rw [get?_ofList_eq] at h
  obtain ⟨before, after, hsplit, -⟩ := List.lookup_eq_some_iff.mp h
  rw [← List.mem_reverse, hsplit]
  exact List.mem_append_right _ List.mem_cons_self

/-! ### Each name once -/

def Distinct (bindings : Bindings α) : Prop :=
  bindings.names.Nodup

theorem distinct_empty : Distinct ({} : Bindings α) :=
  List.nodup_nil

theorem Distinct.set {bindings : Bindings α} (h : bindings.Distinct) (name : String) (value : α) :
    (bindings.set name value).Distinct := by
  obtain ⟨entries⟩ := bindings
  change (entries.map Prod.fst).Nodup at h
  change ((setIn name value entries).map Prod.fst).Nodup
  induction entries with
  | nil => exact List.nodup_cons.mpr ⟨List.not_mem_nil, List.nodup_nil⟩
  | cons entry rest ih =>
      obtain ⟨hnew, hrest⟩ := List.nodup_cons.mp h
      unfold setIn
      split
      · next heq =>
          rw [heq] at hnew
          exact List.nodup_cons.mpr ⟨hnew, hrest⟩
      · next hne =>
          refine List.nodup_cons.mpr ⟨fun hmem => ?_, ih hrest⟩
          exact ((mem_names_set ⟨rest⟩ name value entry.1).mp hmem).elim hne hnew

theorem distinct_ofList (entries : List (String × α)) : (ofList entries).Distinct :=
  List.foldlRecOn entries _ distinct_empty fun _ h entry _ => h.set entry.1 entry.2

theorem Distinct.get?_of_mem {bindings : Bindings α} (h : bindings.Distinct) {name : String} {value : α}
    (hmem : (name, value) ∈ bindings.entries) : bindings.get? name = some value := by
  obtain ⟨before, after, hsplit⟩ := List.append_of_mem hmem
  refine List.lookup_eq_some_iff.mpr ⟨before, after, hsplit, fun entry hentry => ?_⟩
  unfold Distinct names at h
  rw [hsplit, List.map_append, List.nodup_append] at h
  rw [bne_iff_ne]
  exact (h.2.2 entry.1 (List.mem_map_of_mem hentry) name (by simp)).symm

end Bindings

/-! ### Methods -/

namespace Store

/-- The methods of a new class by name, each a function with the next number. -/
def methods (first : Nat) (declarations : List Declaration) (closure : Environment) :
    List (String × Function) :=
  declarations.mapIdx fun i declaration =>
    (declaration.name.lexeme, { id := first + i, declaration, closure })

theorem methods_cons (first : Nat) (declaration : Declaration) (rest : List Declaration)
    (closure : Environment) :
    methods first (declaration :: rest) closure =
      (declaration.name.lexeme, { id := first, declaration, closure }) ::
        methods (first + 1) rest closure := by
  simp [methods, List.mapIdx_cons, Nat.add_assoc, Nat.add_comm 1]

theorem addClass_eq (store : Store) (name : String) (declarations : List Declaration)
    (closure : Environment) :
    store.addClass name declarations closure =
      ({ id := store.classes, name, methods := .ofList (methods store.functions declarations closure) },
        { store with
          functions := store.functions + declarations.length
          classes := store.classes + 1 }) := by
  let step (made : Bindings Function × Store) (declaration : Declaration) : Bindings Function × Store :=
    (made.1.set (made.2.addFunction declaration closure).1.name (made.2.addFunction declaration closure).1,
      (made.2.addFunction declaration closure).2)
  have hfold (made : Bindings Function × Store) : declarations.foldl step made =
      ((methods made.2.functions declarations closure).foldl
          (fun bindings entry => bindings.set entry.1 entry.2) made.1,
        { made.2 with functions := made.2.functions + declarations.length }) := by
    induction declarations generalizing made with
    | nil => rfl
    | cons declaration rest ih =>
        rw [List.foldl_cons, ih, methods_cons, List.foldl_cons, List.length_cons, Nat.add_comm rest.length,
          ← Nat.add_assoc]
        rfl
  have hmade : store.addClass name declarations closure =
      (⟨(declarations.foldl step ({}, store)).2.classes, name, (declarations.foldl step ({}, store)).1⟩,
        { (declarations.foldl step ({}, store)).2 with
          classes := (declarations.foldl step ({}, store)).2.classes + 1 }) :=
    rfl
  rw [hmade, hfold]
  rfl

/-- A method of a new class has one of the declarations, and the number that goes with it. -/
theorem exists_of_method_addClass {store : Store} {name other : String} {declarations : List Declaration}
    {closure : Environment} {method : Function}
    (h : (store.addClass name declarations closure).1.methods.get? other = some method) :
    ∃ i, ∃ hi : i < declarations.length,
      method = { id := store.functions + i, declaration := declarations[i], closure } := by
  rw [addClass_eq] at h
  obtain ⟨i, hi, heq⟩ := List.mem_mapIdx.mp (Bindings.get?_ofList h)
  exact ⟨i, hi, (Prod.mk.inj heq).2.symm⟩

end Store

end Script
