/-!
Names and what they stand for, each name once. `get?_set` says what a definition changes.
-/

namespace Script

variable {α : Type}

structure Bindings (α : Type) where
  entries : List (String × α) := []

namespace Bindings

def get? (bindings : Bindings α) (name : String) : Option α :=
  bindings.entries.lookup name

def names (bindings : Bindings α) : List String :=
  bindings.entries.map Prod.fst

/-- Replaces the entry of the name, or adds one at the end. -/
def setIn (name : String) (value : α) : List (String × α) → List (String × α)
  | [] => [(name, value)]
  | entry :: rest => if entry.1 = name then (name, value) :: rest else entry :: setIn name value rest

def set (bindings : Bindings α) (name : String) (value : α) : Bindings α :=
  ⟨setIn name value bindings.entries⟩

/-- Later entries replace earlier ones of the same name. -/
def ofList (entries : List (String × α)) : Bindings α :=
  entries.foldl (fun bindings entry => bindings.set entry.1 entry.2) {}

@[simp]
theorem get?_empty (name : String) : ({} : Bindings α).get? name = none :=
  rfl

theorem get?_set (bindings : Bindings α) (name : String) (value : α) (other : String) :
    (bindings.set name value).get? other =
      if other = name then some value else bindings.get? other := by
  obtain ⟨entries⟩ := bindings
  simp only [get?, set]
  induction entries with
  | nil => grind [setIn]
  | cons entry rest ih => grind [setIn]

theorem mem_names_set (bindings : Bindings α) (name : String) (value : α) (other : String) :
    other ∈ (bindings.set name value).names ↔ other = name ∨ other ∈ bindings.names := by
  obtain ⟨entries⟩ := bindings
  simp only [names, set]
  induction entries with
  | nil => simp [setIn]
  | cons entry rest ih =>
    by_cases hk : entry.1 = name
    · simp [setIn, hk]
    · simp [setIn, hk, ih]
      grind

end Bindings

end Script
