/-!
# Entries by key

Many things are kept under names: attributes, settings, host functions, the bindings of a scope.
They are lists of entries, in which the first entry with a key counts. Setting a key keeps the place
of an entry that is there, and otherwise adds one behind the others. The main statements are that a
key that was set has its new value, that the other keys keep theirs, and which keys there are.
-/
namespace IndentMarkup

/-- Entries by their keys, in an order of their own. -/
abbrev Keyed (α : Type) := List (String × α)

namespace Keyed

variable {α : Type}

/-- What the first entry with a key holds. -/
def get? : Keyed α → String → Option α
  | [], _ => none
  | (k, v) :: rest, key => if k = key then some v else get? rest key

/-- Sets a key. A present key keeps its place and a new one comes last. -/
def set : Keyed α → String → α → Keyed α
  | [], key, value => [(key, value)]
  | (k, v) :: rest, key, value =>
    if k = key then (key, value) :: rest else (k, v) :: set rest key value

@[simp] theorem get?_nil (key : String) : get? ([] : Keyed α) key = none := rfl

theorem get?_cons (k : String) (v : α) (rest : Keyed α) (key : String) :
    get? ((k, v) :: rest) key = if k = key then some v else get? rest key := rfl

/-- A key that was set has the value it was set to. -/
theorem get?_set_self (entries : Keyed α) (key : String) (value : α) :
    get? (set entries key value) key = some value := by
  induction entries with
  | nil => simp [set, get?_cons]
  | cons e rest ih =>
    obtain ⟨k, v⟩ := e
    unfold set
    split <;> simp_all [get?_cons]

/-- Setting a key leaves the other keys as they were. -/
theorem get?_set_of_ne (entries : Keyed α) {key other : String} (value : α)
    (h : other ≠ key) : get? (set entries key value) other = get? entries other := by
  have hne : key ≠ other := fun e => h e.symm
  induction entries with
  | nil => simp [set, get?_cons, hne]
  | cons e rest ih =>
    obtain ⟨k, v⟩ := e
    unfold set
    split
    · next hk => simp [get?_cons, hk, hne]
    · simp only [get?_cons, ih]

/-- Setting a key adds it behind the others unless it is present already. -/
theorem keys_set (entries : Keyed α) (key : String) (value : α) :
    (set entries key value).map Prod.fst =
      if key ∈ entries.map Prod.fst then entries.map Prod.fst
      else entries.map Prod.fst ++ [key] := by
  induction entries with
  | nil => simp [set]
  | cons e rest ih =>
    obtain ⟨k, v⟩ := e
    unfold set
    by_cases hk : k = key
    · simp [hk]
    · have hk' : ¬ key = k := fun e => hk e.symm
      by_cases hm : key ∈ rest.map Prod.fst <;> simp_all

end Keyed

end IndentMarkup
