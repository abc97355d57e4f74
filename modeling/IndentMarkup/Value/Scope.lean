import IndentMarkup.Value.Basic

/-!
# Scopes

A scope binds names to values and may stand inside other scopes. A name is looked up from the inside
out, so an inner binding shadows an outer one, and a loop renders each of its rounds in a fresh
inner scope without changing the scope it was given.
-/
namespace IndentMarkup

/-- The bindings of the innermost scope, and those of the scopes around it from the inside out. -/
structure Scope where
  bindings : Fields
  outer : List Fields

namespace Scope

def empty : Scope := ⟨[], []⟩

/-- The scope of a context value: the fields of an object are its bindings, and any other value
binds nothing. -/
def ofValue : Value → Scope
  | .object fields => ⟨fields, []⟩
  | _ => empty

def child (s : Scope) : Scope := ⟨[], s.bindings :: s.outer⟩

/-- The scope around the given one; the outermost scope has none. -/
def parent? (s : Scope) : Option Scope :=
  match s.outer with
  | [] => none
  | b :: rest => some ⟨b, rest⟩

def bind (s : Scope) (name : String) (value : Value) : Scope :=
  ⟨Fields.set s.bindings name value, s.outer⟩

/-- The value of a name, innermost scope first. -/
def lookup (s : Scope) (name : String) : Option Value :=
  (s.bindings :: s.outer).findSome? fun b => b.get? name

/-- The scope of one round of a loop: the item, and the place of the item if that is named too. -/
def round (s : Scope) (item : String) (position : Option String) (value : Value) (place : Nat) :
    Scope :=
  let inner := s.child.bind item value
  match position with
  | some name => inner.bind name (.int place)
  | none => inner

def rounds (s : Scope) (item : String) (position : Option String) (items : List Value) :
    List Scope :=
  items.zipIdx.map fun p => s.round item position p.1 p.2

/-- A name bound last is found. -/
theorem lookup_bind_self (s : Scope) (name : String) (value : Value) :
    (s.bind name value).lookup name = some value := by
  simp [lookup, bind, Fields.get?_set_self]

/-- A binding does not affect other names. -/
theorem lookup_bind_of_ne (s : Scope) {name other : String} (value : Value)
    (h : other ≠ name) : (s.bind name value).lookup other = s.lookup other := by
  simp [lookup, bind, List.findSome?_cons, Fields.get?_set_of_ne _ _ h]

/-- A fresh inner scope sees everything around it. -/
theorem lookup_child (s : Scope) (name : String) : s.child.lookup name = s.lookup name := by
  simp [lookup, child, List.findSome?_cons]

end Scope

end IndentMarkup
