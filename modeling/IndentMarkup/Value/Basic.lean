import IndentMarkup.Keyed

/-!
# Values

A value is what a context binds, what an expression yields and what a host function takes and
gives. Numbers come in two kinds that print alike but are told apart inside collections and by
indexing: integers, and 64-bit floats. An object keeps its fields in the order of their keys, with
one field for each key, so two objects with the same fields are the same list.
-/
namespace IndentMarkup

/-- A number, stored as an integer or as a float. -/
inductive Number where
  | int (n : Int)
  | float (x : Float)

inductive Value where
  | null
  | bool (b : Bool)
  | number (n : Number)
  | string (s : String)
  | array (items : List Value)
  | object (fields : List (String × Value))

/-- The fields of an object, or the bindings of one scope. -/
abbrev Fields := Keyed Value

/-- The kinds of values that messages tell apart. -/
inductive Kind where
  | null
  | boolean
  | number
  | string
  | array
  | object
  deriving Repr, DecidableEq

def Kind.text : Kind → String
  | .null => "null"
  | .boolean => "boolean"
  | .number => "number"
  | .string => "string"
  | .array => "array"
  | .object => "object"

def Value.kind : Value → Kind
  | .null => .null
  | .bool _ => .boolean
  | .number _ => .number
  | .string _ => .string
  | .array _ => .array
  | .object _ => .object

def Value.int (n : Int) : Value := .number (.int n)

namespace Fields

/-- Sets a field. A present key keeps its place, and a new one goes where the order of keys puts it.
-/
def set : Fields → String → Value → Fields
  | [], key, value => [(key, value)]
  | (k, v) :: rest, key, value =>
    if k = key then (key, value) :: rest
    else if key < k then (key, value) :: (k, v) :: rest
    else (k, v) :: set rest key value

/-- The fields of a list of pairs, a later pair winning over an earlier one with the same key. -/
def ofPairs (pairs : List (String × Value)) : Fields :=
  pairs.foldl (fun fields p => set fields p.1 p.2) []

/-- A field that was set is found. -/
theorem get?_set_self (fields : Fields) (key : String) (value : Value) :
    Keyed.get? (set fields key value) key = some value := by
  induction fields with
  | nil => simp [set, Keyed.get?_cons]
  | cons f rest ih =>
    obtain ⟨k, v⟩ := f
    unfold set
    split
    · simp [Keyed.get?_cons]
    · next hk =>
      split
      · simp [Keyed.get?_cons]
      · simp [Keyed.get?_cons, hk, ih]

/-- Setting a field leaves the other fields as they were. -/
theorem get?_set_of_ne (fields : Fields) {key other : String} (value : Value)
    (h : other ≠ key) : Keyed.get? (set fields key value) other = Keyed.get? fields other := by
  have hne : key ≠ other := fun e => h e.symm
  induction fields with
  | nil => simp [set, Keyed.get?_cons, hne]
  | cons f rest ih =>
    obtain ⟨k, v⟩ := f
    unfold set
    split
    · next hk => subst hk; simp [Keyed.get?_cons, hne]
    · split
      · simp [Keyed.get?_cons, hne]
      · simp only [Keyed.get?_cons, ih]

end Fields

end IndentMarkup
