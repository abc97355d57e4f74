import IndentMarkup.Value.Conversion

/-!
# Comparison of values

Strict equality asks for the same kind and the same value, with numbers compared as numbers. Loose
equality also compares numbers, numeric texts and booleans as numbers. The order of values is the
order of texts by code points when both are texts, and otherwise the order of numbers.
-/
namespace IndentMarkup

/-- Equality inside collections, where an integer never equals a float. -/
def Number.sameStored : Number → Number → Bool
  | .int a, .int b => a == b
  | .float x, .float y => Number.same x y
  | _, _ => false

/-- The order of texts by code points. -/
def Text.compareChars : List Char → List Char → Ordering
  | [], [] => .eq
  | [], _ :: _ => .lt
  | _ :: _, [] => .gt
  | a :: s, b :: t => (compare a.toNat b.toNat).then (compareChars s t)

namespace Value

mutual

/-- Equality of values as they are stored. -/
def same : Value → Value → Bool
  | .null, .null => true
  | .bool a, .bool b => a == b
  | .number a, .number b => a.sameStored b
  | .string s, .string t => s == t
  | .array xs, .array ys => sameItems xs ys
  | .object xs, .object ys => sameFields xs ys
  | _, _ => false

def sameItems : List Value → List Value → Bool
  | [], [] => true
  | x :: xs, y :: ys => same x y && sameItems xs ys
  | _, _ => false

/-- Equality of objects, field by field in the order of keys. -/
def sameFields : List (String × Value) → List (String × Value) → Bool
  | [], [] => true
  | (k, x) :: xs, (l, y) :: ys => k == l && same x y && sameFields xs ys
  | _, _ => false

end

/-- Same kind and same value; numbers are compared as numbers. -/
def strictEquals : Value → Value → Bool
  | .number a, .number b => Number.same a.toFloat b.toFloat
  | v, w => same v w

/-- Whether both values stand for numbers and these are equal. -/
def numericEquals (v w : Value) : Bool :=
  match v.toNumber?, w.toNumber? with
  | some x, some y => Number.same x y
  | _, _ => false

/-- Strict equality, except that a boolean and any other value, and a number and a text, are
compared as numbers. Null equals null only. -/
def looseEquals : Value → Value → Bool
  | .null, .null => true
  | .null, _ => false
  | _, .null => false
  | .number a, .string s => numericEquals (.number a) (.string s)
  | .string s, .number a => numericEquals (.string s) (.number a)
  | .bool b, w => numericEquals (.bool b) w
  | v, .bool b => numericEquals v (.bool b)
  | v, w => strictEquals v w

/-- The order of two values; nothing when they are not both texts and one of them stands for no
number. -/
def order : Value → Value → Option Ordering
  | .string s, .string t => some (Text.compareChars s.toList t.toList)
  | v, w =>
    match v.toNumber?, w.toNumber? with
    | some x, some y => Number.order x y
    | _, _ => none

/-- Whether a value makes a sum a concatenation. -/
def isTextual : Value → Bool
  | .string _ => true
  | .array _ => true
  | .object _ => true
  | _ => false

def concatenates (v w : Value) : Bool := v.isTextual || w.isTextual

end Value

end IndentMarkup
