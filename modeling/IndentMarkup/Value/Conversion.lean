import IndentMarkup.Html
import IndentMarkup.Number.Layout
import IndentMarkup.Number.Reading
import IndentMarkup.Text.Blank
import IndentMarkup.Value.Basic

/-!
# Conversions of values

Both ways of rendering a template convert values through these functions: to a condition, to text,
to a number, and from the result of an arithmetic operation.
-/
namespace IndentMarkup

def Number.toFloat : Number → Float
  | .int n => Float.ofInt n
  | .float x => x

/-- The text of a number: an integer in decimal, a float as floats are written. -/
def Number.text : Number → String
  | .int n => String.ofList (Number.signed (n < 0) (Nat.toDigits 10 n.natAbs))
  | .float x => Number.floatText x

namespace Value

/-- Null, `false`, zero, what is no number and the empty string are false; everything else is true,
empty collections included. -/
def isTruthy : Value → Bool
  | .null => false
  | .bool b => b
  | .number n => !Number.isZero n.toFloat && !Number.isNotNumber n.toFloat
  | .string s => s ≠ ""
  | .array _ => true
  | .object _ => true

mutual

/-- The text of a value as it stands in the output. Null has none, the items of an array are joined
by commas, and an object is not spelled out. -/
def text : Value → String
  | .null => ""
  | .bool true => "true"
  | .bool false => "false"
  | .number n => n.text
  | .string s => s
  | .array items => String.intercalate "," (texts items)
  | .object _ => "[object Object]"

def texts : List Value → List String
  | [] => []
  | v :: vs => v.text :: texts vs

end

def escapedText (v : Value) : String := Html.escape v.text

/-- The number that a text stands for: zero for a blank one, and otherwise a decimal number or one
of the words for infinity and for what is no number, blanks around it ignored. -/
def numberOfText? (s : String) : Option Float :=
  let trimmed := Text.trim s.toList
  if trimmed = [] then some 0 else Number.readFloat? trimmed

/-- The number that a value stands for. Collections stand for none, and neither do texts that are no
numbers. -/
def toNumber? : Value → Option Float
  | .null => some 0
  | .bool b => some (if b then 1 else 0)
  | .number n => some n.toFloat
  | .string s => numberOfText? s
  | .array _ => none
  | .object _ => none

/-- The value of an arithmetic result: an integer when it has no fraction and is below `2 ^ 53`, and
otherwise a float. A result that is not finite has no value. -/
def ofFloat? (x : Float) : Option Value :=
  (Number.exactValue? x).map fun v =>
    match v.integer? with
    | some i => if i.natAbs < Number.power 2 53 then .number (.int i) else .number (.float x)
    | none => .number (.float x)

@[simp] theorem texts_eq_map (vs : List Value) : texts vs = vs.map text := by
  induction vs with
  | nil => rfl
  | cons v vs ih => simp [texts, ih]

end Value

end IndentMarkup
