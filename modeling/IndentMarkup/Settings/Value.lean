import IndentMarkup.Number.Layout
import IndentMarkup.Value.Conversion

/-!
# Values of settings

What a document of settings holds under its keys. Where a text is asked for, a truth value and a
number do as well, as they are written; collections do not.
-/
namespace IndentMarkup

inductive Setting where
  | string (s : String)
  | bool (b : Bool)
  | int (n : Int)
  | float (x : Float)
  | array (items : List Setting)
  | table (entries : List (String × Setting))

def Setting.text? : Setting → Option String
  | .string s => some s
  | .bool b => some (if b then "true" else "false")
  | .int n => some (Number.int n).text
  | .float x => some (Number.shortestText x)
  | .array _ => none
  | .table _ => none

end IndentMarkup
