import IndentMarkup.Value.Conversion

/-!
# Attributes of values

An attribute whose value is computed may be left out or may consist of its key alone, depending on
the value. Otherwise the text of the value stands between double quotes, escaped unless it was
marked as raw.
-/
namespace IndentMarkup

namespace Html

/-- An attribute with its value between quotes, and a space in front. -/
def keyValue (key value : String) : String := " " ++ key ++ "=\"" ++ value ++ "\""

end Html

/-- The attribute that a value stands for. Null and `false` leave it out, and `true` gives the key
alone. -/
def Value.asAttribute (key : String) (raw : Bool) : Value → String
  | .null => ""
  | .bool false => ""
  | .bool true => " " ++ key
  | v => Html.keyValue key (if raw then v.text else v.escapedText)

end IndentMarkup
