import IndentMarkup.Keyed
import IndentMarkup.Text.Blank
import IndentMarkup.Text.Start

/-!
# Attributes

An attribute of an element is written as it stands, or holds an expression to be evaluated each time
the element is rendered. The attributes of an element keep the order in which their keys were first
set. An expression, here as elsewhere, may begin with the word `raw` and a space, which keeps its
value from being escaped and is not part of the expression.
-/
namespace IndentMarkup

/-- The trimmed expression of a text, and whether it was marked as raw. -/
def splitRaw (source : String) : String × Bool :=
  let trimmed := Text.trim source.toList
  match Text.dropStart? "raw ".toList trimmed with
  | some rest => (String.ofList (Text.trim rest), true)
  | none => (String.ofList trimmed, false)

inductive AttrValue where
  | literal (text : String)
  | expr (source : String) (raw : Bool)
  deriving Repr, DecidableEq

/-- The attribute value of an expression that may be marked as raw. -/
def AttrValue.ofSource (source : String) : AttrValue :=
  .expr (splitRaw source).1 (splitRaw source).2

/-- Keys with their values, each key once. -/
abbrev Attributes := Keyed AttrValue

namespace Attributes

def ofPairs (pairs : List (String × AttrValue)) : Attributes :=
  pairs.foldl (fun attributes p => attributes.set p.1 p.2) []

end Attributes

end IndentMarkup
