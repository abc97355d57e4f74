import IndentMarkup.Markup.Node
import IndentMarkup.Text.Quoted

/-!
# Listings

A listing shows nodes as a JSON text with two spaces for each level. A node is an object that begins
with the type of the node, and goes on with its parts in a fixed order.
-/
namespace IndentMarkup

inductive Listing where
  | null
  | bool (b : Bool)
  | string (s : String)
  | list (items : List Listing)
  | record (fields : List (String × Listing))

namespace Listing

/-- A line end and the spaces of a level. -/
def newLine (level : Nat) : String := "\n" ++ String.ofList (List.replicate (2 * level) ' ')

mutual

def text (level : Nat) : Listing → String
  | .null => "null"
  | .bool b => if b then "true" else "false"
  | .string s => Text.quote s
  | .list [] => "[]"
  | .list (item :: rest) =>
    "[" ++ String.intercalate "," (itemTexts (level + 1) (item :: rest)) ++ newLine level ++ "]"
  | .record [] => "\x7b\x7d"
  | .record (field :: rest) =>
    "\x7b" ++ String.intercalate "," (fieldTexts (level + 1) (field :: rest)) ++ newLine level ++
      "\x7d"

/-- The texts of the items of a list, each on a line of its own. -/
def itemTexts (level : Nat) : List Listing → List String
  | [] => []
  | item :: rest => (newLine level ++ text level item) :: itemTexts level rest

def fieldTexts (level : Nat) : List (String × Listing) → List String
  | [] => []
  | (key, item) :: rest =>
    (newLine level ++ Text.quote key ++ ": " ++ text level item) :: fieldTexts level rest

end

def tagged (kind : String) (key : String) (item : Listing) : Listing :=
  .record [("kind", .string kind), (key, item)]

def ofAttrValue : AttrValue → Listing
  | .literal value => tagged "literal" "value" (.string value)
  | .expr source raw =>
    tagged "expr" "value" (.record [("value", .string source), ("raw", .bool raw)])

def ofGuard : Guard → Listing
  | .holds condition => tagged "expr" "condition" (.string condition)
  | .always => .record [("kind", .string "always")]

mutual

def parts : Node → List (String × Listing)
  | .element tag attributes children =>
    [("tag", .string tag),
      ("attributes", .record (attributes.map fun a => (a.1, ofAttrValue a.2))),
      ("children", .list (ofNodes children))]
  | .text value => [("value", .string value)]
  | .insertion source raw => [("value", .string source), ("raw", .bool raw)]
  | .statement code => [("code", .string code)]
  | .ifThen condition children =>
    [("condition", .string condition), ("children", .list (ofNodes children))]
  | .elseIf condition children =>
    [("condition", .string condition), ("children", .list (ofNodes children))]
  | .otherwise children => [("children", .list (ofNodes children))]
  | .loop head children =>
    [("variable", .string head.item),
      ("index_variable", (head.index.map Listing.string).getD .null),
      ("expression", .string head.source), ("children", .list (ofNodes children))]
  | .fragment children => [("children", .list (ofNodes children))]
  | .decision branches => [("branches", .list (ofBranches branches))]

def ofNodes : List Node → List Listing
  | [] => []
  | node :: rest =>
    .record (("type", .string node.typeName) :: parts node) :: ofNodes rest

def ofBranches : List Branch → List Listing
  | [] => []
  | .mk guard children :: rest =>
    .record [("guard", ofGuard guard), ("children", .list (ofNodes children))] :: ofBranches rest

end

end Listing

def Node.listing (nodes : List Node) : String := Listing.text 0 (.list (Listing.ofNodes nodes))

end IndentMarkup
