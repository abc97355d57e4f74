import IndentMarkup.Line.Directive
import IndentMarkup.Markup.Attribute

/-!
# Nodes

A template is a list of nodes. The reader of a source leaves each condition, alternative and default
as a node of its own; `Markup.Decision` folds them into decisions, whose branches carry a guard
each. A condition, an alternative or a default that is left outside a decision renders nothing.
-/
namespace IndentMarkup

/-- When a branch of a decision is taken, provided no earlier one was. -/
inductive Guard where
  | holds (condition : String)
  | always
  deriving Repr, DecidableEq

mutual

inductive Node where
  | element (tag : String) (attributes : Attributes) (children : List Node)
  | text (value : String)
  | insertion (source : String) (raw : Bool)
  | statement (code : String)
  | ifThen (condition : String) (children : List Node)
  | elseIf (condition : String) (children : List Node)
  | otherwise (children : List Node)
  | loop (head : LoopHead) (children : List Node)
  | fragment (children : List Node)
  | decision (branches : List Branch)

inductive Branch where
  | mk (guard : Guard) (children : List Node)

end

def Branch.guard : Branch → Guard
  | .mk guard _ => guard

def Branch.children : Branch → List Node
  | .mk _ children => children

namespace Node

/-- The node that inserts an expression, which may be marked as raw. -/
def ofSource (source : String) : Node := .insertion (splitRaw source).1 (splitRaw source).2

def ofSegment : Segment → Node
  | .literal t => .text t
  | .expr source => ofSource source

/-- The node of a line of text: a text if there is nothing to insert, and otherwise the pieces. -/
def ofSegments : List Segment → Node
  | [] => .text ""
  | [.literal t] => .text t
  | segments => .fragment (segments.map ofSegment)

def typeName : Node → String
  | .element .. => "element"
  | .text _ => "text"
  | .insertion .. => "expression"
  | .statement _ => "statement"
  | .ifThen .. => "if"
  | .elseIf .. => "else-if"
  | .otherwise _ => "else"
  | .loop .. => "for"
  | .fragment _ => "fragment"
  | .decision _ => "decision-chain"

/-- Whether the lines below the node's line, if indented deeper, are its children. -/
def isContainer : Node → Bool
  | .element .. => true
  | .ifThen .. => true
  | .elseIf .. => true
  | .otherwise _ => true
  | .loop .. => true
  | _ => false

/-- The children of a node. The nodes in the branches of a decision are not counted as such. -/
def children : Node → List Node
  | .element _ _ children => children
  | .ifThen _ children => children
  | .elseIf _ children => children
  | .otherwise children => children
  | .loop _ children => children
  | .fragment children => children
  | _ => []

/-- The node with other children. A node that has none of its own stays as it is. -/
def withChildren (node : Node) (children : List Node) : Node :=
  match node with
  | .element tag attributes _ => .element tag attributes children
  | .ifThen condition _ => .ifThen condition children
  | .elseIf condition _ => .elseIf condition children
  | .otherwise _ => .otherwise children
  | .loop head _ => .loop head children
  | .fragment _ => .fragment children
  | other => other

theorem children_withChildren {node : Node} (h : node.isContainer = true)
    (children : List Node) : (node.withChildren children).children = children := by
  cases node <;> simp_all [isContainer, withChildren, Node.children]

@[simp] theorem withChildren_children (node : Node) : node.withChildren node.children = node := by
  cases node <;> rfl

@[simp] theorem typeName_withChildren (node : Node) (children : List Node) :
    (node.withChildren children).typeName = node.typeName := by
  cases node <;> rfl

end Node

end IndentMarkup
