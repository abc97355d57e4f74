import IndentMarkup.Expr.Engine
import IndentMarkup.Markup.Node
import IndentMarkup.Text.Quoted

/-!
# Programs

Instead of being walked, nodes can be written as one expression whose value is their output:

    text         "literal", joined with the text next to it
    insertion    escape(try((e), null)), or str(...) when raw
    statement    discard(e)
    element      "<tag" + attr("k", try((e), false)) + ">" + children + "</tag>"
    decision     (try((c), false) ? body : ... : default or "")
    loop         for (item, index in try((e), null)) { body }

Every piece is a text, so the pieces of an element join those around it in one flat concatenation.
An expression that cannot be read never has a value; what depends on it is left out of the program.
-/
namespace IndentMarkup

/-- A piece of a program: text as it stands in the output, or an expression. -/
inductive Piece where
  | text (s : String)
  | code (s : String)
  deriving Repr, DecidableEq

namespace Piece

/-- The literal of some text; none if it is empty. -/
def literal (s : String) : List String := if s = "" then [] else [Text.quote s]

/-- The operands of the concatenation of some pieces, behind text that is still to be joined with
what follows. -/
def operands (pending : String) : List Piece → List String
  | [] => literal pending
  | .text s :: rest => operands (pending ++ s) rest
  | .code s :: rest => literal pending ++ s :: operands "" rest

def concatenation (pieces : List Piece) : String :=
  match operands "" pieces with
  | [] => Text.quote ""
  | terms => String.intercalate " + " terms

/-- The text of an attribute that is written as it stands, or the expression of one that is
computed. -/
def ofAttribute (key : String) : AttrValue → List Piece
  | .literal value => [.text (Html.keyValue key value)]
  | .expr source raw =>
    if isExpression source then
      [.code ((if raw then "raw_attr" else "attr") ++ "(" ++ Text.quote key ++ ", try((" ++
        source ++ "), false))")]
    else []

def ofAttributes (attributes : Attributes) : List Piece :=
  attributes.flatMap fun a => ofAttribute a.1 a.2

end Piece

def LoopHead.bindings (head : LoopHead) : String :=
  match head.index with
  | some index => head.item ++ ", " ++ index
  | none => head.item

namespace Node

mutual

def pieces : Node → List Piece
  | .element tag attributes children =>
    .text ("<" ++ tag) :: Piece.ofAttributes attributes ++ .text ">" :: piecesAll children ++
      [.text ("</" ++ tag ++ ">")]
  | .text value => [.text value]
  | .insertion source raw =>
    if isExpression source then
      [.code ((if raw then "str" else "escape") ++ "(try((" ++ source ++ "), null))")]
    else []
  | .statement code => if isExpression code then [.code ("discard(" ++ code ++ ")")] else []
  | .loop head children =>
    if isExpression head.source then
      [.code ("for (" ++ head.bindings ++ " in try((" ++ head.source ++ "), null)) \x7b " ++
        Piece.concatenation (piecesAll children) ++ " \x7d")]
    else []
  | .fragment children => piecesAll children
  | .decision branches => [.code ("(" ++ alternatives branches ++ ")")]
  | .ifThen _ _ => []
  | .elseIf _ _ => []
  | .otherwise _ => []

def piecesAll : List Node → List Piece
  | [] => []
  | node :: rest => pieces node ++ piecesAll rest

/-- The nested alternatives of the branches of a decision. -/
def alternatives : List Branch → String
  | [] => Text.quote ""
  | .mk .always children :: _ => Piece.concatenation (piecesAll children)
  | .mk (.holds condition) children :: rest =>
    if isExpression condition then
      "try((" ++ condition ++ "), false) ? " ++ Piece.concatenation (piecesAll children) ++ " : " ++
        alternatives rest
    else alternatives rest

end

def program (nodes : List Node) : String := Piece.concatenation (piecesAll nodes)

end Node

/-- A program with the engine that it was written for, read once. -/
structure Program where
  source : String
  expr : Option Expr
  engine : Engine

namespace Program

/-- The program of a text; a text that is no expression has no output. -/
def ofSource (source : String) (engine : Engine) : Program :=
  ⟨source, (Expr.read source).toOption, engine⟩

def ofNodes (nodes : List Node) (engine : Engine) : Program := ofSource (Node.program nodes) engine

/-- The output of a program in a scope: the text of its value, or nothing if it has none. -/
def render (p : Program) (s : Scope) : String :=
  match p.expr with
  | none => ""
  | some e =>
    match p.engine.eval e s with
    | .ok v => v.text
    | .error _ => ""

end Program

end IndentMarkup
