import IndentMarkup.Expr.Engine
import IndentMarkup.Markup.Node

/-!
# Rendering nodes

A list of nodes is rendered in a scope by walking it. Expressions go to an evaluator as texts, in
the order in which their values are needed, and only those that are needed. An expression without a
value never stops the rendering: as content it gives nothing, as a condition and as an attribute it
counts as `false`, and as the source of a loop it gives no rounds, like any value that is no array.
-/
namespace IndentMarkup

/-- What gives the texts of expressions their values, perhaps with an effect. -/
abbrev Evaluator (m : Type → Type) := String → Scope → m (Except EvalError Value)

/-- The evaluator of an engine, which has no effect. -/
def Engine.evaluator (engine : Engine) : Evaluator Id := fun source s =>
  pure (engine.evaluate source s)

section

variable {m : Type → Type} [Monad m]

/-- The value of an expression, or the given one if it has none. -/
def Evaluator.valueOr (evaluator : Evaluator m) (fallback : Value) (source : String) (s : Scope) :
    m Value := do
  match ← evaluator source s with
  | .ok v => pure v
  | .error _ => pure fallback

def AttrValue.render (evaluator : Evaluator m) (key : String) (s : Scope) : AttrValue → m String
  | .literal text => pure (Html.keyValue key text)
  | .expr source raw => do
    let v ← evaluator.valueOr (.bool false) source s
    pure (v.asAttribute key raw)

def Attributes.render (evaluator : Evaluator m) (s : Scope) : Attributes → m String
  | [] => pure ""
  | (key, value) :: rest => do
    let first ← value.render evaluator key s
    let others ← Attributes.render evaluator s rest
    pure (first ++ others)

namespace Node

mutual

/-- A node as it is rendered. Outside a decision a condition, an alternative and a default give
nothing. -/
def render (evaluator : Evaluator m) : Node → Scope → m String
  | .element tag attributes children, s => do
    let head ← attributes.render evaluator s
    let content ← renderAll evaluator children s
    pure ("<" ++ tag ++ head ++ ">" ++ content ++ "</" ++ tag ++ ">")
  | .text value, _ => pure value
  | .insertion source raw, s => do
    let v ← evaluator.valueOr .null source s
    pure (if raw then v.text else v.escapedText)
  | .statement code, s => do
    let _ ← evaluator.valueOr .null code s
    pure ""
  | .loop head children, s => do
    let v ← evaluator.valueOr .null head.source s
    match v with
    | .array items => do
      let texts ← (s.rounds head.item head.index items).mapM fun inner =>
        renderAll evaluator children inner
      pure (String.join texts)
    | _ => pure ""
  | .fragment children, s => renderAll evaluator children s
  | .decision branches, s => renderFirst evaluator branches s
  | .ifThen _ _, _ => pure ""
  | .elseIf _ _, _ => pure ""
  | .otherwise _, _ => pure ""

def renderAll (evaluator : Evaluator m) : List Node → Scope → m String
  | [], _ => pure ""
  | node :: rest, s => do
    let first ← render evaluator node s
    let others ← renderAll evaluator rest s
    pure (first ++ others)

/-- The first branch that is taken as it is rendered; nothing if none is. -/
def renderFirst (evaluator : Evaluator m) : List Branch → Scope → m String
  | [], _ => pure ""
  | .mk .always children :: _, s => renderAll evaluator children s
  | .mk (.holds condition) children :: rest, s => do
    let v ← evaluator.valueOr (.bool false) condition s
    if v.isTruthy then renderAll evaluator children s else renderFirst evaluator rest s

end

end Node

end

def Engine.render (engine : Engine) (nodes : List Node) (s : Scope) : String :=
  Id.run (Node.renderAll engine.evaluator nodes s)

end IndentMarkup
