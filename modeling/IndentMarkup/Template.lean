import IndentMarkup.Markup.Decision
import IndentMarkup.Markup.Outline
import IndentMarkup.Program
import IndentMarkup.Render

/-!
# Templates

A template is the nodes of a source with its conditions folded into decisions. It is made once and
rendered any number of times, by either of two back ends: one walks the nodes, and one writes them
as a program and evaluates it. Both give the same output.
-/
namespace IndentMarkup

/-- How a template becomes output. -/
inductive Backend where
  | treeWalk
  | generated
  deriving Repr, DecidableEq

structure Template where
  nodes : List Node

namespace Template

/-- The template of a source, in which elements without a tag get the given one. -/
def compile (fallbackTag : String) (source : String) : Template :=
  ⟨Node.lowered (Outline.read fallbackTag source)⟩

def render (t : Template) (engine : Engine) (s : Scope) : String := engine.render t.nodes s

def generate (t : Template) (engine : Engine) : Program := .ofNodes t.nodes engine

def renderOn (t : Template) (backend : Backend) (engine : Engine) (s : Scope) : String :=
  match backend with
  | .treeWalk => t.render engine s
  | .generated => (t.generate engine).render s

end Template

end IndentMarkup
