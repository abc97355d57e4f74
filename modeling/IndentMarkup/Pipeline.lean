import IndentMarkup.Template

/-!
# Pipelines

A source passes through stages, each of which may refuse what it gets. The stages of a template read
its nodes, fold its conditions into decisions, and write its program; any number of stages may
change the source before.
-/
namespace IndentMarkup

structure StageError where
  stage : String
  message : String
  deriving Repr, DecidableEq

def StageError.text (e : StageError) : String := e.stage ++ " stage failed: " ++ e.message

/-- A step from one form of a template to another. -/
abbrev Stage (α β : Type) := α → Except StageError β

namespace Stage

def andThen {α β γ : Type} (first : Stage α β) (second : Stage β γ) : Stage α γ := fun input => do
  let output ← first input
  second output

def inOrder {α : Type} (stages : List (Stage α α)) : Stage α α := stages.foldl andThen Except.ok

def assembling (fallbackTag : String) : Stage String (List Node) := fun source =>
  .ok (Outline.read fallbackTag source)

/-- The nodes with their conditions folded into decisions. -/
def lowering : Stage (List Node) (List Node) := fun nodes => .ok (Node.lowered nodes)

/-- The program of nodes, which has to be an expression. -/
def generation : Stage (List Node) String := fun nodes =>
  let source := Node.program nodes
  match Expr.read source with
  | .ok _ => .ok source
  | .error fault => .error ⟨"Generation", (EvalError.malformed source fault).message⟩

/-- The nodes of a source as they are read. -/
def rawTree : Stage String (List Node) := assembling OpenElement.defaultTag

def templateTree : Stage String (List Node) := rawTree.andThen lowering

def generatedSource : Stage String String := templateTree.andThen generation

end Stage

inductive LoadError where
  | unreadable (reason : String)
  | refused (e : StageError)
  deriving Repr, DecidableEq

def LoadError.message : LoadError → String
  | .unreadable reason => "IO error: " ++ reason
  | .refused e => "Transform error: " ++ e.text

def noSuchFile : String := "No such file or directory (os error 2)"

structure LoadedSource where
  source : String

namespace LoadedSource

/-- The source in a file, given the content of the file if it exists. -/
def ofFile : Option String → Except LoadError LoadedSource
  | some content => .ok ⟨content⟩
  | none => .error (.unreadable noSuchFile)

def through {α : Type} (s : LoadedSource) (stage : Stage String α) : Except LoadError α :=
  match stage s.source with
  | .ok result => .ok result
  | .error e => .error (.refused e)

end LoadedSource

end IndentMarkup
