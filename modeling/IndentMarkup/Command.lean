import IndentMarkup.Context.Json
import IndentMarkup.Markup.Listing
import IndentMarkup.Pipeline
import IndentMarkup.Settings

/-!
# Commands

A command compiles the template in a file and shows its output, its program or a listing of its
nodes. What it shows depends on the contents of the files it names and on nothing else, so a command
is a function of those.
-/
namespace IndentMarkup

/-- What a command shows of a template. -/
inductive Emit where
  | html
  | source
  | tree
  deriving Repr, DecidableEq

/-- What a command is asked to do, in the words of the command line: the names of files, and the
chosen back end and form of output. -/
structure Command where
  template : Option String
  context : Option String
  config : Option String
  backend : Option String
  emit : Option String

inductive CommandError where
  | usage
  | settings (e : SettingsError)
  | load (e : LoadError)
  | contextFile
  | contextText
  deriving Repr, DecidableEq

namespace CommandError

/-- What a command failed over, in the words that begin its message. Wrong usage has a message of
its own. -/
def subject? : CommandError → Option String
  | .usage => none
  | .settings _ => some "configuration error"
  | .load (.unreadable _) => some "IO error"
  | .load (.refused _) => some "Transform error"
  | .contextFile => some "cannot read context file"
  | .contextText => some "invalid context JSON"

/-- The exit status of a command that fails. -/
def exitCode : CommandError → Nat
  | .usage => 2
  | _ => 1

end CommandError

namespace Command

/-- The forms of output by their names; without a name it is the rendered output. -/
def emit? : Option String → Option Emit
  | none => some .html
  | some name =>
    if name = "html" then some .html
    else if name = "source" then some .source
    else if name = "tree" then some .tree
    else none

/-- Whether a name of a back end is spelled as the command line lists it. -/
def isBackend (name : String) : Bool := name = "tree-walk" || name = "generated"

def scope (files : String → Option String) : Option String → Except CommandError Scope
  | none => .ok .empty
  | some file =>
    match files file with
    | none => .error .contextFile
    | some text =>
      match Context.ofJson? text with
      | some v => .ok (.ofValue v)
      | none => .error .contextText

def settings (files : String → Option String) (c : Command) : Except CommandError Settings :=
  let overrides := c.backend.toList.map fun name => ("rendering.backend", Setting.string name)
  match Settings.load (c.config.toList.map files) overrides with
  | .ok s => .ok s
  | .error e => .error (.settings e)

def loaded {α : Type} : Except LoadError α → Except CommandError α
  | .ok x => .ok x
  | .error e => .error (.load e)

/-- What a command prints, given the contents of the files that exist. The settings are looked at
first, then the template, and the context only if it is needed. -/
def run (files : String → Option String) (c : Command) : Except CommandError String := do
  match c.template, emit? c.emit with
  | some template, some emit =>
    if c.backend.any fun name => !isBackend name then .error .usage
    else do
      let s ← settings files c
      let source ← loaded (LoadedSource.ofFile (files template))
      let tree := (Stage.assembling s.defaultTag).andThen Stage.lowering
      match emit with
      | .source => loaded (source.through (tree.andThen Stage.generation))
      | .tree => do
        let nodes ← loaded (source.through tree)
        .ok (Node.listing nodes)
      | .html => do
        let nodes ← loaded (source.through tree)
        let scope ← scope files c.context
        .ok (Template.renderOn ⟨nodes⟩ s.backend Engine.empty scope)
  | _, _ => .error .usage

end Command

end IndentMarkup
