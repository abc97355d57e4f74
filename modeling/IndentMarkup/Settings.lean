import IndentMarkup.Settings.Layer
import IndentMarkup.Settings.Toml.Document
import IndentMarkup.Template

/-!
# Settings

The settings say which tag an element without one gets and which back end renders a template. Above
the built-in ones lie those of any number of files, and above these single settings under dotted
keys. Settings that are not known are ignored.
-/
namespace IndentMarkup

structure Settings where
  defaultTag : String
  backend : Backend
  deriving Repr, DecidableEq

inductive SettingsError where
  | malformedKey (key : String)
  | missingFile
  | malformedFile
  | unusableValue
  deriving Repr, DecidableEq

namespace Settings

def builtIn : Layered :=
  [("parsing", .table [("default_tag", .string OpenElement.defaultTag)]),
    ("rendering", .table [("backend", .string "tree-walk")])]

def backendName : Backend → String
  | .treeWalk => "tree-walk"
  | .generated => "generated"

/-- The backend of a name, without regard to case. -/
def backend? (name : String) : Option Backend :=
  [Backend.treeWalk, Backend.generated].find? fun b => backendName b = Layered.lower name

/-- The choice that a setting makes by a name: the name itself, or a table with that name as its
only key. -/
def choice? : Setting → Option String
  | .string s => some s
  | .table [(key, _)] => some key
  | _ => none

/-- The only member of a group of settings: by its key, or the first of a list. -/
def member? (key : String) : Setting → Option Setting
  | .table entries => Keyed.get? entries key
  | .array items => items.head?
  | _ => none

/-- The settings that all layers amount to. -/
def ofLayered? (layered : Layered) : Option Settings := do
  let parsing ← layered.get? "parsing"
  let tag ← member? "default_tag" parsing
  let tag ← tag.text?
  let rendering ← layered.get? "rendering"
  let choice ← member? "backend" rendering
  let choice ← choice? choice
  let backend ← backend? choice
  some ⟨tag, backend⟩

/-- The settings with a file laid over them, given the content of the file if it exists. -/
def addFile (layered : Layered) : Option String → Except SettingsError Layered
  | none => .error .missingFile
  | some content =>
    match Toml.entriesOf? content with
    | some entries => .ok (layered.addDocument entries)
    | none => .error .malformedFile

def path (key : String) : Except SettingsError (List String) :=
  match Layered.path? key with
  | some path => .ok path
  | none => .error (.malformedKey key)

/-- The settings of some files and of single settings under dotted keys. A malformed key is noticed
before any file is read. -/
def load (files : List (Option String)) (overrides : List (String × Setting)) :
    Except SettingsError Settings := do
  let paths ← overrides.mapM fun o => path o.1
  let layered ← files.foldlM addFile builtIn
  let all := (paths.zip (overrides.map Prod.snd)).foldl (fun l o => Layered.put l o.1 o.2) layered
  match ofLayered? all with
  | some settings => .ok settings
  | none => .error .unusableValue

end Settings

end IndentMarkup
