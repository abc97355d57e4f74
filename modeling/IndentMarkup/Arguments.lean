import IndentMarkup.Command
import IndentMarkup.Text.Start

/-!
# Arguments of the command line

The template stands alone; every other part of a command follows the name of an option, which has a
short and a long form. Each part is given at most once.
-/
namespace IndentMarkup

namespace Command

/-- A command that asks for nothing yet. -/
def blank : Command := ⟨none, none, none, none, none⟩

/-- The parts of a command that options give. -/
inductive Part where
  | context
  | config
  | backend
  | emit
  deriving Repr, DecidableEq

namespace Part

def long : Part → String
  | .context => "--context"
  | .config => "--config"
  | .backend => "--backend"
  | .emit => "--emit"

/-- The short form of an option, if it has one. -/
def short? : Part → Option String
  | .context => some "-c"
  | .config => none
  | .backend => some "-b"
  | .emit => some "-e"

def all : List Part := [.context, .config, .backend, .emit]

/-- The part that an argument names. -/
def named? (arg : String) : Option Part :=
  all.find? fun p => p.long = arg || p.short? = some arg

/-- The part that an argument names and the value it gives behind an equals sign, or directly behind
the short form. -/
def given? (arg : String) : Option (Part × String) :=
  all.findSome? fun p =>
    let behind (name : String) : Option String :=
      (Text.dropStart? name.toList arg.toList).map String.ofList
    ((behind (p.long ++ "=")).or
      (p.short?.bind fun s => (behind (s ++ "=")).or (behind s))).map fun v => (p, v)

end Part

/-- Gives a part of a command its value, unless it has one. -/
def give (c : Command) (part : Part) (value : String) : Option Command :=
  match part with
  | .context => if c.context.isSome then none else some { c with context := some value }
  | .config => if c.config.isSome then none else some { c with config := some value }
  | .backend => if c.backend.isSome then none else some { c with backend := some value }
  | .emit => if c.emit.isSome then none else some { c with emit := some value }

def giveTemplate (c : Command) (file : String) : Option Command :=
  if c.template.isSome then none else some { c with template := some file }

def isOption (arg : String) : Bool := arg.toList.head? = some '-' && arg ≠ "-"

/-- The command that arguments ask for, added to what was asked for before. Behind two hyphens there
are no options. -/
def addArgs (c : Command) : List String → Option Command
  | [] => some c
  | "--" :: rest => rest.foldlM giveTemplate c
  | arg :: rest =>
    match Part.named? arg with
    | some part =>
      match rest with
      | value :: rest =>
        if isOption value then none else (c.give part value).bind fun c => addArgs c rest
      | [] => none
    | none =>
      match Part.given? arg with
      | some (part, value) => (c.give part value).bind fun c => addArgs c rest
      | none =>
        if isOption arg then none else (c.giveTemplate arg).bind fun c => addArgs c rest

def ofArgs (args : List String) : Option Command := blank.addArgs args

def fileNames (c : Command) : List String :=
  c.template.toList ++ c.context.toList ++ c.config.toList

end Command

end IndentMarkup
