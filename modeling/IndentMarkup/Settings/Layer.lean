import IndentMarkup.Keyed
import IndentMarkup.Settings.Value
import IndentMarkup.Text.Split

/-!
# Layers of settings

Settings come in layers, later ones going before earlier ones. A table is laid over a table key by
key; any other value replaces what was there. Keys are compared without regard to case.
-/
namespace IndentMarkup

/-- The settings of all layers so far, by their keys in lower case. -/
abbrev Layered := Keyed Setting

namespace Layered

/-- A character in lower case, as far as it can turn into an ASCII letter that way. -/
def lowerChar (c : Char) : Char := if c = '\u212A' then 'k' else c.toLower

def lower (key : String) : String := String.ofList (key.toList.map lowerChar)

/-- The entries of a table; other settings and a missing one have none. -/
def entriesOf : Option Setting → Layered
  | some (.table entries) => entries
  | _ => []

mutual

/-- A setting laid over the one that was there before. A table without entries changes nothing. -/
def lay (old : Option Setting) : Setting → Setting
  | .table [] => old.getD (.table [])
  | .table (entry :: entries) => .table (layAll (entriesOf old) (entry :: entries))
  | .string s => .string s
  | .bool b => .bool b
  | .int n => .int n
  | .float x => .float x
  | .array items => .array items

def layAll (layered : Layered) : List (String × Setting) → Layered
  | [] => layered
  | (key, v) :: rest =>
    layAll (layered.set (lower key) (lay (layered.get? (lower key)) v)) rest

end

/-- Lays a setting over those at the end of a path. What is no table on the way gives way to one. -/
def put (layered : Layered) (path : List String) (v : Setting) : Layered :=
  match path with
  | [] => layered
  | [key] => layAll layered [(key, v)]
  | key :: path =>
    layered.set (lower key) (.table (put (entriesOf (layered.get? (lower key))) path v))

def isPartChar (c : Char) : Bool :=
  c.isAlphanum || c == ' ' || c == '_' || c == '-'

/-- The parts of a dotted key, none of which may be empty. -/
def path? (key : String) : Option (List String) :=
  let parts := Text.splitOn '.' key.toList
  if parts.all fun p => p ≠ [] && p.all isPartChar then some (parts.map String.ofList) else none

/-- Lays the entries of a document over the settings. A key of a document may be dotted too. -/
def addDocument (layered : Layered) (entries : List (String × Setting)) : Layered :=
  entries.foldl (fun l e => l.put ((path? e.1).getD [e.1]) e.2) layered

end Layered

end IndentMarkup
