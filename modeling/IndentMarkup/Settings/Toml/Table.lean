import IndentMarkup.Keyed
import IndentMarkup.Settings.Value

/-!
# Tables of settings under construction

A document builds its tables step by step. A table may be opened once by a header and is then closed
to dotted keys from elsewhere; a table that exists only as a part of a longer header may still be
opened; one that dotted keys have made can be added to by dotted keys alone. No key is given a value
twice.
-/
namespace IndentMarkup.Toml

/-- How a table came to be: as a part of a longer header, by dotted keys, or by a header of its own.
-/
inductive Origin where
  | implied
  | dotted
  | opened
  deriving Repr, DecidableEq

/-- What a key of a table under construction holds. -/
inductive Item where
  | value (v : Setting)
  | table (origin : Origin) (entries : List (String × Item))
  | tables (elements : List (List (String × Item)))

abbrev Entries := Keyed Item

namespace Entries

/-- Changes the table at the end of a path, making the tables on the way that are missing. A path of
dotted keys must not lead into a table that a header has opened. -/
def change (byDots : Bool) (f : Origin → Entries → Option Entries) :
    List String → Origin → Entries → Option Entries
  | [], origin, entries => f origin entries
  | key :: path, _, entries =>
    match entries.get? key with
    | none =>
      let origin : Origin := if byDots then .dotted else .implied
      (change byDots f path origin []).map fun es => entries.set key (.table origin es)
    | some (.value _) => none
    | some (.table origin es) =>
      if byDots ∧ origin = .opened then none
      else (change byDots f path origin es).map fun es => entries.set key (.table origin es)
    | some (.tables elements) =>
      match elements.getLast? with
      | none => none
      | some es =>
        (change byDots f path .opened es).map fun es =>
          entries.set key (.tables (elements.dropLast ++ [es]))

def put (key : String) (v : Setting) (entries : Entries) : Option Entries :=
  match entries.get? key with
  | none => some (entries.set key (.value v))
  | some _ => none

/-- Gives the key at the end of a dotted path its value. A path with dots has to end in a table made
by dotted keys. -/
def putDotted (path : List String) (v : Setting) (entries : Entries) : Option Entries :=
  match path.getLast? with
  | none => none
  | some key =>
    let parents := path.dropLast
    change true
      (fun origin es => if parents ≠ [] ∧ origin ≠ .dotted then none else put key v es)
      parents .opened entries

def openTable (key : String) (entries : Entries) : Option Entries :=
  match entries.get? key with
  | none => some (entries.set key (.table .opened []))
  | some (.table .implied es) => some (entries.set key (.table .opened es))
  | some _ => none

/-- Opens another table in the list of tables of a header. -/
def openElement (key : String) (entries : Entries) : Option Entries :=
  match entries.get? key with
  | none => some (entries.set key (.tables [[]]))
  | some (.tables elements) => some (entries.set key (.tables (elements ++ [[]])))
  | some _ => none

end Entries

mutual

def Item.setting : Item → Setting
  | .value v => v
  | .table _ entries => .table (Item.settings entries)
  | .tables elements => .array (Item.tableList elements)

def Item.settings : List (String × Item) → List (String × Setting)
  | [] => []
  | (key, item) :: rest => (key, item.setting) :: Item.settings rest

def Item.tableList : List (List (String × Item)) → List Setting
  | [] => []
  | entries :: rest => .table (Item.settings entries) :: Item.tableList rest

end

end IndentMarkup.Toml
