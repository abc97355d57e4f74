import IndentMarkup.Text.Blank
import IndentMarkup.Text.Split

/-!
# Lines

A source is read line by line. A line ends at a line feed; lines of blanks are skipped, and of every
other line its indentation and its trimmed text are kept. A carriage return is a blank, so it does
not matter which of the usual line ends a source has.
-/
namespace IndentMarkup

/-- A line of a source: how far it is indented, and its text without blanks at its ends. -/
structure Line where
  indent : Nat
  text : List Char
  deriving Repr, DecidableEq

namespace Line

/-- The line of a text without line feeds. -/
def ofText (s : List Char) : Line := ⟨Text.indent s, Text.trim s⟩

/-- The lines of a source that are not all blanks. -/
def ofSource (source : String) : List Line :=
  ((Text.splitOn '\n' source.toList).filter fun l => !Text.isAllBlank l).map ofText

end Line

end IndentMarkup
