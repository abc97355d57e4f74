import IndentMarkup.Arguments

/-!
# The command line

Reads the files that a command names, carries the command out, and prints what it shows.
-/
namespace IndentMarkup

/-- The content of a file; none if it cannot be read as text. -/
def readFile? (name : String) : IO (Option String) := do
  try
    let content ← IO.FS.readFile name
    return some content
  catch _ => return none

/-- Why a command fails, as the last line that a user sees. -/
def CommandError.line : CommandError → String
  | .usage => "Error: wrong usage"
  | .load e => "Error: " ++ e.message
  | e => "Error: " ++ e.subject?.getD "" ++ ": failed"

/-- Carries out a command line and gives its exit status. -/
def runCommand (args : List String) : IO Nat := do
  let command := (Command.ofArgs args).getD Command.blank
  let contents ← command.fileNames.mapM fun name => do
    let content ← readFile? name
    return (name, content)
  match command.run fun name => (contents.lookup name).join with
  | .ok output => do
    IO.print output
    return 0
  | .error e => do
    IO.eprintln e.line
    return e.exitCode

end IndentMarkup

def main (args : List String) : IO UInt32 := do
  let code ← IndentMarkup.runCommand args
  return code.toUInt32
