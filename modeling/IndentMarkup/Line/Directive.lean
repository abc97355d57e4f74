import IndentMarkup.Line.Insertion
import IndentMarkup.Text.Identifier
import IndentMarkup.Text.Start
import IndentMarkup.Text.Word

/-!
# Directives

Each line of a source says one thing: a text, an element, an expression to insert, or a control
line, which begins with a hyphen and a space. The first of these forms that fits decides, in the
order in which `Directive.ofLine?` tries them. An element line is cut into its head, the tag and the
classes and identifiers joined to it, and the rest of the line, which is left to the reader of
attributes.
-/
namespace IndentMarkup

/-- The head of an element line, and what follows the head. A line without a tag uses the default
one. -/
structure ElementHead where
  tag : Option String
  classes : List String
  id : Option String
  rest : String
  deriving Repr, DecidableEq

structure LoopHead where
  item : String
  index : Option String
  source : String
  deriving Repr, DecidableEq

/-- What one line says. -/
inductive Directive where
  | literal (text : String)
  | text (segments : List Segment)
  | element (head : ElementHead)
  | expression (source : String)
  | statement (code : String)
  | ifThen (condition : String)
  | elseIf (condition : String)
  | otherwise
  | loop (head : LoopHead)
  deriving Repr, DecidableEq

def isModifierChar (c : Char) : Bool := Text.isName c || c == '.' || c == '#'

/-- The modifiers of a run: each mark with the name behind it, and the name before the first mark.
-/
def modifierNames : List Char → List Char × List (Char × List Char)
  | [] => ([], [])
  | c :: s =>
    let (name, marked) := modifierNames s
    if c = '.' ∨ c = '#' then ([], (c, name) :: marked) else (c :: name, marked)

/-- The modifiers of a run that have a name. -/
def modifiers (run : List Char) : List (Char × List Char) :=
  (modifierNames run).2.filter fun m => m.2 ≠ []

def modifierClasses (run : List Char) : List String :=
  ((modifiers run).filter fun m => m.1 = '.').map fun m => String.ofList m.2

/-- The name behind the last hash of a run. -/
def modifierId? (run : List Char) : Option String :=
  (((modifiers run).filter fun m => m.1 = '#').map fun m => String.ofList m.2).getLast?

namespace ElementHead

/-- The head with a tag, and a text that begins with the modifiers behind it. -/
def ofParts (tag : Option String) (run rest : List Char) : ElementHead :=
  { tag, classes := modifierClasses run, id := modifierId? run, rest := String.ofList rest }

/-- The head of a line without a tag, which begins with a modifier. -/
def ofModifiers (line : List Char) : ElementHead :=
  ofParts none (line.takeWhile isModifierChar) (line.dropWhile isModifierChar)

/-- The head of the text behind a percent sign. A tag has at least one character. -/
def ofTagged? (s : List Char) : Option ElementHead :=
  let tag := s.takeWhile Text.isName
  let rest := s.dropWhile Text.isName
  if tag = [] then none
  else some (ofParts (some (String.ofList tag)) (rest.takeWhile isModifierChar)
    (rest.dropWhile isModifierChar))

end ElementHead

/-- The text behind the blanks that a text begins with; there has to be a blank. -/
def dropBlanks? : List Char → Option (List Char)
  | [] => none
  | c :: s => if Text.isBlank c then some (Text.trimStart s) else none

namespace LoopHead

def index? (s : List Char) : Option (List Char × List Char) :=
  match Text.trimStart s with
  | ',' :: r => Text.splitIdentifier? (Text.trimStart r)
  | _ => none

/-- The source of a loop behind its bindings: the word `in` between blanks, and an expression on one
line. -/
def source? (s : List Char) : Option (List Char) := do
  let afterBlanks ← dropBlanks? s
  let afterWord ← Text.dropStart? "in".toList afterBlanks
  let source ← dropBlanks? afterWord
  if source = [] ∨ '\n' ∈ source then none else some source

def ofText? (s : List Char) : Option LoopHead := do
  let start ← dropBlanks? s
  let (name, rest) ← Text.splitIdentifier? start
  match index? rest with
  | some (index, rest') =>
    let source ← source? rest'
    some ⟨String.ofList name, some (String.ofList index), String.ofList source⟩
  | none =>
    let source ← source? rest
    some ⟨String.ofList name, none, String.ofList source⟩

end LoopHead

/-- The code behind a keyword and the space that follows it. -/
def afterWord? (word : String) (code : List Char) : Option (List Char) :=
  Text.dropStart? (word.toList ++ [' ']) code

namespace Directive

/-- What the code of a control line says. Code that is no condition and no well-formed loop is a
statement. -/
def ofControl (code : List Char) : Directive :=
  match afterWord? "if" code with
  | some r => .ifThen (String.ofList (Text.trim r))
  | none =>
    if code = "else".toList then .otherwise
    else
      match (afterWord? "else if" code).or (afterWord? "elsif" code) with
      | some r => .elseIf (String.ofList (Text.trim r))
      | none =>
        match (afterWord? "for" code).bind fun _ => LoopHead.ofText? (code.drop 3) with
        | some head => .loop head
        | none => .statement (String.ofList code)

/-- What a trimmed line says that is no control line and no element. -/
def ofPlain (line : List Char) : Directive :=
  match line with
  | '=' :: ' ' :: r => .expression (String.ofList (Text.trim r))
  | _ => .text (Segment.ofText line)

/-- What a trimmed line says. A hyphen behind a backslash is text, and so is a percent sign without
a tag. -/
def ofTrimmed (line : List Char) : Directive :=
  match line with
  | '\\' :: '-' :: r => .literal (String.ofList ('-' :: r))
  | '-' :: ' ' :: r => ofControl (Text.trim r)
  | '.' :: _ => .element (ElementHead.ofModifiers line)
  | '#' :: _ => .element (ElementHead.ofModifiers line)
  | '%' :: r =>
    match ElementHead.ofTagged? r with
    | some head => .element head
    | none => ofPlain line
  | _ => ofPlain line

/-- What a line says; a line of blanks says nothing. -/
def ofLine? (line : List Char) : Option Directive :=
  let trimmed := Text.trim line
  if trimmed = [] then none else some (ofTrimmed trimmed)

end Directive

end IndentMarkup
