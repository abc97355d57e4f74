import IndentMarkup.Text.Hex

/-!
# Texts in settings

A text stands between double quotes, with escapes, or between single quotes, as it is. Between three
quotes of a kind it may run over several lines; a line feed right behind the opening quotes does not
belong to it, and a backslash at the end of a line leaves out the line feed and the blanks behind
it. Control characters other than the tab may not stand in a text.
-/
namespace IndentMarkup.Toml

/-- A blank within a line. -/
def isSpace (c : Char) : Bool := c == ' ' || c == '\t'

/-- A character that may stand in a line as it is. -/
def isPlain (c : Char) : Bool := c == '\t' || (0x20 ≤ c.toNat && c.toNat ≠ 0x7F)

def lineEnd? : List Char → Option (List Char)
  | '\n' :: s => some s
  | '\r' :: '\n' :: s => some s
  | _ => none

def codeChar? (digits : List Char) : Option Char :=
  (Text.hexNumber? digits).bind Text.charOfCode?

/-- The character that a letter behind a backslash stands for. -/
def escape? (c : Char) : Option Char :=
  if c = 'b' then some '\x08'
  else if c = 't' then some '\t'
  else if c = 'n' then some '\n'
  else if c = 'f' then some '\x0c'
  else if c = 'r' then some '\r'
  else if c = '"' then some '"'
  else if c = '\\' then some '\\'
  else none

/-- A text behind its opening double quote: its characters, and what follows the closing quote. -/
def basic? : List Char → Option (List Char × List Char)
  | [] => none
  | '"' :: s => some ([], s)
  | '\\' :: 'u' :: a :: b :: c :: d :: s => do
    let x ← codeChar? [a, b, c, d]
    let p ← basic? s
    some (x :: p.1, p.2)
  | '\\' :: 'U' :: a :: b :: c :: d :: e :: f :: g :: h :: s => do
    let x ← codeChar? [a, b, c, d, e, f, g, h]
    let p ← basic? s
    some (x :: p.1, p.2)
  | '\\' :: c :: s => do
    let x ← escape? c
    let p ← basic? s
    some (x :: p.1, p.2)
  | c :: s => if isPlain c then (basic? s).map fun p => (c :: p.1, p.2) else none

/-- A text behind its opening single quote, and what follows the closing quote. -/
def verbatim? : List Char → Option (List Char × List Char)
  | [] => none
  | c :: s =>
    if c = '\x27' then some ([], s)
    else if isPlain c then (verbatim? s).map fun p => (c :: p.1, p.2)
    else none

/-- The quotes at the start of a text of several lines, if they close it: those of them, up to two,
that still belong to the text, and what follows. -/
def closing? (quote : Char) (s : List Char) : Option (List Char × List Char) :=
  let count := (s.takeWhile (· == quote)).length
  if count < 3 then none
  else
    let inside := min (count - 3) 2
    some (List.replicate inside quote, s.drop (inside + 3))

/-- A text of several lines with escapes, behind its opening quotes. The flag says whether blanks
and line ends are being left out. -/
def basicLines? (leaving : Bool) : List Char → Option (List Char × List Char)
  | [] => none
  | c :: s =>
    if leaving && (isSpace c || c == '\n' || (c == '\r' && s.head? == some '\n')) then
      basicLines? true s
    else
      match closing? '"' (c :: s) with
      | some p => some p
      | none =>
        if c = '\\' then
          if (lineEnd? (s.dropWhile isSpace)).isSome then basicLines? true s
          else
            match s with
            | 'u' :: x₁ :: x₂ :: x₃ :: x₄ :: r => do
              let x ← codeChar? [x₁, x₂, x₃, x₄]
              let p ← basicLines? false r
              some (x :: p.1, p.2)
            | 'U' :: x₁ :: x₂ :: x₃ :: x₄ :: x₅ :: x₆ :: x₇ :: x₈ :: r => do
              let x ← codeChar? [x₁, x₂, x₃, x₄, x₅, x₆, x₇, x₈]
              let p ← basicLines? false r
              some (x :: p.1, p.2)
            | d :: r => do
              let x ← escape? d
              let p ← basicLines? false r
              some (x :: p.1, p.2)
            | [] => none
        else if c = '\r' then
          match s with
          | '\n' :: r => (basicLines? false r).map fun p => ('\n' :: p.1, p.2)
          | _ => none
        else if c = '\n' ∨ isPlain c then (basicLines? false s).map fun p => (c :: p.1, p.2)
        else none

/-- A text of several lines without escapes, behind its opening quotes. -/
def verbatimLines? : List Char → Option (List Char × List Char)
  | [] => none
  | c :: s =>
    match closing? '\x27' (c :: s) with
    | some p => some p
    | none =>
      if c = '\r' then
        match s with
        | '\n' :: r => (verbatimLines? r).map fun p => ('\n' :: p.1, p.2)
        | _ => none
      else if c = '\n' ∨ isPlain c then (verbatimLines? s).map fun p => (c :: p.1, p.2)
      else none

def dropLineEnd (s : List Char) : List Char := (lineEnd? s).getD s

def text? : List Char → Option (List Char × List Char)
  | '"' :: '"' :: '"' :: s => basicLines? false (dropLineEnd s)
  | '"' :: s => basic? s
  | '\x27' :: '\x27' :: '\x27' :: s => verbatimLines? (dropLineEnd s)
  | '\x27' :: s => verbatim? s
  | _ => none

def lineText? : List Char → Option (List Char × List Char)
  | '"' :: s => basic? s
  | '\x27' :: s => verbatim? s
  | _ => none

end IndentMarkup.Toml
