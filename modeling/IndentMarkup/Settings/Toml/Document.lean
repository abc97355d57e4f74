import IndentMarkup.Reading
import IndentMarkup.Settings.Toml.Scalar
import IndentMarkup.Settings.Toml.Table
import IndentMarkup.Settings.Toml.Text

/-!
# Documents of settings

A document is a list of lines, each of which opens a table, gives a key a value, or is blank but for
a comment. Values are texts, numbers, truth values, dates, arrays, which may run over several lines,
and tables between braces on one line.
-/
namespace IndentMarkup.Toml

def skipSpace (s : List Char) : List Char := s.dropWhile isSpace

/-- The text behind blanks, line ends and comments. The flag says whether a comment is open. -/
def skipLayout (inComment : Bool) : List Char → List Char
  | [] => []
  | c :: s =>
    if c = '\n' then skipLayout false s
    else if c = '\r' then
      match s with
      | '\n' :: r => skipLayout false r
      | _ => c :: s
    else if inComment then if isPlain c then skipLayout true s else c :: s
    else if c = '#' then skipLayout true s
    else if isSpace c then skipLayout false s
    else c :: s

/-- The text behind the end of a line, before which a comment may stand. -/
def endLine? (s : List Char) : Option (List Char) :=
  let r := skipSpace s
  let r :=
    match r with
    | '#' :: t => t.dropWhile isPlain
    | t => t
  match r with
  | [] => some []
  | r => lineEnd? r

theorem length_skipSpace_le (s : List Char) : (skipSpace s).length ≤ s.length :=
  (List.dropWhile_sublist isSpace).length_le

theorem length_skipLayout_le (inComment : Bool) (s : List Char) :
    (skipLayout inComment s).length ≤ s.length := by
  fun_induction skipLayout inComment s <;> simp_all <;> omega

def isKeyChar (c : Char) : Bool := c.isAlphanum || c == '_' || c == '-'

def keyPart? (s : List Char) : Option (Reading String s) :=
  Reading.ofPair? s <|
    match lineText? s with
    | some (text, r) => some (String.ofList text, r)
    | none =>
      let name := s.takeWhile isKeyChar
      if name = [] then none else some (String.ofList name, s.dropWhile isKeyChar)

/-- Reads a key of several parts with dots between them. -/
def key? (s : List Char) : Option (Reading (List String) s) :=
  match keyPart? s with
  | none => none
  | some ⟨part, r, h⟩ =>
    match _h' : skipSpace r with
    | '.' :: r₁ =>
      have h₁ : r₁.length < s.length := by
        have := length_skipSpace_le r
        simp only [_h', List.length_cons] at this
        omega
      have h₂ := length_skipSpace_le r₁
      (key? (skipSpace r₁)).map fun k =>
        ⟨part :: k.value, k.rest, by have := k.shorter; omega⟩
    | _ => some ⟨[part], r, h⟩
termination_by s.length
decreasing_by omega

def mark? (c : Char) (s : List Char) : Option (Reading Unit s) :=
  Reading.ofPair? s <|
    match skipSpace s with
    | d :: r => if c = d then some ((), r) else none
    | [] => none

/-- Reads a character behind any blanks, line ends and comments. -/
def markBelow? (c : Char) (s : List Char) : Option (Reading Unit s) :=
  Reading.ofPair? s <|
    match skipLayout false s with
    | d :: r => if c = d then some ((), r) else none
    | [] => none

/-- Reads a value that holds no other values. -/
def single? (s : List Char) : Option (Reading Setting s) :=
  Reading.ofPair? s <|
    match text? s with
    | some (text, r) => some (.string (String.ofList text), r)
    | none => (scalar? (splitWord s).1).map fun v => (v, (splitWord s).2)

def inlineTable? (pairs : List (List String × Setting)) : Option Setting :=
  (pairs.foldlM (fun entries p => Entries.putDotted p.1 p.2 entries) []).map fun entries =>
    .table (Item.settings entries)

mutual

/-- Reads a value, with arrays and tables in it nested no deeper than the given number. -/
def value? (depth : Nat) (s : List Char) : Option (Reading Setting s) :=
  match s with
  | '[' :: r =>
    if depth = 0 then none
    else do
      let ⟨vs, r₁, h⟩ ← items? (depth - 1) r
      some ⟨.array vs, r₁, Nat.lt_succ_of_lt h⟩
  | '{' :: r =>
    if depth = 0 then none
    else
      match mark? '}' r with
      | some ⟨_, r₁, h⟩ => some ⟨.table [], r₁, Nat.lt_succ_of_lt h⟩
      | none => do
        let ⟨pairs, r₁, h⟩ ← pairs? (depth - 1) r
        let v ← inlineTable? pairs
        some ⟨v, r₁, Nat.lt_succ_of_lt h⟩
  | s => single? s
termination_by 2 * s.length
decreasing_by all_goals (simp only [List.length_cons]; omega)

/-- Reads the items of an array up to the closing bracket, in front of which a comma may stand. -/
def items? (depth : Nat) (s : List Char) : Option (Reading (List Setting) s) :=
  match markBelow? ']' s with
  | some ⟨_, r, h⟩ => some ⟨[], r, h⟩
  | none => do
    let ⟨v, r, h⟩ ←
      (value? depth (skipLayout false s)).map (Reading.widen (length_skipLayout_le false s))
    match markBelow? ',' r with
    | some ⟨_, r₁, h₁⟩ => do
      let ⟨vs, r₂, h₂⟩ ← items? depth r₁
      some ⟨v :: vs, r₂, by omega⟩
    | none => do
      let ⟨_, r₁, h₁⟩ ← markBelow? ']' r
      some ⟨[v], r₁, by omega⟩
termination_by 2 * s.length + 1
decreasing_by
  · have := length_skipLayout_le false s
    omega
  · omega

/-- Reads the pairs of a table between braces, at least one, up to the closing brace. -/
def pairs? (depth : Nat) (s : List Char) : Option (Reading (List (List String × Setting)) s) := do
  let ⟨k, r, h⟩ ← (key? (skipSpace s)).map (Reading.widen (length_skipSpace_le s))
  let ⟨_, r₁, h₁⟩ ← mark? '=' r
  let ⟨v, r₂, h₂⟩ ← (value? depth (skipSpace r₁)).map (Reading.widen (length_skipSpace_le r₁))
  match mark? ',' r₂ with
  | some ⟨_, r₃, h₃⟩ => do
    let ⟨pairs, r₄, h₄⟩ ← pairs? depth r₃
    some ⟨(k, v) :: pairs, r₄, by omega⟩
  | none => do
    let ⟨_, r₃, h₃⟩ ← mark? '}' r₂
    some ⟨[(k, v)], r₃, by omega⟩
termination_by 2 * s.length + 1
decreasing_by
  · have := length_skipSpace_le r₁
    omega
  · omega

end

def nestingLimit : Nat := 79

/-- What a line of a document says. -/
inductive Statement where
  | header (path : List String)
  | element (path : List String)
  | pair (path : List String) (v : Setting)

def headerKey? (s : List Char) : Option (List String × List Char) := do
  let k ← key? (skipSpace s)
  let close ← mark? ']' k.rest
  some (k.value, close.rest)

def statement? (s : List Char) : Option (Statement × List Char) :=
  match s with
  | '[' :: '[' :: r => do
    let (path, r) ← headerKey? r
    match r with
    | ']' :: r => some (.element path, r)
    | _ => none
  | '[' :: r => (headerKey? r).map fun p => (.header p.1, p.2)
  | s => do
    let k ← key? s
    let equals ← mark? '=' k.rest
    let v ← value? nestingLimit (skipSpace equals.rest)
    some (.pair k.value v.value, v.rest)

/-- The statement of the line that a text begins with, if it has one, and the lines behind it. -/
def line? (s : List Char) : Option (Reading (Option Statement) s) :=
  Reading.ofPair? s <|
    match endLine? s with
    | some r => some (none, r)
    | none => do
      let (statement, r) ← statement? (skipSpace s)
      let r ← endLine? r
      some (some statement, r)

def statements? (s : List Char) : Option (List Statement) :=
  if s = [] then some []
  else do
    let line ← line? s
    let rest ← statements? line.rest
    some (line.value.toList ++ rest)
termination_by s.length
decreasing_by exact line.shorter

/-- Carries out a statement on the tables of a document, given the path of the last header. -/
def carryOut (state : List String × Entries) (statement : Statement) :
    Option (List String × Entries) :=
  let (current, entries) := state
  match statement with
  | .header path => do
    let key ← path.getLast?
    let entries ← Entries.change false (fun _ es => Entries.openTable key es) path.dropLast
      .opened entries
    some (path, entries)
  | .element path => do
    let key ← path.getLast?
    let entries ← Entries.change false (fun _ es => Entries.openElement key es) path.dropLast
      .opened entries
    some (path, entries)
  | .pair path v => do
    let entries ← Entries.change false (fun _ es => Entries.putDotted path v es) current .opened
      entries
    some (current, entries)

/-- The entries of a document; none if the text is no document. -/
def entriesOf? (text : String) : Option (List (String × Setting)) := do
  let s := text.toList
  let statements ← statements? (if s.head? = some '\uFEFF' then s.drop 1 else s)
  let (_, entries) ← statements.foldlM carryOut ([], [])
  some (Item.settings entries)

end IndentMarkup.Toml
