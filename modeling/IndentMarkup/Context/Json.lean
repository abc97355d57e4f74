import IndentMarkup.Context.Number
import IndentMarkup.Reading
import IndentMarkup.Text.Hex
import IndentMarkup.Text.Start

/-!
# Contexts in JSON

A context is given as a JSON text. Of several fields with the same key in an object the last one
counts. Arrays and objects may be nested up to a limit. A code that stands for half of a character
has to be paired with the code for the other half.
-/
namespace IndentMarkup.Context

/-- A blank between the parts of a JSON text. -/
def isSpace (c : Char) : Bool := c == ' ' || c == '\n' || c == '\t' || c == '\r'

def skipSpace (s : List Char) : List Char := s.dropWhile isSpace

/-- The character that a letter behind a backslash stands for. -/
def escape? (c : Char) : Option Char :=
  if c = '"' then some '"'
  else if c = '\\' then some '\\'
  else if c = '/' then some '/'
  else if c = 'b' then some '\x08'
  else if c = 'f' then some '\x0c'
  else if c = 'n' then some '\n'
  else if c = 'r' then some '\r'
  else if c = 't' then some '\t'
  else none

/-- The characters of a text up to the quote that closes it, and what follows the quote. -/
def textBody? : List Char → Option (List Char × List Char)
  | [] => none
  | '"' :: s => some ([], s)
  | '\\' :: 'u' :: a :: b :: c :: d :: '\\' :: 'u' :: a' :: b' :: c' :: d' :: s => do
    let n ← Text.hexNumber? [a, b, c, d]
    if 0xD800 ≤ n ∧ n < 0xDC00 then
      let n' ← Text.hexNumber? [a', b', c', d']
      if 0xDC00 ≤ n' ∧ n' < 0xE000 then
        let p ← textBody? s
        some (Char.ofNat (0x10000 + (n - 0xD800) * 0x400 + (n' - 0xDC00)) :: p.1, p.2)
      else none
    else if 0xDC00 ≤ n ∧ n < 0xE000 then none
    else
      let p ← textBody? ('\\' :: 'u' :: a' :: b' :: c' :: d' :: s)
      some (Char.ofNat n :: p.1, p.2)
  | '\\' :: 'u' :: a :: b :: c :: d :: s => do
    let n ← Text.hexNumber? [a, b, c, d]
    if 0xD800 ≤ n ∧ n < 0xE000 then none
    else
      let p ← textBody? s
      some (Char.ofNat n :: p.1, p.2)
  | '\\' :: c :: s => do
    let x ← escape? c
    let p ← textBody? s
    some (x :: p.1, p.2)
  | c :: s => if c.toNat < 0x20 then none else (textBody? s).map fun p => (c :: p.1, p.2)

def text? (s : List Char) : Option (Reading String s) :=
  match s with
  | '"' :: r => Reading.ofPair? ('"' :: r) ((textBody? r).map fun p => (String.ofList p.1, p.2))
  | _ => none

/-- Reads a character behind any blanks. -/
def mark? (c : Char) (s : List Char) : Option (Reading Unit s) :=
  Reading.ofPair? s <|
    match skipSpace s with
    | d :: r => if c = d then some ((), r) else none
    | [] => none

def number? (s : List Char) : Option (Reading Value s) :=
  let found :=
    match s with
    | '-' :: r => unsigned? true r
    | r => unsigned? false r
  Reading.ofPair? s (found.map fun p => (.number p.1, p.2))

def word? (word : String) (v : Value) (s : List Char) : Option (Reading Value s) :=
  Reading.ofPair? s ((Text.dropStart? word.toList s).map fun r => (v, r))

theorem length_skipSpace_le (s : List Char) : (skipSpace s).length ≤ s.length :=
  (List.dropWhile_sublist isSpace).length_le

mutual

/-- Reads a value, with arrays and objects in it nested no deeper than the given number. -/
def value? (depth : Nat) (s : List Char) : Option (Reading Value s) :=
  match s with
  | '[' :: r =>
    if depth = 0 then none
    else
      match mark? ']' r with
      | some ⟨_, r₁, h⟩ => some ⟨.array [], r₁, Nat.lt_succ_of_lt h⟩
      | none => do
        let ⟨vs, r₁, h⟩ ← items? (depth - 1) r
        some ⟨.array vs, r₁, Nat.lt_succ_of_lt h⟩
  | '{' :: r =>
    if depth = 0 then none
    else
      match mark? '}' r with
      | some ⟨_, r₁, h⟩ => some ⟨.object [], r₁, Nat.lt_succ_of_lt h⟩
      | none => do
        let ⟨fields, r₁, h⟩ ← fields? (depth - 1) r
        some ⟨.object (Fields.ofPairs fields), r₁, Nat.lt_succ_of_lt h⟩
  | '"' :: r => (text? ('"' :: r)).map (Reading.map .string)
  | 't' :: r => word? "true" (.bool true) ('t' :: r)
  | 'f' :: r => word? "false" (.bool false) ('f' :: r)
  | 'n' :: r => word? "null" .null ('n' :: r)
  | s => number? s
termination_by 2 * s.length
decreasing_by all_goals (simp only [List.length_cons]; omega)

/-- Reads the items of an array, at least one, up to the closing bracket. -/
def items? (depth : Nat) (s : List Char) : Option (Reading (List Value) s) := do
  let ⟨v, r, h⟩ ← (value? depth (skipSpace s)).map (Reading.widen (length_skipSpace_le s))
  match mark? ',' r with
  | some ⟨_, r₁, h₁⟩ => do
    let ⟨vs, r₂, h₂⟩ ← items? depth r₁
    some ⟨v :: vs, r₂, by omega⟩
  | none => do
    let ⟨_, r₁, h₁⟩ ← mark? ']' r
    some ⟨[v], r₁, by omega⟩
termination_by 2 * s.length + 1
decreasing_by
  · have := length_skipSpace_le s
    omega
  · omega

/-- Reads the fields of an object, at least one, up to the closing brace. -/
def fields? (depth : Nat) (s : List Char) : Option (Reading (List (String × Value)) s) := do
  let ⟨k, r, h⟩ ← (text? (skipSpace s)).map (Reading.widen (length_skipSpace_le s))
  let ⟨_, r₁, h₁⟩ ← mark? ':' r
  let ⟨v, r₂, h₂⟩ ← (value? depth (skipSpace r₁)).map (Reading.widen (length_skipSpace_le r₁))
  match mark? ',' r₂ with
  | some ⟨_, r₃, h₃⟩ => do
    let ⟨fields, r₄, h₄⟩ ← fields? depth r₃
    some ⟨(k, v) :: fields, r₄, by omega⟩
  | none => do
    let ⟨_, r₃, h₃⟩ ← mark? '}' r₂
    some ⟨[(k, v)], r₃, by omega⟩
termination_by 2 * s.length + 1
decreasing_by
  · have := length_skipSpace_le r₁
    omega
  · omega

end

def nestingLimit : Nat := 127

def ofJson? (text : String) : Option Value := do
  let r ← value? nestingLimit (skipSpace text.toList)
  if skipSpace r.rest = [] then some r.value else none

end IndentMarkup.Context
