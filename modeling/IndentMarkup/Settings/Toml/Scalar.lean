import IndentMarkup.Settings.Value
import IndentMarkup.Text.Start

/-!
# Numbers, truth values and dates in settings

Such a value is a word without blanks, except that a blank may stand between a date and a time.
Digits may be grouped by single underscores. A whole number has to fit into 64 bits with a sign and
may be written in base 2, 8, 10 or 16. A date or a time is kept as a text, in one of several ways of
writing the same one.
-/
namespace IndentMarkup.Toml

def isWordChar (c : Char) : Bool :=
  c.isAlphanum || c == '+' || c == '-' || c == '_' || c == '.' || c == ':'

/-- The digits of a group, which underscores may separate one from the next. -/
def ungroup? (isDigit : Char → Bool) : List Char → Option (List Char)
  | [] => none
  | [c] => if isDigit c then some [c] else none
  | c :: '_' :: s => if isDigit c then (ungroup? isDigit s).map (c :: ·) else none
  | c :: s => if isDigit c then (ungroup? isDigit s).map (c :: ·) else none

def splitSign (s : List Char) : Bool × List Char :=
  match s with
  | '-' :: r => (true, r)
  | '+' :: r => (false, r)
  | r => (false, r)

def digitValue (c : Char) : Nat :=
  if c.isDigit then c.toNat - 48 else c.toLower.toNat - 87

def isDigitOf (base : Nat) (c : Char) : Bool :=
  (c.isDigit || ('a' ≤ c.toLower && c.toLower ≤ 'f')) && digitValue c < base

/-- The digits of a whole number in base ten, without zeros in front. -/
def wholeDigits? (s : List Char) : Option (List Char) := do
  let digits ← ungroup? Char.isDigit s
  if digits.length ≠ 1 ∧ digits.head? = some '0' then none else some digits

def size? (s : List Char) : Option Nat :=
  let inBase (base : Nat) (r : List Char) : Option Nat :=
    (ungroup? (isDigitOf base) r).map fun ds => ds.foldl (fun n c => base * n + digitValue c) 0
  match s with
  | '0' :: 'x' :: r => inBase 16 r
  | '0' :: 'o' :: r => inBase 8 r
  | '0' :: 'b' :: r => inBase 2 r
  | r => (wholeDigits? r).map Number.digitsValue

/-- The whole number of a word. Only one in base ten may have a sign. -/
def integer? (s : List Char) : Option Int :=
  let (negative, r) := splitSign s
  if r.length ≠ s.length ∧ r.any Char.isAlpha then none
  else
    (size? r).bind fun n =>
      let value : Int := if negative then -(n : Int) else n
      if -(Number.power 2 63 : Int) ≤ value ∧ value < Number.power 2 63 then some value else none

def exponent? (s : List Char) : Option Int :=
  let (negative, r) := splitSign s
  (ungroup? Char.isDigit r).map fun ds =>
    if negative then -(Number.digitsValue ds : Int) else Number.digitsValue ds

/-- A decimal number without a sign, which has a fraction or an exponent. -/
def decimal? (s : List Char) : Option Float := do
  let mantissa := s.takeWhile fun c => c ≠ 'e' ∧ c ≠ 'E'
  let tail := s.dropWhile fun c => c ≠ 'e' ∧ c ≠ 'E'
  let whole ← wholeDigits? (mantissa.takeWhile (· ≠ '.'))
  let fraction ←
    match mantissa.dropWhile (· ≠ '.') with
    | [] => some []
    | _ :: r => ungroup? Char.isDigit r
  let exponent ←
    match tail with
    | [] => some 0
    | _ :: r => exponent? r
  if fraction = [] ∧ tail = [] then none
  else some (Number.ofDecimal (Number.digitsValue (whole ++ fraction)) (exponent - fraction.length))

/-- The float of a word. A positive number too large for any float is refused. -/
def float? (s : List Char) : Option Float :=
  let (negative, r) := splitSign s
  let withSign (x : Float) : Float := if negative then -x else x
  if r = "inf".toList then some (withSign Number.infinity)
  else if r = "nan".toList then some (withSign Number.notNumber)
  else
    (decimal? r).bind fun x =>
      if Number.isNonFinite x && !negative then none else some (withSign x)

/-- A number of two digits, up to a limit. -/
def twoDigits? (low high : Nat) : List Char → Option ((List Char) × List Char)
  | a :: b :: s =>
    if a.isDigit ∧ b.isDigit then
      let n := Number.digitsValue [a, b]
      if low ≤ n ∧ n ≤ high then some ([a, b], s) else none
    else none
  | _ => none

def daysIn (year month : Nat) : Nat :=
  if month = 2 then if year % 4 = 0 ∧ (year % 100 ≠ 0 ∨ year % 400 = 0) then 29 else 28
  else if month = 4 ∨ month = 6 ∨ month = 9 ∨ month = 11 then 30
  else 31

def date? (s : List Char) : Option (List Char × List Char) := do
  let year := s.take 4
  if year.length ≠ 4 ∨ !year.all Char.isDigit then none
  let r ← Text.dropStart? ['-'] (s.drop 4)
  let (month, r) ← twoDigits? 1 12 r
  let r ← Text.dropStart? ['-'] r
  let (day, r) ← twoDigits? 1 (daysIn (Number.digitsValue year) (Number.digitsValue month)) r
  some (year ++ '-' :: month ++ '-' :: day, r)

/-- The fraction of a second, without zeros at its end and cut to nine digits. -/
def fraction? (s : List Char) : Option (List Char × List Char) :=
  match s with
  | '.' :: r =>
    let digits := r.takeWhile Char.isDigit
    let kept := ((digits.take 9).reverse.dropWhile (· == '0')).reverse
    if digits = [] then none
    else some (if kept = [] then [] else '.' :: kept, r.dropWhile Char.isDigit)
  | _ => some ([], s)

def time? (s : List Char) : Option (List Char × List Char) := do
  let (hour, r) ← twoDigits? 0 23 s
  let r ← Text.dropStart? [':'] r
  let (minute, r) ← twoDigits? 0 59 r
  let r ← Text.dropStart? [':'] r
  let (second, r) ← twoDigits? 0 60 r
  let (part, r) ← fraction? r
  some (hour ++ ':' :: minute ++ ':' :: second ++ part, r)

/-- The distance from universal time that makes up a word. No distance is written with a plus sign.
-/
def offset? (s : List Char) : Option (List Char) :=
  match s with
  | [] => some []
  | ['Z'] => some ['Z']
  | ['z'] => some ['Z']
  | c :: r => do
    if c ≠ '+' ∧ c ≠ '-' then none
    let (hour, r) ← twoDigits? 0 23 r
    let r ← Text.dropStart? [':'] r
    let (minute, r) ← twoDigits? 0 59 r
    if r ≠ [] then none
    let mark := if hour = ['0', '0'] ∧ minute = ['0', '0'] then '+' else c
    some (mark :: hour ++ ':' :: minute)

/-- The text of a word that is a date, a time or both. -/
def moment? (s : List Char) : Option (List Char) :=
  match date? s with
  | some (date, []) => some date
  | some (date, c :: r) =>
    if c = 'T' ∨ c = 't' ∨ c = ' ' then do
      let (time, r) ← time? r
      let offset ← offset? r
      some (date ++ 'T' :: time ++ offset)
    else none
  | none =>
    match time? s with
    | some (time, []) => some time
    | _ => none

/-- The word that a text begins with, a date with a time behind a blank counting as one word, and
what follows it. -/
def splitWord (s : List Char) : List Char × List Char :=
  let word := s.takeWhile isWordChar
  match s.dropWhile isWordChar with
  | ' ' :: r =>
    let next := r.takeWhile isWordChar
    if (moment? word).isSome ∧ (moment? (word ++ ' ' :: next)).isSome then
      (word ++ ' ' :: next, r.dropWhile isWordChar)
    else (word, ' ' :: r)
  | r => (word, r)

def scalar? (word : List Char) : Option Setting :=
  if word = "true".toList then some (.bool true)
  else if word = "false".toList then some (.bool false)
  else
    match moment? word with
    | some t => some (.string (String.ofList t))
    | none =>
      match integer? word with
      | some n => some (.int n)
      | none => (float? word).map .float

end IndentMarkup.Toml
