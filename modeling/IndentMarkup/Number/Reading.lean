import IndentMarkup.Number.Binary

/-!
# Reading numbers

A decimal number has digits before or after a point, or both, and may carry an exponent. It is read
as the float nearest to it, too large a number as an infinity. The words for infinity and for what
is no number are read in any case, and a sign may stand in front of either.
-/
namespace IndentMarkup.Number

def digitsValue (s : List Char) : Nat := s.foldl (fun n c => 10 * n + (c.toNat - 48)) 0

/-- The float nearest to `digits * 10 ^ exponent`. Values beyond all floats are decided by their
size alone, so that no huge power is formed. -/
def ofDecimal (digits : Nat) (exponent : Int) : Float :=
  if digits = 0 then 0
  else
    let top := ((Nat.toDigits 10 digits).length : Int) + exponent
    if 400 < top then infinity
    else if top < -400 then 0
    else Float.ofScientific digits (exponent < 0) exponent.natAbs

/-- The exponent part of a decimal number: nothing, or a mark, an optional sign and digits. -/
def readExponent? : List Char → Option Int
  | [] => some 0
  | c :: s =>
    if c = 'e' ∨ c = 'E' then
      let (negative, digits) :=
        match s with
        | '-' :: r => (true, r)
        | '+' :: r => (false, r)
        | r => (false, r)
      if digits ≠ [] ∧ digits.all Char.isDigit then
        some (if negative then -(digitsValue digits : Int) else digitsValue digits)
      else none
    else none

def readUnsigned? (s : List Char) : Option Float :=
  let whole := s.takeWhile Char.isDigit
  let rest := s.dropWhile Char.isDigit
  let (fraction, tail) :=
    match rest with
    | '.' :: r => (r.takeWhile Char.isDigit, r.dropWhile Char.isDigit)
    | r => ([], r)
  if whole = [] ∧ fraction = [] then none
  else
    (readExponent? tail).map fun e =>
      ofDecimal (digitsValue (whole ++ fraction)) (e - fraction.length)

/-- The words for infinity and for what is no number, in any case. -/
def readWord? (s : List Char) : Option Float :=
  let word := s.map Char.toLower
  if word = "inf".toList ∨ word = "infinity".toList then some infinity
  else if word = "nan".toList then some notNumber
  else none

def readFloat? (s : List Char) : Option Float :=
  let unsigned (r : List Char) : Option Float := (readWord? r).or (readUnsigned? r)
  match s with
  | '-' :: r => (unsigned r).map Float.neg
  | '+' :: r => unsigned r
  | r => unsigned r

end IndentMarkup.Number
