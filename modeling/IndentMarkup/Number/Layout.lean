import IndentMarkup.Number.Shortest

/-!
# Texts of floats

A float is written positionally, without an exponent, with the fewest digits that read back. A value
without a fraction below `10 ^ 21` is written with all its digits instead, and a negative zero keeps
its sign.
-/
namespace IndentMarkup.Number

/-- The digits of a decimal, with the point where its exponent puts it. -/
def Decimal.positional (d : Decimal) : List Char :=
  let digits := Nat.toDigits 10 d.digits
  if 0 ≤ d.exponent then
    if d.digits = 0 then ['0'] else digits ++ List.replicate d.exponent.toNat '0'
  else
    let places := (-d.exponent).toNat
    let padded := List.replicate (places + 1 - digits.length) '0' ++ digits
    padded.take (padded.length - places) ++ '.' :: padded.drop (padded.length - places)

/-- The trailing zeros of the digits moved into the exponent, as far as the exponent is negative. -/
def Decimal.dropZeros : Nat → Decimal → Decimal
  | 0, d => d
  | n + 1, d =>
    if d.exponent < 0 ∧ d.digits % 10 = 0 then dropZeros n ⟨d.digits / 10, d.exponent + 1⟩ else d

def signed (negative : Bool) (s : List Char) : List Char := if negative then '-' :: s else s

/-- The text with the fewest digits that read back. -/
def shortestText (x : Float) : String :=
  match exactValue? x with
  | some v =>
    let d := v.shortest
    String.ofList (signed v.negative (d.dropZeros d.exponent.natAbs).positional)
  | none => if isNotNumber x then "NaN" else if isNegative x then "-inf" else "inf"

/-- The text of a float: every digit of a value without a fraction below `10 ^ 21`, and otherwise
the fewest digits that read back. -/
def floatText (x : Float) : String :=
  match exactValue? x with
  | none => shortestText x
  | some v =>
    match v.integer? with
    | some i =>
      if i.natAbs < power 10 21 then String.ofList (signed v.negative (Nat.toDigits 10 i.natAbs))
      else shortestText x
    | none => shortestText x

end IndentMarkup.Number
