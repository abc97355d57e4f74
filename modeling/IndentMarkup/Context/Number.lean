import IndentMarkup.Number.Reading
import IndentMarkup.Reading
import IndentMarkup.Value.Basic

/-!
# Numbers of contexts

A whole number that fits into 64 bits, with or without a sign, is an integer, except that a zero
with a minus sign is a float. Any other number is a float. Its digits are gathered into a 64-bit
whole number as far as they fit, and that number is scaled by one power of ten at a time. So the
result may differ in its last bit from the float nearest to the number, and it has to be finite.
-/
namespace IndentMarkup.Context

/-- The largest whole number that digits are gathered into. -/
def digitLimit : Nat := Number.power 2 64 - 1

/-- The digits of a number as far as they are gathered: their value, and the exponent of the power
of ten that it is to be scaled by. -/
structure Gathered where
  value : Nat
  exponent : Int

/-- Gathers the digits before the point. From the first digit without room on, all count as zeros.
-/
def gatherWhole (g : Gathered) (full : Bool) : List Char → Gathered
  | [] => g
  | c :: s =>
    let next := 10 * g.value + (c.toNat - 48)
    if full || digitLimit < next then gatherWhole ⟨g.value, g.exponent + 1⟩ true s
    else gatherWhole ⟨next, g.exponent⟩ false s

/-- Gathers the digits after the point. The first digit without room ends them. -/
def gatherFraction (g : Gathered) : List Char → Gathered
  | [] => g
  | c :: s =>
    let next := 10 * g.value + (c.toNat - 48)
    if digitLimit < next then g else gatherFraction ⟨next, g.exponent - 1⟩ s

def tenTo (n : Nat) : Float := Float.ofScientific 1 false n

/-- Divides by `10 ^ 308` as long as an exponent is below what one division can take away; at most
`steps` times. -/
def scaleDown (x : Float) (exponent : Nat) : Nat → Float
  | 0 => x
  | steps + 1 =>
    if exponent ≤ 308 then x / tenTo exponent
    else if Number.isZero x then x
    else scaleDown (x / tenTo 308) (exponent - 308) steps

/-- The float of gathered digits; none if it is too large. -/
def Gathered.toFloat? (g : Gathered) : Option Float :=
  let x := Float.ofNat g.value
  if 0 ≤ g.exponent then
    let n := g.exponent.toNat
    if Number.isZero x then some x
    else if 308 < n then none
    else
      let y := x * tenTo n
      if Number.isNonFinite y then none else some y
  else
    let n := g.exponent.natAbs
    some (scaleDown x n (n / 308 + 2))

def exponentLimit : Nat := Number.power 2 31 - 1

/-- The float of gathered digits times a power of ten. An exponent beyond the limit makes the number
zero or too large. -/
def Gathered.scaled? (g : Gathered) (negative : Bool) (size : Nat) : Option Float :=
  if exponentLimit < size then
    if g.value = 0 ∨ negative then some 0 else none
  else Gathered.toFloat? ⟨g.value, if negative then g.exponent - size else g.exponent + size⟩

def splitDigits (s : List Char) : List Char × List Char :=
  (s.takeWhile Char.isDigit, s.dropWhile Char.isDigit)

/-- The sign and the digits of the exponent that a text begins with, and what follows. A mark has to
be followed by digits. -/
def exponent? (s : List Char) : Option ((Bool × Nat) × List Char) :=
  match s with
  | c :: r =>
    if c = 'e' ∨ c = 'E' then
      let (negative, r) :=
        match r with
        | '+' :: r => (false, r)
        | '-' :: r => (true, r)
        | r => (false, r)
      let (digits, rest) := splitDigits r
      if digits = [] then none else some ((negative, Number.digitsValue digits), rest)
    else some ((false, 0), s)
  | [] => some ((false, 0), s)

/-- The number without a sign that a text begins with, and what follows it. -/
def unsigned? (negative : Bool) (s : List Char) : Option (Number × List Char) := do
  let (whole, r) := splitDigits s
  if whole = [] ∨ (whole.length ≠ 1 ∧ whole.head? = some '0') then none
  let (fraction, r₁) :=
    match r with
    | '.' :: r => splitDigits r
    | r => ([], r)
  if r.head? = some '.' ∧ fraction = [] then none
  let ((expNegative, size), r₂) ← exponent? r₁
  let n := Number.digitsValue whole
  if r = r₂ ∧ n ≤ digitLimit ∧ (negative → n ≠ 0 ∧ n ≤ Number.power 2 63) then
    some (.int (if negative then -(n : Int) else n), r₂)
  else
    let g := gatherFraction (gatherWhole ⟨0, 0⟩ false whole) fraction
    let x ← g.scaled? expNegative size
    some (.float (if negative then -x else x), r₂)

end IndentMarkup.Context
