import IndentMarkup.Number.Binary

/-!
# The fewest digits that read back

Each finite float stands for the real numbers that round to it: those between the points halfway to
its neighbours, the ends included when its mantissa is even. Its shortest decimal is the one with
the fewest digits in that interval, of two equally short ones the closer, and of two equally close
ones the larger. Everything is compared in exact integer arithmetic.
-/
namespace IndentMarkup.Number

/-- The number `digits * 10 ^ exponent`. -/
structure Decimal where
  digits : Nat
  exponent : Int
  deriving Repr, DecidableEq

/-- The order of `a * 10 ^ i` and `n * 2 ^ j`. -/
def compareScaled (a : Nat) (i : Int) (n : Nat) (j : Int) : Ordering :=
  compare (a * power 10 i.toNat * power 2 (-j).toNat)
    (n * power 2 j.toNat * power 10 (-i).toNat)

/-- Whether the decimal rounds to the size of the float. Below a power of two the neighbour is only
half as far away as above it. -/
def Exact.readsBack (v : Exact) (d : Decimal) : Bool :=
  let narrow := v.mantissa = power 2 52 ∧ -1074 < v.exponent
  let low := if narrow then 4 * v.mantissa - 1 else 4 * v.mantissa - 2
  let high := 4 * v.mantissa + 2
  let closed := v.mantissa % 2 == 0
  let atLow := compareScaled d.digits d.exponent low (v.exponent - 2)
  let atHigh := compareScaled d.digits d.exponent high (v.exponent - 2)
  (atLow == .gt || (closed && atLow == .eq)) && (atHigh == .lt || (closed && atHigh == .eq))

/-- The number of decimal digits; zero has one. -/
def digitCount (n : Nat) : Nat := (Nat.toDigits 10 n).length

/-- The least power of ten above the size of a float that is not zero. -/
def Exact.scale (v : Exact) : Int :=
  let above := v.mantissa * power 2 v.exponent.toNat
  let below := power 2 (-v.exponent).toNat
  if below ≤ above then digitCount (above / below)
  else 1 - (digitCount ((below - 1) / above) : Int)

/-- The largest multiple of `10 ^ e` that does not exceed the size of the float, as a factor. -/
def Exact.floorOn (v : Exact) (e : Int) : Nat :=
  (v.mantissa * power 2 v.exponent.toNat * power 10 (-e).toNat) /
    (power 2 (-v.exponent).toNat * power 10 e.toNat)

/-- The multiple of `10 ^ e` that reads back and is nearest, if one of the two around the float
does. -/
def Exact.onGrid? (v : Exact) (e : Int) : Option Decimal :=
  let lower : Decimal := ⟨v.floorOn e, e⟩
  let upper : Decimal := ⟨v.floorOn e + 1, e⟩
  match v.readsBack lower, v.readsBack upper with
  | true, true =>
    if compareScaled (lower.digits + upper.digits) e v.mantissa (v.exponent + 1) == .gt then
      some lower
    else some upper
  | true, false => some lower
  | false, true => some upper
  | false, false => none

/-- The exact decimal value, which always reads back. -/
def Exact.decimal (v : Exact) : Decimal :=
  if 0 ≤ v.exponent then ⟨v.mantissa * power 2 v.exponent.toNat, 0⟩
  else ⟨v.mantissa * power 5 (-v.exponent).toNat, v.exponent⟩

/-- The decimal with the fewest digits that reads back. Seventeen digits always suffice. -/
def Exact.shortest (v : Exact) : Decimal :=
  if v.mantissa = 0 then ⟨0, 0⟩
  else
    match (List.range 17).findSome? fun n => v.onGrid? (v.scale - (n + 1 : Nat)) with
    | some d => d
    | none => v.decimal

end IndentMarkup.Number
