import IndentMarkup.Number.Power

/-!
# Exact values of 64-bit floats

A finite 64-bit float is a sign and an exact value, a natural number times a power of two. This
module decodes a float into that form and writes such a value back, so that order, remainder and
text of floats are computed in exact integer arithmetic. Order and equality go through an integer
key of the bits: a value that is no number has no key, and the two zeros share theirs.
-/
namespace IndentMarkup.Number

/-- A finite float: `mantissa * 2 ^ exponent`, negated when `negative` holds. -/
structure Exact where
  negative : Bool
  mantissa : Nat
  exponent : Int
  deriving Repr, DecidableEq

def isNegative (x : Float) : Bool := power 2 63 ≤ x.toBits.toNat

/-- The bits below the sign, which order the values of one sign. -/
def magnitudeBits (x : Float) : Nat := x.toBits.toNat % power 2 63

/-- The magnitude bits of the infinities; everything above them is no number. -/
def infinityBits : Nat := 0x7FF * power 2 52

def isNonFinite (x : Float) : Bool := infinityBits ≤ magnitudeBits x

def isNotNumber (x : Float) : Bool := infinityBits < magnitudeBits x

/-- The exact value of a finite float; the infinities and values that are no number have none. -/
def exactValue? (x : Float) : Option Exact :=
  if isNonFinite x then none
  else
    let e : Nat := magnitudeBits x / power 2 52
    let f : Nat := magnitudeBits x % power 2 52
    if e = 0 then some ⟨isNegative x, f, -1074⟩
    else some ⟨isNegative x, power 2 52 + f, (e : Int) - 1075⟩

/-- The place of a float in the order of numbers, or nothing when it is no number. -/
def orderKey (x : Float) : Option Int :=
  if isNotNumber x then none
  else if isNegative x then some (-(magnitudeBits x : Int))
  else some (magnitudeBits x)

/-- The order of two floats; nothing when either is no number. -/
def order (x y : Float) : Option Ordering :=
  match orderKey x, orderKey y with
  | some a, some b => some (compare a b)
  | _, _ => none

/-- Numeric equality: the two zeros are equal, and what is no number equals nothing. -/
def same (x y : Float) : Bool := order x y == some .eq

/-- Whether the float is a zero of either sign. -/
def isZero (x : Float) : Bool := magnitudeBits x = 0

/-- The value of a float that has no fraction. -/
def Exact.integer? (v : Exact) : Option Int :=
  let size : Option Nat :=
    if 0 ≤ v.exponent then some (v.mantissa * power 2 v.exponent.toNat)
    else if v.mantissa % power 2 (-v.exponent).toNat = 0 then
      some (v.mantissa / power 2 (-v.exponent).toNat)
    else none
  size.map fun n => if v.negative then -(n : Int) else n

/-- The float nearest to nothing else: `mantissa * 2 ^ exponent` for a mantissa below `2 ^ 53` and
an exponent from `-1074` to `971`, which is a float exactly. -/
def ofExact (v : Exact) : Float :=
  let shift := min (52 - v.mantissa.log2) (v.exponent + 1074).toNat
  let m := v.mantissa * power 2 shift
  let e := (v.exponent - shift + 1075).toNat
  let bits :=
    if v.mantissa = 0 then 0
    else if m < power 2 52 then m
    else e * power 2 52 + (m - power 2 52)
  Float.ofBits (UInt64.ofNat (bits + if v.negative then power 2 63 else 0))

def notNumber : Float := Float.ofBits 0x7FF8000000000000

def infinity : Float := Float.ofBits 0x7FF0000000000000

/-- The remainder of the division that rounds toward zero, computed exactly. It has the sign of the
dividend. An infinite divisor leaves a finite dividend as it is; a divisor of zero, an infinite
dividend and operands that are no numbers have no remainder. -/
def remainder (x y : Float) : Float :=
  match exactValue? x with
  | none => notNumber
  | some a =>
    match exactValue? y with
    | none => if isNotNumber y then notNumber else x
    | some b =>
      if b.mantissa = 0 then notNumber
      else
        let e := min a.exponent b.exponent
        let dividend := a.mantissa * power 2 (a.exponent - e).toNat
        let divisor := b.mantissa * power 2 (b.exponent - e).toNat
        ofExact ⟨a.negative, dividend % divisor, e⟩

/-- Swapping the operands reverses the order. -/
theorem order_swap (x y : Float) : order y x = (order x y).map Ordering.swap := by
  unfold order
  cases orderKey x <;> cases orderKey y <;> simp
  next a b => exact Int.compare_swap a b |>.symm

/-- Numeric equality is symmetric. -/
theorem same_comm (x y : Float) : same x y = same y x := by
  unfold same
  rw [order_swap x y]
  cases h : order x y with
  | none => rfl
  | some o => cases o <;> rfl

end IndentMarkup.Number
