/-!
# Powers

Powers of natural numbers. Floats are taken apart and put together with powers of two, and written
with powers of ten.
-/
namespace IndentMarkup.Number

def power (base exponent : Nat) : Nat := Nat.pow base exponent

end IndentMarkup.Number
