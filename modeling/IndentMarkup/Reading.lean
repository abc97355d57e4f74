/-!
# Readings

What a reader found at the start of a list of characters or tokens, together with what stands behind
it. The proof that the rest is shorter lets readers call one another without end in sight and still
come to an end.
-/
namespace IndentMarkup

/-- What was read at the start of a list, and the shorter rest behind it. -/
structure Reading {τ : Type} (α : Type) (input : List τ) where
  value : α
  rest : List τ
  shorter : rest.length < input.length

/-- What was read at the start of a list, perhaps without using any of it, and the rest behind it.
-/
structure Trailing {τ : Type} (α : Type) (input : List τ) where
  value : α
  rest : List τ
  noLonger : rest.length ≤ input.length

namespace Reading

variable {τ α β : Type} {input : List τ}

def map (f : α → β) (r : Reading α input) : Reading β input := ⟨f r.value, r.rest, r.shorter⟩

/-- A reading of a list that is no longer than another, as a reading of the other. -/
def widen {other : List τ} (h : input.length ≤ other.length) (r : Reading α input) :
    Reading α other :=
  ⟨r.value, r.rest, Nat.lt_of_lt_of_le r.shorter h⟩

/-- A value with a rest, as a reading if the rest is shorter. -/
def ofPair? (input : List τ) : Option (α × List τ) → Option (Reading α input)
  | none => none
  | some (value, rest) => if h : rest.length < input.length then some ⟨value, rest, h⟩ else none

end Reading

end IndentMarkup
