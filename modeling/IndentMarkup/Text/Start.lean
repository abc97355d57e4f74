/-!
# The start of a text

Markers and keywords are recognized by what a text begins with, and what follows them is read on.
-/
namespace IndentMarkup.Text

/-- What follows the given start of a text; nothing when the text begins otherwise. -/
def dropStart? : List Char → List Char → Option (List Char)
  | [], s => some s
  | _ :: _, [] => none
  | a :: p, c :: s => if a = c then dropStart? p s else none

theorem dropStart?_eq_some_iff {p s r : List Char} : dropStart? p s = some r ↔ s = p ++ r := by
  induction p generalizing s with
  | nil => simp [dropStart?]
  | cons a p ih =>
    cases s with
    | nil => simp [dropStart?]
    | cons c s =>
      by_cases h : a = c
      · simp [dropStart?, h, ih]
      · simp [dropStart?, h, Ne.symm h]

@[simp] theorem dropStart?_append (p r : List Char) : dropStart? p (p ++ r) = some r :=
  dropStart?_eq_some_iff.2 rfl

end IndentMarkup.Text
