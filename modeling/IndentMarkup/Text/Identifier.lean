/-!
# Identifiers

An identifier is a letter, an underscore or a dollar sign, followed by any number of these and of
digits. Letters and digits are those of ASCII: the variables of a program are spelled in it.
-/
namespace IndentMarkup.Text

def isIdentStart (c : Char) : Bool := c.isAlpha || c == '_' || c == '$'

def isIdentRest (c : Char) : Bool := c.isAlphanum || c == '_' || c == '$'

def isIdentifier : List Char → Bool
  | [] => false
  | c :: s => isIdentStart c && s.all isIdentRest

/-- The longest identifier that a text begins with, and what follows it. -/
def splitIdentifier? : List Char → Option (List Char × List Char)
  | [] => none
  | c :: s =>
    if isIdentStart c then some (c :: s.takeWhile isIdentRest, s.dropWhile isIdentRest) else none

theorem isIdentRest_of_start {c : Char} (h : isIdentStart c = true) : isIdentRest c = true := by
  simp only [isIdentStart, Bool.or_eq_true, beq_iff_eq] at h
  rcases h with (h | h) | h
  · simp [isIdentRest, Char.isAlphanum, h]
  · simp [isIdentRest, h]
  · simp [isIdentRest, h]

/-- What was cut off is an identifier, and together with the rest it makes up the text. -/
theorem splitIdentifier?_spec {s name rest : List Char}
    (h : splitIdentifier? s = some (name, rest)) :
    isIdentifier name = true ∧ name ++ rest = s := by
  cases s with
  | nil => simp [splitIdentifier?] at h
  | cons c s =>
    rw [splitIdentifier?] at h
    split at h
    · next hc =>
      cases h
      refine ⟨?_, by simp⟩
      simp [isIdentifier, hc, List.all_takeWhile]
    · cases h

/-- An identifier is cut off as a whole if no character that it could go on with is behind it. -/
theorem splitIdentifier?_append {name rest : List Char} (h : isIdentifier name = true)
    (hr : ∀ c ∈ rest.head?, isIdentRest c = false) :
    splitIdentifier? (name ++ rest) = some (name, rest) := by
  cases name with
  | nil => cases h
  | cons d s =>
    simp only [isIdentifier, Bool.and_eq_true, List.all_eq_true] at h
    rw [List.cons_append, splitIdentifier?, if_pos h.1, List.takeWhile_append_of_pos h.2,
      List.dropWhile_append_of_pos h.2]
    cases rest with
    | nil => simp
    | cons c rest =>
      have hc : isIdentRest c = false := hr c rfl
      simp [hc]

end IndentMarkup.Text
