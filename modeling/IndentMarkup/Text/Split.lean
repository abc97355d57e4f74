/-!
# Splitting at a separator

A text is split into the pieces between the places of a separator: one more than there are places,
none of them holding it. The text before a place and the text behind it are split independently.
-/
namespace IndentMarkup.Text

/-- The pieces of a text between the places of a separator. -/
def splitOn (separator : Char) : List Char → List (List Char)
  | [] => [[]]
  | c :: s =>
    if c = separator then [] :: splitOn separator s
    else
      match splitOn separator s with
      | [] => [[c]]
      | piece :: pieces => (c :: piece) :: pieces

theorem splitOn_ne_nil (separator : Char) (s : List Char) : splitOn separator s ≠ [] := by
  cases s with
  | nil => simp [splitOn]
  | cons c s =>
    rw [splitOn]
    split
    · simp
    · split <;> simp

/-- No piece holds the separator. -/
theorem not_mem_of_mem_splitOn {separator : Char} {s piece : List Char}
    (h : piece ∈ splitOn separator s) : separator ∉ piece := by
  induction s generalizing piece with
  | nil => simp_all [splitOn]
  | cons c s ih =>
    rw [splitOn] at h
    split at h
    · rcases List.mem_cons.1 h with rfl | h
      · simp
      · exact ih h
    · next hc =>
      split at h
      · next hs => exact absurd hs (splitOn_ne_nil separator s)
      · next first pieces hs =>
        rw [hs] at ih
        rcases List.mem_cons.1 h with rfl | h
        · have hp : separator ∉ first := ih (by simp)
          simp [hp, Ne.symm hc]
        · exact ih (List.mem_cons_of_mem _ h)

/-- A separator between two texts separates their pieces. -/
theorem splitOn_append_cons (separator : Char) (s t : List Char) :
    splitOn separator (s ++ separator :: t) = splitOn separator s ++ splitOn separator t := by
  induction s with
  | nil => simp [splitOn]
  | cons c s ih =>
    rw [List.cons_append, splitOn, splitOn, ih]
    split
    · rfl
    · cases hs : splitOn separator s with
      | nil => exact absurd hs (splitOn_ne_nil separator s)
      | cons piece pieces => simp

/-- The pieces with separators between them make up the text. -/
theorem intercalate_splitOn (separator : Char) (s : List Char) :
    [separator].intercalate (splitOn separator s) = s := by
  induction s with
  | nil => rfl
  | cons c s ih =>
    rw [splitOn]
    cases hs : splitOn separator s with
    | nil => exact absurd hs (splitOn_ne_nil separator s)
    | cons piece pieces =>
      rw [hs] at ih
      split
      · next hc => simpa [List.intercalate, hc] using ih
      · cases pieces <;> simp_all [List.intercalate]

/-- A text without the separator is its own only piece. -/
theorem splitOn_of_not_mem {separator : Char} {s : List Char} (h : separator ∉ s) :
    splitOn separator s = [s] := by
  induction s with
  | nil => rfl
  | cons c s ih =>
    have hc : c ≠ separator := fun e => h (by simp [e])
    have hs : separator ∉ s := fun m => h (List.mem_cons_of_mem _ m)
    simp [splitOn, hc, ih hs]

end IndentMarkup.Text

namespace IndentMarkup

/-- What stands behind a list does not move the place where a test first fails, if the test fails
where it begins. -/
theorem takeWhile_append_of_head {α : Type} {p : α → Bool} {t : List α}
    (h : ∀ x ∈ t.head?, p x = false) (s : List α) :
    (s ++ t).takeWhile p = s.takeWhile p ∧ (s ++ t).dropWhile p = s.dropWhile p ++ t := by
  induction s with
  | nil =>
    cases t with
    | nil => exact ⟨rfl, rfl⟩
    | cons x t =>
      have hx : p x = false := h x rfl
      simp [hx]
  | cons y s ih =>
    by_cases hy : p y = true
    · simp [hy, ih.1, ih.2]
    · simp [hy]

end IndentMarkup
