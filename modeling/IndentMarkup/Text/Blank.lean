/-!
# Blank characters and trimming

Blank characters are the 25 characters with the Unicode property White_Space. Indentation is
counted in them, and every line, condition, key and value is trimmed of them. The functions work
on lists of characters, by recursion on the list, so that the scanners built on them can be
reasoned about by induction.
-/
namespace IndentMarkup.Text

/-- The Unicode property White_Space. -/
def isBlank (c : Char) : Bool :=
  let n := c.toNat
  (0x09 ≤ n && n ≤ 0x0D) || n == 0x20 || n == 0x85 || n == 0xA0 || n == 0x1680 ||
    (0x2000 ≤ n && n ≤ 0x200A) || n == 0x2028 || n == 0x2029 || n == 0x202F || n == 0x205F ||
    n == 0x3000

def trimStart (s : List Char) : List Char := s.dropWhile isBlank

def trimEnd (s : List Char) : List Char := (s.reverse.dropWhile isBlank).reverse

def trim (s : List Char) : List Char := trimEnd (trimStart s)

/-- The number of leading blanks. -/
def indent (s : List Char) : Nat := (s.takeWhile isBlank).length

@[simp] theorem trimStart_nil : trimStart [] = [] := rfl

@[simp] theorem trimEnd_nil : trimEnd [] = [] := rfl

@[simp] theorem trim_nil : trim [] = [] := rfl

/-- The leading blanks and the trimmed text make up the whole text. -/
theorem takeWhile_append_trimStart (s : List Char) :
    s.takeWhile isBlank ++ trimStart s = s := List.takeWhile_append_dropWhile

theorem length_trimStart_le (s : List Char) : (trimStart s).length ≤ s.length :=
  (List.dropWhile_sublist isBlank).length_le

/-- What is left after the leading blanks does not begin with a blank. -/
theorem isBlank_of_trimStart_eq_cons {s r : List Char} {c : Char} (h : trimStart s = c :: r) :
    isBlank c = false := by
  induction s with
  | nil => simp at h
  | cons a s ih =>
    rw [trimStart, List.dropWhile_cons] at h
    split at h
    · exact ih h
    · next ha =>
      cases h
      simpa using ha

/-- A text that begins with no blank has no leading blanks to lose. -/
theorem trimStart_cons_of_not_blank {c : Char} {s : List Char} (h : isBlank c = false) :
    trimStart (c :: s) = c :: s := by
  simp [trimStart, h]

theorem trimStart_trimStart (s : List Char) : trimStart (trimStart s) = trimStart s := by
  cases h : trimStart s with
  | nil => rfl
  | cons c r => exact trimStart_cons_of_not_blank (isBlank_of_trimStart_eq_cons h)

def isAllBlank (s : List Char) : Bool := s.all isBlank

theorem trimStart_eq_nil_iff (s : List Char) : trimStart s = [] ↔ isAllBlank s = true := by
  induction s with
  | nil => simp [isAllBlank]
  | cons c s ih =>
    by_cases h : isBlank c = true
    · simp_all [trimStart, isAllBlank]
    · simp [trimStart, isAllBlank, h]

/-- The number of bytes the text takes in UTF-8, the unit of every reported offset. -/
def byteCount : List Char → Nat
  | [] => 0
  | c :: s => c.utf8Size + byteCount s

@[simp] theorem byteCount_append (s t : List Char) :
    byteCount (s ++ t) = byteCount s + byteCount t := by
  induction s with
  | nil => simp [byteCount]
  | cons c s ih => simp [byteCount, ih, Nat.add_assoc]

theorem byteCount_pos {s : List Char} (h : s ≠ []) : 0 < byteCount s := by
  cases s with
  | nil => exact (h rfl).elim
  | cons c s => exact Nat.add_pos_left c.utf8Size_pos _

/-- The characters that take the first bytes of a text. There are none if the last of these bytes
does not end a character, or if the text has fewer bytes. -/
def takeBytes? (n : Nat) : List Char → Option (List Char)
  | [] => if n = 0 then some [] else none
  | c :: s =>
    if n = 0 then some []
    else if c.utf8Size ≤ n then (takeBytes? (n - c.utf8Size) s).map (c :: ·)
    else none

theorem takeBytes?_eq_some_iff {n : Nat} {s t : List Char} :
    takeBytes? n s = some t ↔ t <+: s ∧ byteCount t = n := by
  induction s generalizing n t with
  | nil =>
    rw [takeBytes?, List.prefix_nil]
    constructor
    · intro h
      split at h
      · next hn =>
        cases h
        exact ⟨rfl, hn.symm⟩
      · cases h
    · rintro ⟨rfl, rfl⟩
      rfl
  | cons c s ih =>
    rw [takeBytes?, List.prefix_cons_iff]
    constructor
    · intro h
      split at h
      · next hn =>
        cases h
        exact ⟨.inl rfl, hn.symm⟩
      · split at h
        · next hc =>
          obtain ⟨r, hr, rfl⟩ := Option.map_eq_some_iff.1 h
          obtain ⟨hp, hb⟩ := ih.1 hr
          exact ⟨.inr ⟨r, rfl, hp⟩, by rw [byteCount, hb]; omega⟩
        · cases h
    · rintro ⟨rfl | ⟨r, rfl, hp⟩, rfl⟩
      · rfl
      · have hc := c.utf8Size_pos
        rw [byteCount, if_neg (by omega), if_pos (Nat.le_add_right _ _), Nat.add_sub_cancel_left,
          ih.2 ⟨hp, rfl⟩]
        rfl

end IndentMarkup.Text
