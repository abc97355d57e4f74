import IndentMarkup.Text.Blank

/-!
# Brace nesting

An attribute block may hold values with braces of their own, and spans between backticks inside
which braces do not count. Finding the end of a block, splitting it at its commas and cutting a pair
at its separator all read the text through the same state, `Nesting`, so that they agree on which
characters stand at the top level.
-/
namespace IndentMarkup

/-- How deep inside braces a scan is, and whether it is between backticks. The depth stands for a
32-bit integer; `Nesting.depth_run_bounds` says how long a text has to be to leave its range. -/
structure Nesting where
  depth : Int
  quoted : Bool
  deriving Repr, DecidableEq

namespace Nesting

def start : Nesting := ⟨0, false⟩

/-- The state after one more character. A backtick opens or closes a span, and a brace counts
outside of spans only. -/
def step (n : Nesting) (c : Char) : Nesting :=
  if c = '\x60' then ⟨n.depth, !n.quoted⟩
  else if n.quoted then n
  else if c = '{' then ⟨n.depth + 1, n.quoted⟩
  else if c = '}' then ⟨n.depth - 1, n.quoted⟩
  else n

/-- Outside all braces and backticks. -/
def atTop (n : Nesting) : Bool := n.depth == 0 && !n.quoted

def run (n : Nesting) (s : List Char) : Nesting := s.foldl step n

def trace (n : Nesting) : List Char → List Nesting
  | [] => []
  | c :: s => n.step c :: trace (n.step c) s

/-- Cuts a text behind the first closing brace that leads to the top level. -/
def cutBlock? (n : Nesting) : List Char → Option (List Char × List Char)
  | [] => none
  | c :: s =>
    if c = '}' ∧ (n.step c).atTop then some ([c], s)
    else (cutBlock? (n.step c) s).map fun p => (c :: p.1, p.2)

/-- Cuts a text at the first character of a kind that stands at the top level: the text before it,
the character, and the text behind it. -/
def cutAt? (isMark : Char → Bool) (n : Nesting) :
    List Char → Option (List Char × Char × List Char)
  | [] => none
  | c :: s =>
    if isMark c ∧ (n.step c).atTop then some ([], c, s)
    else (cutAt? isMark (n.step c) s).map fun p => (c :: p.1, p.2)

/-- The pieces of a text between the separators at its top level, as they stand. -/
def pieces (separator : Char) (n : Nesting) : List Char → List (List Char)
  | [] => [[]]
  | c :: s =>
    if c = separator ∧ (n.step c).atTop then [] :: pieces separator (n.step c) s
    else
      match pieces separator (n.step c) s with
      | [] => [[c]]
      | p :: ps => (c :: p) :: ps

@[simp] theorem run_nil (n : Nesting) : n.run [] = n := rfl

@[simp] theorem run_cons (n : Nesting) (c : Char) (s : List Char) :
    n.run (c :: s) = (n.step c).run s := rfl

/-- A cut block and its rest make up the text. -/
theorem append_of_cutBlock? {n : Nesting} {s b r : List Char} (h : n.cutBlock? s = some (b, r)) :
    b ++ r = s := by
  induction s generalizing n b with
  | nil => simp [cutBlock?] at h
  | cons c s ih =>
    rw [cutBlock?] at h
    split at h
    · cases h; rfl
    · obtain ⟨⟨b', r'⟩, hp, e⟩ := Option.map_eq_some_iff.1 h
      cases e
      simp [ih hp]

/-- What a cut leaves and drops makes up the text. -/
theorem append_of_cutAt? {isMark : Char → Bool} {n : Nesting} {s b r : List Char} {c : Char}
    (h : n.cutAt? isMark s = some (b, c, r)) : b ++ c :: r = s := by
  induction s generalizing n b with
  | nil => simp [cutAt?] at h
  | cons d s ih =>
    rw [cutAt?] at h
    split at h
    · cases h; rfl
    · obtain ⟨⟨b', c', r'⟩, hp, e⟩ := Option.map_eq_some_iff.1 h
      cases e
      simp [ih hp]

/-- A text has at least one piece. -/
theorem pieces_ne_nil (separator : Char) (n : Nesting) (s : List Char) :
    n.pieces separator s ≠ [] := by
  cases s with
  | nil => simp [pieces]
  | cons c s =>
    rw [pieces]
    split
    · simp
    · split <;> simp

/-- The pieces with separators between them make up the text. -/
theorem intercalate_pieces (separator : Char) (n : Nesting) (s : List Char) :
    List.intercalate [separator] (n.pieces separator s) = s := by
  induction s generalizing n with
  | nil => simp [pieces, List.intercalate]
  | cons c s ih =>
    have ih' := ih (n.step c)
    rw [pieces]
    split
    · next h =>
      obtain ⟨rfl, _⟩ := h
      cases hp : pieces c (n.step c) s with
      | nil => exact absurd hp (pieces_ne_nil _ _ _)
      | cons p ps =>
        rw [hp] at ih'
        simpa [List.intercalate] using ih'
    · split
      · next hp => exact absurd hp (pieces_ne_nil _ _ _)
      · next p ps hp =>
        rw [hp] at ih'
        cases ps <;> simp_all [List.intercalate]

end Nesting

/-- The block that a text begins with, up to and including the brace that closes it, and what
follows the block. A text that does not begin with an opening brace has no block. -/
def splitBlock? (s : List Char) : Option (List Char × List Char) :=
  match s with
  | '{' :: _ => Nesting.start.cutBlock? s
  | _ => none

def blockEnd? (s : List Char) : Option Nat :=
  (splitBlock? s).map fun p => Text.byteCount p.1 - 1

def topLevelOffset? (isMark : Char → Bool) (s : List Char) : Option Nat :=
  (Nesting.start.cutAt? isMark s).map fun p => Text.byteCount p.1

/-- The trimmed pieces of a text between its separators at the top level. A last piece of blanks
only is dropped. -/
def splitTopLevel (separator : Char) (s : List Char) : List (List Char) :=
  let pieces := (Nesting.start.pieces separator s).map Text.trim
  if pieces.getLast? = some [] then pieces.dropLast else pieces

end IndentMarkup
