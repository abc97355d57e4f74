import IndentMarkup.Line.Nesting

/-!
# Insertions in text

A text may carry insertions, expressions between `{{` and `}}`. The expression is at least one
character and holds no line feed; it ends at the first `}}` behind its first character, so single
braces inside it are harmless. Blanks next to the braces do not belong to it. Between the insertions
stand the literal pieces of the text.
-/
namespace IndentMarkup

/-- A piece of a text: literal characters, or the expression of an insertion. -/
inductive Segment where
  | literal (text : String)
  | expr (source : String)
  deriving Repr, DecidableEq

namespace Insertion

def closing? : List Char → Option (List Char)
  | '}' :: '}' :: s => some s
  | _ => none

/-- Cuts a text behind its first character or later, before a line feed, where `close?` first
finds an end: the characters up to there, and what `close?` leaves. -/
def cutBody? (close? : List Char → Option (List Char)) :
    List Char → Option (List Char × List Char)
  | [] => none
  | c :: s =>
    if c = '\n' then none
    else
      match close? s with
      | some r => some ([c], r)
      | none => (cutBody? close? s).map fun p => (c :: p.1, p.2)

/-- Reads an insertion behind its opening braces: the expression and the text behind the closing
braces. When nothing but blanks stands between the braces, and they are not all line feeds, the
expression is empty. -/
def body? (s : List Char) : Option (List Char × List Char) :=
  match cutBody? (fun r => closing? (Text.trimStart r)) (Text.trimStart s) with
  | some p => some p
  | none =>
    if (s.takeWhile Text.isBlank).any (· ≠ '\n') then
      (closing? (Text.trimStart s)).map fun r => ([], r)
    else none

def atStart? : List Char → Option (List Char × List Char)
  | '{' :: '{' :: s => body? s
  | _ => none

/-- Cuts a text at its first insertion: the text before it, its expression, and the text behind it.
-/
def cut? : List Char → Option (List Char × List Char × List Char)
  | [] => none
  | c :: s =>
    match atStart? (c :: s) with
    | some (e, r) => some ([], e, r)
    | none => (cut? s).map fun p => (c :: p.1, p.2)

theorem length_closing? {s r : List Char} (h : closing? s = some r) : r.length < s.length := by
  unfold closing? at h
  split at h
  · cases h
    simp only [List.length_cons]
    omega
  · cases h

theorem length_cutBody? {close? : List Char → Option (List Char)}
    (hc : ∀ s r, close? s = some r → r.length ≤ s.length)
    {s b r : List Char} (h : cutBody? close? s = some (b, r)) : r.length < s.length := by
  induction s generalizing b with
  | nil => simp [cutBody?] at h
  | cons c s ih =>
    rw [cutBody?] at h
    split at h
    · cases h
    · split at h
      · next hr =>
        cases h
        have := hc _ _ hr
        simp; omega
      · obtain ⟨⟨b', r'⟩, hp, e⟩ := Option.map_eq_some_iff.1 h
        cases e
        have hr : r'.length < s.length := ih hp
        exact Nat.lt_succ_of_lt hr

theorem length_body? {s b r : List Char} (h : body? s = some (b, r)) : r.length ≤ s.length := by
  have ht := Text.length_trimStart_le s
  unfold body? at h
  split at h
  · next p hp =>
    cases h
    have := length_cutBody? (fun t u hu => by
      have := length_closing? hu
      have := Text.length_trimStart_le t
      omega) hp
    omega
  · split at h
    · obtain ⟨r', hr, e⟩ := Option.map_eq_some_iff.1 h
      cases e
      have := length_closing? hr
      omega
    · cases h

theorem length_atStart? {s b r : List Char} (h : atStart? s = some (b, r)) :
    r.length < s.length := by
  unfold atStart? at h
  split at h
  · have := length_body? h
    simp; omega
  · cases h

/-- What follows an insertion is shorter than the text. -/
theorem length_cut? {s b e r : List Char} (h : cut? s = some (b, e, r)) :
    r.length < s.length := by
  induction s generalizing b with
  | nil => simp [cut?] at h
  | cons c s ih =>
    rw [cut?] at h
    split at h
    · next h' =>
      cases h
      exact length_atStart? h'
    · obtain ⟨⟨b', e', r'⟩, hp, e⟩ := Option.map_eq_some_iff.1 h
      cases e
      exact Nat.lt_succ_of_lt (ih hp)

end Insertion

namespace Segment

def ofRun (s : List Char) : List Segment :=
  if s = [] then [] else [.literal (String.ofList s)]

def ofText (s : List Char) : List Segment :=
  match _h : Insertion.cut? s with
  | none => ofRun s
  | some (before, source, rest) => ofRun before ++ .expr (String.ofList source) :: ofText rest
termination_by s.length
decreasing_by exact Insertion.length_cut? _h

def isExpr : Segment → Bool
  | .literal _ => false
  | .expr _ => true

end Segment

/-- The expression of a text that is one insertion as a whole, or that it is none. The block that
its first brace opens has to end at its last character, so the expression may hold `}}` itself. The
last two bytes are cut off as the closing braces; where the cut falls inside a character, there is
no result, and reading breaks off. -/
def cutInsertion? (s : List Char) : Option (Option (List Char)) :=
  let trimmed := Text.trim s
  match trimmed with
  | '{' :: '{' :: inner =>
    match splitBlock? trimmed with
    | some (_, []) =>
      (Text.takeBytes? (Text.byteCount inner - 2) inner).map fun body =>
        let source := Text.trim body
        if source = [] then none else some source
    | _ => some none
  | _ => some none

/-- The expression of a text that is one insertion as a whole, if reading does not break off. -/
def singleInsertion? (s : List Char) : Option (List Char) := (cutInsertion? s).join

end IndentMarkup
