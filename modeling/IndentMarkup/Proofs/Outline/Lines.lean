import IndentMarkup.Proofs.Line.Enclosure
import IndentMarkup.Proofs.Outline.Bodies

/-!
# What lines open

A line that says something else than a text or an expression begins with one of five marks, and so
does every line of a container. An attribute begins with a word character, so a line that consists
of one is never the line of a container. Only a line of an element can make reading break off, and
then only through a value of its block.
-/
namespace IndentMarkup

namespace Directive

/-- The characters that lines begin with that are read by other rules than those of plain lines. -/
def marks : List Char := ['\\', '-', '.', '#', '%']

theorem ofTrimmed_cons {c : Char} (h : c ∉ marks) (s : List Char) :
    ofTrimmed (c :: s) = ofPlain (c :: s) := by
  simp only [marks, List.mem_cons, List.not_mem_nil, or_false, not_or] at h
  unfold ofTrimmed
  split <;> simp_all

theorem not_isWord_of_mem_marks {c : Char} (h : c ∈ marks) :
    Text.isWord c = false ∧ Text.isBlank c = false := by
  simp only [marks, List.mem_cons, List.not_mem_nil, or_false] at h
  rcases h with h | h | h | h | h <;> (rw [h]; decide)

end Directive

theorem Node.isContainer_ofSegments (segments : List Segment) :
    (ofSegments segments).isContainer = false := by
  unfold ofSegments
  split <;> rfl

theorem Opening.isContainer_ofPlain (fallbackTag : String) (line : List Char) :
    (ofDirective fallbackTag (.ofPlain line)).node.isContainer = false := by
  unfold Directive.ofPlain
  split
  · rfl
  · exact Node.isContainer_ofSegments _

namespace SimpleAttribute

theorem isWord_of_key? {s k r : List Char} (h : key? s = some (k, r)) :
    ∃ c t, s = c :: t ∧ Text.isWord c = true := by
  cases s with
  | nil => cases h
  | cons c t =>
    rw [key?] at h
    split at h
    · next hc => exact ⟨c, t, rfl, hc⟩
    · cases h

theorem isWord_of_ofLine? {text : List Char} {pair : AttributePair}
    (h : ofLine? text = some pair) :
    ∃ c t, Text.trimStart text = c :: t ∧ Text.isWord c = true := by
  unfold ofLine? at h
  rw [split] at h
  split at h
  · next hs =>
    split at hs
    · cases hs
    · next hf =>
      unfold first? at hf
      split at hf
      · cases hf
      · next hk => exact isWord_of_key? hk
  · cases h

end SimpleAttribute

theorem Opening.isContainer_of_ofLine? {line : Line} {pair : AttributePair}
    (h : SimpleAttribute.ofLine? line.text = some pair) (fallbackTag : String) :
    (ofLine fallbackTag line).node.isContainer = false := by
  obtain ⟨c, t, ht, hw⟩ := SimpleAttribute.isWord_of_ofLine? h
  unfold ofLine
  cases hl : line.text with
  | nil => exact isContainer_ofPlain fallbackTag []
  | cons d s =>
    rw [Directive.ofTrimmed_cons]
    · exact isContainer_ofPlain fallbackTag _
    · intro hd
      obtain ⟨hdw, hdb⟩ := Directive.not_isWord_of_mem_marks hd
      rw [hl, Text.trimStart_cons_of_not_blank hdb] at ht
      cases ht
      rw [hw] at hdw
      cases hdw

namespace Outline

theorem continuation?_of_container {fallbackTag : String} {line : Line}
    (h : (Opening.ofLine fallbackTag line).node.isContainer = true) (inElement : Bool) :
    continuation? inElement line.text = none := by
  cases hk : continuation? inElement line.text with
  | none => rfl
  | some pair =>
    unfold continuation? at hk
    split at hk
    · rw [Opening.isContainer_of_ofLine? hk] at h
      cases h
    · cases hk

end Outline

namespace Line

/-- The lines of a source are what stands between its line feeds, unless it is all blanks. -/
theorem exists_ofSource (source : String) : ∃ texts : List (List Char),
    ['\n'].intercalate texts = source.toList ∧ (∀ text ∈ texts, '\n' ∉ text) ∧
      ofSource source = (texts.filter fun text => !Text.isAllBlank text).map fun text =>
        ⟨(text.takeWhile Text.isBlank).length, Text.trim text⟩ :=
  ⟨Text.splitOn '\n' source.toList, Text.intercalate_splitOn '\n' source.toList,
    fun _ h => Text.not_mem_of_mem_splitOn h, rfl⟩

/-- The line of an element with a block, one of whose values is a block that holds another brace
first and has a character of several bytes in front of its last brace. -/
def CutsCharacter (line : Line) : Prop :=
  ∃ head pieces rest piece key value inner c,
    Directive.ofTrimmed line.text = .element head ∧
    AttributeBlock.pieces? head.rest.toList = some (pieces, rest) ∧ piece ∈ pieces ∧
    AttributeBlock.written? piece = some (key, value) ∧
    Text.trim value = '{' :: '{' :: (inner ++ [c, '}']) ∧
    Nesting.Balanced ('{' :: (inner ++ [c])) ∧ c.utf8Size ≠ 1

theorem breaksOff_iff {line : Line} : line.breaksOff = true ↔ line.CutsCharacter := by
  constructor
  · intro h
    unfold breaksOff at h
    split at h
    · next head hl =>
      obtain ⟨⟨pieces, rest⟩, hp, h⟩ := (Option.any_eq_true _ _).1 h
      obtain ⟨piece, hm, h⟩ := List.any_eq_true.1 h
      obtain ⟨⟨key, value⟩, hw, h⟩ := (Option.any_eq_true _ _).1 h
      obtain ⟨inner, c, ht, hb, hc⟩ := cutInsertion?_eq_none_iff.1 (Option.isNone_iff_eq_none.1 h)
      exact ⟨head, pieces, rest, piece, key, value, inner, c, hl, hp, hm, hw, ht, hb, hc⟩
    · cases h
  · rintro ⟨head, pieces, rest, piece, key, value, inner, c, hl, hp, hm, hw, ht, hb, hc⟩
    have hn : cutInsertion? value = none := cutInsertion?_eq_none_iff.2 ⟨inner, c, ht, hb, hc⟩
    unfold breaksOff
    rw [hl]
    refine (Option.any_eq_true _ _).2 ⟨_, hp, List.any_eq_true.2 ⟨piece, hm, ?_⟩⟩
    exact (Option.any_eq_true _ _).2 ⟨_, hw, Option.isNone_iff_eq_none.2 hn⟩

theorem isContainer_of_breaksOff {line : Line} (h : line.breaksOff = true)
    (fallbackTag : String) : (Opening.ofLine fallbackTag line).node.isContainer = true := by
  unfold breaksOff at h
  split at h
  · next head hl =>
    rw [Opening.ofLine, hl]
    rfl
  · cases h

end Line

namespace Outline

/-- A line at which reading breaks off opens a container, so it is never absorbed. -/
theorem push?_eq (fallbackTag : String) (o : Outline) (line : Line) :
    push? fallbackTag o line = if line.breaksOff then none else some (o.push fallbackTag line) := by
  rw [push?]
  by_cases h : line.breaksOff = true
  · have ha : (o.close line.indent).absorb? line.text = none := by
      rw [absorb?_eq, continuation?_of_container (Line.isContainer_of_breaksOff h fallbackTag)]
      rfl
    simp [h, ha]
  · simp [h]

theorem foldlM_push? (fallbackTag : String) (lines : List Line) (o : Outline) :
    lines.foldlM (push? fallbackTag) o =
      if lines.any Line.breaksOff then none else some (lines.foldl (push fallbackTag) o) := by
  induction lines generalizing o with
  | nil => rfl
  | cons line rest ih =>
    rw [List.foldlM_cons, push?_eq, List.any_cons]
    by_cases h : line.breaksOff = true
    · simp [h]
    · simp only [h, Bool.false_eq_true, if_false, Bool.false_or]
      exact ih (o.push fallbackTag line)

theorem read?_eq (fallbackTag source : String) :
    read? fallbackTag source =
      if (Line.ofSource source).any Line.breaksOff then none
      else some (read fallbackTag source) := by
  rw [read?, foldlM_push?]
  split <;> rfl

/-- A source is read unless one of its lines has the end of an insertion fall inside a character. -/
theorem read?_eq_some {fallbackTag source : String}
    (h : ∀ line ∈ Line.ofSource source, ¬ line.CutsCharacter) :
    read? fallbackTag source = some (read fallbackTag source) := by
  rw [read?_eq, if_neg]
  intro hb
  obtain ⟨line, hm, hl⟩ := List.any_eq_true.1 hb
  exact h line hm (Line.breaksOff_iff.1 hl)

theorem read?_eq_none {fallbackTag source : String}
    (h : ∃ line ∈ Line.ofSource source, line.CutsCharacter) : read? fallbackTag source = none := by
  obtain ⟨line, hm, hl⟩ := h
  rw [read?_eq, if_pos (List.any_eq_true.2 ⟨line, hm, Line.breaksOff_iff.2 hl⟩)]

/-- The character in front of the last brace of the value takes two bytes. -/
example : read? "div" "%p\x7b a: \x7b\x7b x \x7d\u00e9\x7d \x7d" = none := by
  rw [read?_eq]
  rfl

end Outline

end IndentMarkup
