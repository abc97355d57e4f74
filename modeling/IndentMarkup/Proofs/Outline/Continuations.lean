import IndentMarkup.Proofs.Line.Attributes
import IndentMarkup.Proofs.Outline.Spacing
import IndentMarkup.Proofs.Source.Directives

/-!
# Attributes on lines of their own

An element line with nothing but attributes behind its head may go on with further attributes on
lines below it, each line one attribute. It makes no difference whether they stand there or on the
line of the element: the reader of the line and the stack of open containers set the same keys in
the same order, and leave the same frame for the lines that follow.
-/
namespace IndentMarkup

namespace SimpleAttribute

theorem Reads.split_self {text : List Char} {pair : AttributePair} (h : Reads text pair) :
    split text = ([pair], []) := by
  have hs := h.split_append (b := []) nofun []
  have hnil : split [] = ([], []) := by
    rw [split]
    rfl
  rwa [List.nil_append, List.append_nil, hnil] at hs

theorem Reads.ofLine?_self {text : List Char} {pair : AttributePair} (h : Reads text pair) :
    ofLine? text = some pair := by
  rw [ofLine?, h.split_self]

theorem isWord_of_split {s : List Char} (h : (split s).1 ≠ []) :
    ∃ c t, Text.trimStart s = c :: t ∧ Text.isWord c = true := by
  rw [split] at h
  split at h
  · exact (h rfl).elim
  · next hf =>
    obtain ⟨text, ht, he⟩ := exists_reads hf
    obtain ⟨c, t, rfl, hc⟩ := ht.first
    exact ⟨c, _, he, hc⟩

end SimpleAttribute

namespace AttributeBlock

theorem split?_append {s r : List Char} {pairs : List AttributePair}
    (h : split? s = some (pairs, r)) (t : List Char) :
    split? (s ++ t) = some (pairs, r ++ t) := by
  rw [split?_eq] at h
  obtain ⟨⟨b, r'⟩, hb, e⟩ := Option.map_eq_some_iff.1 h
  cases e
  cases hs : Text.trimStart s with
  | nil =>
    rw [hs] at hb
    cases hb
  | cons c u =>
    have ht : Text.trimStart (s ++ t) = c :: (u ++ t) := by
      rw [Text.trimStart_append_of_ne_nil (by simp [hs]), hs, List.cons_append]
    rw [hs] at hb
    have hc : splitBlock? (c :: (u ++ t)) = some (b, r' ++ t) := by
      unfold splitBlock? at hb ⊢
      split at hb
      · next he =>
        cases he
        exact Nesting.cutBlock?_append hb t
      · cases hb
    rw [split?_eq, ht, hc]
    rfl

theorem split?_of_isWord {s t : List Char} {c : Char} (h : Text.trimStart s = c :: t)
    (hc : Text.isWord c = true) : split? s = none := by
  rw [split?_eq, h]
  unfold splitBlock?
  split
  · next he =>
    cases he
    cases hc
  · rfl

end AttributeBlock

namespace ElementHead

/-- The attributes of the block behind a head, and what follows the block. -/
def block (head : ElementHead) : List AttributePair × List Char :=
  (AttributeBlock.split? head.rest.toList).getD ([], head.rest.toList)

def content (head : ElementHead) : List Char := (SimpleAttribute.split head.block.2).2

/-- The head in front of a line that goes on behind a space. -/
def extend (head : ElementHead) (t : List Char) : ElementHead :=
  { head with rest := String.ofList (head.rest.toList ++ ' ' :: t) }

section

variable {head : ElementHead} {t : List Char} {pair : AttributePair} (h : head.content = [])
  (ht : SimpleAttribute.Reads t pair)
include h ht

theorem block_extend : (head.extend t).block = (head.block.1, head.block.2 ++ ' ' :: t) := by
  unfold content block at h
  unfold block extend
  rw [String.toList_ofList]
  cases hb : AttributeBlock.split? head.rest.toList with
  | some p =>
    rw [AttributeBlock.split?_append hb]
    rfl
  | none =>
    -- The rest of the line now begins with an attribute, and so with no brace either.
    rw [hb, Option.getD_none] at h
    have hs : (SimpleAttribute.split (head.rest.toList ++ ' ' :: t)).1 ≠ [] := by
      rw [SimpleAttribute.split_append h, ht.split_self]
      exact List.append_ne_nil_of_right_ne_nil _ (List.cons_ne_nil pair [])
    obtain ⟨c, u, hu, hc⟩ := SimpleAttribute.isWord_of_split hs
    rw [AttributeBlock.split?_of_isWord hu hc]
    rfl

theorem split_extend :
    SimpleAttribute.split (head.extend t).block.2 =
      ((SimpleAttribute.split head.block.2).1 ++ [pair], []) := by
  rw [block_extend h ht, SimpleAttribute.split_append h, ht.split_self]

theorem content_extend : (head.extend t).content = [] := by
  rw [content, split_extend h ht]

end

/-- The element of a head by its block, the attributes behind the block and the content. -/
theorem ofHead_eq (fallbackTag : String) (head : ElementHead) :
    OpenElement.ofHead fallbackTag head =
      { tag := head.tag.getD fallbackTag
        attributes := (OpenElement.headAttributes head).mergeAll
          (OpenElement.shorthandClass? head.classes)
          (head.block.1 ++ (SimpleAttribute.split head.block.2).1)
        shorthandClass := OpenElement.shorthandClass? head.classes
        content := inlineContent head.content } := rfl

/-- An attribute at the end of the line of an element is set behind the others. -/
theorem ofHead_extend {head : ElementHead} {t : List Char} {pair : AttributePair}
    (h : head.content = []) (ht : SimpleAttribute.Reads t pair) (fallbackTag : String) :
    OpenElement.ofHead fallbackTag (head.extend t) =
      { OpenElement.ofHead fallbackTag head with
        attributes := (OpenElement.ofHead fallbackTag head).attributes.merge
          (OpenElement.shorthandClass? head.classes) pair } := by
  rw [ofHead_eq, ofHead_eq, split_extend h ht, block_extend h ht, content_extend h ht, h,
    ← List.append_assoc, Attributes.mergeAll, List.foldl_append]
  rfl

theorem ofParts_extend (tag : Option String) (run rest t : List Char) :
    (ofParts tag run rest).extend t = ofParts tag run (rest ++ ' ' :: t) := by
  rw [extend, ofParts, String.toList_ofList]
  rfl

theorem isModifierChar_of_mem_space (t : List Char) :
    ∀ c ∈ (' ' :: t).head?, isModifierChar c = false := by
  intro c hc
  cases hc
  decide

theorem ofModifiers_append (s t : List Char) :
    ofModifiers (s ++ ' ' :: t) = (ofModifiers s).extend t := by
  have hs := takeWhile_append_of_head (isModifierChar_of_mem_space t) s
  rw [ofModifiers, hs.1, hs.2, ofModifiers, ofParts_extend]

theorem ofTagged?_append {s : List Char} {head : ElementHead} (h : ofTagged? s = some head)
    (t : List Char) : ofTagged? (s ++ ' ' :: t) = some (head.extend t) := by
  have hn : ∀ c ∈ (' ' :: t).head?, Text.isName c = false := by
    intro c hc
    cases hc
    decide
  have hs := takeWhile_append_of_head hn s
  have hr := takeWhile_append_of_head (isModifierChar_of_mem_space t) (s.dropWhile Text.isName)
  unfold ofTagged? at h ⊢
  dsimp only at h ⊢
  rw [hs.1, hs.2, hr.1, hr.2]
  split at h
  · cases h
  · next hne =>
    cases h
    rw [if_neg hne, ofParts_extend]

end ElementHead

namespace Directive

theorem ofControl_ne_element (code : List Char) (head : ElementHead) :
    ofControl code ≠ .element head := by
  unfold ofControl
  repeat' split
  all_goals exact nofun

theorem ofPlain_ne_element (line : List Char) (head : ElementHead) :
    ofPlain line ≠ .element head := by
  unfold ofPlain
  split <;> exact nofun

/-- A line that is an element stays one when it goes on behind a space. -/
theorem ofTrimmed_append {line : List Char} {head : ElementHead}
    (h : ofTrimmed line = .element head) (t : List Char) :
    ofTrimmed (line ++ ' ' :: t) = .element (head.extend t) := by
  unfold ofTrimmed at h
  split at h
  · cases h
  · exact (ofControl_ne_element _ _ h).elim
  · cases h
    exact congrArg Directive.element (ElementHead.ofModifiers_append _ t)
  · cases h
    exact congrArg Directive.element (ElementHead.ofModifiers_append _ t)
  · next r =>
    split at h
    · next head hh =>
      cases h
      rw [List.cons_append, ofTrimmed, ElementHead.ofTagged?_append hh]
    · exact (ofPlain_ne_element _ _ h).elim
  · exact (ofPlain_ne_element _ _ h).elim

theorem ofLine?_eq_some {line : List Char} {directive : Directive}
    (h : ofLine? line = some directive) :
    Text.isAllBlank line = false ∧ ofTrimmed (Text.trim line) = directive := by
  unfold ofLine? at h
  dsimp only at h
  split at h
  · cases h
  · next hne =>
    rw [Text.trim_eq_nil_iff, Bool.not_eq_true] at hne
    exact ⟨hne, Option.some.inj h⟩

end Directive

namespace Line

/-- The line of an element with nothing but attributes behind its head. -/
def IsBareHead (line : Line) : Prop :=
  ∃ head, Directive.ofTrimmed line.text = .element head ∧ head.content = []

def extend (line other : Line) : Line := ⟨line.indent, line.text ++ ' ' :: other.text⟩

theorem foldl_extend (line : Line) (others : List Line) :
    others.foldl extend line =
      ⟨line.indent, line.text ++ others.flatMap fun other => ' ' :: other.text⟩ := by
  induction others generalizing line with
  | nil => rw [List.foldl_nil, List.flatMap_nil, List.append_nil]
  | cons other rest ih =>
    rw [List.foldl_cons, ih, List.flatMap_cons, extend, List.append_assoc]

theorem IsBareHead.extend {line other : Line} {pair : AttributePair} (h : line.IsBareHead)
    (ho : SimpleAttribute.Reads other.text pair) : (line.extend other).IsBareHead := by
  obtain ⟨head, hl, hc⟩ := h
  exact ⟨head.extend other.text, Directive.ofTrimmed_append hl other.text,
    ElementHead.content_extend hc ho⟩

theorem IsBareHead.isElement {line : Line} (h : line.IsBareHead) (fallbackTag : String) :
    (Opening.ofLine fallbackTag line).isElement = true := by
  obtain ⟨head, hl, -⟩ := h
  rw [Opening.ofLine, hl]
  rfl

theorem IsBareHead.opening_extend {line other : Line} {pair : AttributePair} (h : line.IsBareHead)
    (ho : SimpleAttribute.Reads other.text pair) (fallbackTag : String) :
    Opening.ofLine fallbackTag (line.extend other) =
      (Opening.ofLine fallbackTag line).merge pair := by
  obtain ⟨head, hl, hc⟩ := h
  have he := Directive.ofTrimmed_append hl other.text
  rw [Opening.ofLine, Line.extend, he, Opening.ofLine, hl, Opening.ofDirective, Opening.ofDirective,
    ElementHead.ofHead_extend hc ho]
  rfl

end Line

namespace Opening

theorem children_merge (o : Opening) (pair : AttributePair) :
    (o.merge pair).node.children = o.node.children := by
  obtain ⟨node, shorthandClass⟩ := o
  cases node <;> rfl

end Opening

namespace Outline

theorem push_of_container {fallbackTag : String} {line : Line}
    (h : (Opening.ofLine fallbackTag line).node.isContainer = true) (o : Outline) :
    push fallbackTag o line =
      ⟨.ofOpening line.indent (.ofLine fallbackTag line) :: (o.close line.indent).frames,
        (o.close line.indent).nodes⟩ := by
  rw [push_eq_push_close, push_of_floor_le fallbackTag (floor_close_le line.indent o),
    continuation?_of_container h]
  exact if_pos h

theorem push_of_continuation {fallbackTag : String} {o : Outline} {line : Line}
    {pair : AttributePair} (h : o.floor ≤ line.indent)
    (hk : continuation? o.inElement line.text = some pair) :
    push fallbackTag o line = o.extend [pair] [] := by
  rw [push_of_floor_le fallbackTag h, hk]

theorem extend_ofOpening (indent : Nat) (opening : Opening) (frames : List Frame)
    (nodes : List Node) (pair : AttributePair) :
    extend ⟨.ofOpening indent opening :: frames, nodes⟩ [pair] [] =
      ⟨.ofOpening indent (opening.merge pair) :: frames, nodes⟩ := by
  simp [extend, Frame.ofOpening, Opening.mergeAll, Opening.children_merge]

variable (fallbackTag : String)

/-- An attribute on a line below the line of an element does what it does at the end of it. -/
theorem push_extend {line other : Line} {pair : AttributePair} (h : line.IsBareHead)
    (hi : line.indent < other.indent) (ho : SimpleAttribute.Reads other.text pair) (o : Outline) :
    push fallbackTag (push fallbackTag o line) other =
      push fallbackTag o (line.extend other) := by
  have he : (Opening.ofLine fallbackTag line).isElement = true := h.isElement fallbackTag
  have hx := (h.extend ho).isElement fallbackTag
  rw [push_of_container (Opening.isContainer_of_isElement he),
    push_of_container (Opening.isContainer_of_isElement hx), h.opening_extend ho]
  generalize Opening.ofLine fallbackTag line = opening at he ⊢
  have hk : continuation? opening.isElement other.text = some pair := by
    rw [he]
    exact ho.ofLine?_self
  let opened : Outline := ⟨.ofOpening line.indent opening :: (o.close line.indent).frames,
    (o.close line.indent).nodes⟩
  have hp : push fallbackTag opened other = opened.extend [pair] [] := push_of_continuation hi hk
  rw [hp]
  exact extend_ofOpening line.indent opening _ _ pair

theorem foldl_push_extend {line : Line} {others : List Line} (h : line.IsBareHead)
    (ho : ∀ other ∈ others, line.indent < other.indent ∧
      ∃ pair, SimpleAttribute.Reads other.text pair) (o : Outline) :
    others.foldl (push fallbackTag) (push fallbackTag o line) =
      push fallbackTag o (others.foldl Line.extend line) := by
  induction others generalizing line with
  | nil => rfl
  | cons other rest ih =>
    obtain ⟨hi, pair, hr⟩ := ho other List.mem_cons_self
    rw [List.foldl_cons, List.foldl_cons, push_extend fallbackTag h hi hr]
    exact ih (h.extend hr) fun l hm => ho l (List.mem_cons_of_mem other hm)

end Outline

/-! ### Sources -/

namespace Line

/-- A line with the texts of the lines below it that are not all blanks, each behind a space. -/
def gathered (head : List Char) (lines : List (List Char)) : List Char :=
  head.takeWhile Text.isBlank ++
    (Text.trim head ++ (filled lines).flatMap fun l => ' ' :: Text.trim l)

theorem oneLine_append_space {s t : List Char} (hs : Text.OneLine s) (ht : Text.OneLine t) :
    Text.OneLine (s ++ ' ' :: t) := by
  obtain ⟨c, u, rfl, hc⟩ := hs.exists_first
  have hn : '\n' ∉ c :: (u ++ [' ']) := by
    have hu := hs.unbroken
    simp_all
  have hb := ht.behind hc hn
  rwa [List.append_assoc, List.singleton_append] at hb

theorem oneLine_append_texts {s : List Char} (hs : Text.OneLine s) {texts : List (List Char)}
    (ht : ∀ t ∈ texts, Text.OneLine t) :
    Text.OneLine (s ++ texts.flatMap fun t => ' ' :: t) := by
  induction texts generalizing s with
  | nil => simpa using hs
  | cons t rest ih =>
    have hst := oneLine_append_space hs (ht t List.mem_cons_self)
    have hr := ih hst fun u hm => ht u (List.mem_cons_of_mem t hm)
    rwa [List.append_assoc] at hr

theorem isAllBlank_of_mem_filled {l : List Char} {lines : List (List Char)} (h : l ∈ filled lines) :
    Text.isAllBlank l = false := by
  simpa using (List.mem_filter.1 h).2

section

variable {line : List Char} {lines : List (List Char)} (hb : Text.isAllBlank line = false)
  (hn : '\n' ∉ line) (hl : ∀ l ∈ lines, '\n' ∉ l)
include hb hn hl

theorem oneLine_gathered :
    Text.OneLine (Text.trim line ++ (filled lines).flatMap fun l => ' ' :: Text.trim l) := by
  have ht : ∀ t ∈ (filled lines).map Text.trim, Text.OneLine t := by
    intro t ht
    obtain ⟨l, hf, rfl⟩ := List.mem_map.1 ht
    exact Text.oneLine_trim (isAllBlank_of_mem_filled hf) (hl l (List.mem_filter.1 hf).1)
  have ho := oneLine_append_texts (Text.oneLine_trim hb hn) ht
  rwa [List.flatMap_map] at ho

theorem filled_gathered (after : List (List Char)) :
    filled (gathered line lines :: after) = gathered line lines :: filled after := by
  rw [filled, List.filter_cons, gathered, isAllBlank_append (oneLine_gathered hb hn hl)]
  rfl

/-- The gathered line has the texts of all lines one behind the other. -/
theorem ofText_gathered :
    ofText (gathered line lines) = ((filled lines).map ofText).foldl extend (ofText line) := by
  have hm : ∀ c ∈ line.takeWhile Text.isBlank, Text.isBlank c = true := fun c hc =>
    List.mem_takeWhile_imp hc
  rw [gathered, ofText_append hm (oneLine_gathered hb hn hl), foldl_extend, List.flatMap_map]
  rfl

theorem not_mem_gathered : '\n' ∉ gathered line lines := by
  rw [gathered, List.mem_append]
  exact not_or.2 ⟨fun hm => hn (List.takeWhile_subset _ hm), (oneLine_gathered hb hn hl).unbroken⟩

end

end Line

namespace Outline

/-- An element line with nothing but attributes behind its head can be followed by any number of
further attributes, on lines of their own that are indented deeper, with blank lines among them. It
reads like the line with these attributes at its end, whatever stands before and behind it. -/
theorem read_continuations (fallbackTag : String) {before lines after : List (List Char)}
    {line : List Char} {head : ElementHead}
    (hn : ∀ l ∈ before ++ line :: (lines ++ after), '\n' ∉ l)
    (hh : Directive.ofLine? line = some (.element head)) (hc : head.content = [])
    (hl : ∀ l ∈ lines, Text.isAllBlank l = true ∨
      (Text.indent line < Text.indent l ∧ (SimpleAttribute.ofLine? l).isSome = true)) :
    read fallbackTag (Line.joined (before ++ line :: (lines ++ after))) =
      read fallbackTag (Line.joined (before ++ Line.gathered line lines :: after)) := by
  have hline : '\n' ∉ line := hn line (by simp)
  have hlines : ∀ l ∈ lines, '\n' ∉ l := fun l hm => hn l (by simp [hm])
  obtain ⟨hb, ht⟩ := Directive.ofLine?_eq_some hh
  have hg : ∀ l ∈ before ++ Line.gathered line lines :: after, '\n' ∉ l := by
    intro l hm
    rcases List.mem_append.1 hm with hm | hm
    · exact hn l (by simp [hm])
    rcases List.mem_cons.1 hm with rfl | hm
    · exact Line.not_mem_gathered hb hline hlines
    · exact hn l (by simp [hm])
  -- Up to the line of the element, and behind the last of the lines below it, the lines are the same.
  have hhead : (Line.ofText line).IsBareHead := ⟨head, ht, hc⟩
  have hothers : ∀ other ∈ (Line.filled lines).map Line.ofText,
      (Line.ofText line).indent < other.indent ∧
        ∃ pair, SimpleAttribute.Reads other.text pair := by
    intro other hm
    obtain ⟨l, hf, rfl⟩ := List.mem_map.1 hm
    rcases hl l (List.mem_filter.1 hf).1 with hblank | ⟨hi, hp⟩
    · rw [Line.isAllBlank_of_mem_filled hf] at hblank
      cases hblank
    · obtain ⟨pair, hp⟩ := Option.isSome_iff_exists.1 hp
      exact ⟨hi, pair, SimpleAttribute.reads_of_ofLine? hp⟩
  have hf : Line.filled (before ++ line :: (lines ++ after)) =
      Line.filled before ++ line :: (Line.filled lines ++ Line.filled after) := by
    simp [Line.filled, hb]
  have hfg : Line.filled (before ++ Line.gathered line lines :: after) =
      Line.filled before ++ Line.gathered line lines :: Line.filled after := by
    rw [← Line.filled_gathered hb hline hlines]
    exact List.filter_append _ _
  rw [read, read, Line.ofSource_joined hn, Line.ofSource_joined hg, hf, hfg, ofLines, ofLines]
  simp only [List.map_append, List.map_cons, List.foldl_append, List.foldl_cons]
  rw [foldl_push_extend fallbackTag hhead hothers, Line.ofText_gathered hb hline hlines]

/-- A block, classes and attributes behind the head, and two lines with an attribute each. -/
theorem read_continuations_link :
    read "div" (Line.joined (["%p".toList] ++
        "  %a.btn\x7b href: \"/x\" \x7d id=\"b\"".toList ::
          (["    title='t'".toList, " ".toList, "\t\t\t class=\x7b\x7b c \x7d\x7d\r".toList] ++
            ["    text".toList]))) =
      read "div" (Line.joined (["%p".toList] ++
        "  %a.btn\x7b href: \"/x\" \x7d id=\"b\" title='t' class=\x7b\x7b c \x7d\x7d".toList ::
          ["    text".toList])) := by
  have hh : Directive.ofLine? "  %a.btn\x7b href: \"/x\" \x7d id=\"b\"".toList =
      some (.element ⟨some "a", ["btn"], none, "\x7b href: \"/x\" \x7d id=\"b\""⟩) := by rfl
  have hc : ElementHead.content
      ⟨some "a", ["btn"], none, "\x7b href: \"/x\" \x7d id=\"b\""⟩ = [] := by decide +kernel
  have htitle : (SimpleAttribute.ofLine? "    title='t'".toList).isSome = true := by decide +kernel
  have hclass : (SimpleAttribute.ofLine?
      "\t\t\t class=\x7b\x7b c \x7d\x7d\r".toList).isSome = true := by decide +kernel
  have hl : ∀ l ∈ ["    title='t'".toList, " ".toList,
      "\t\t\t class=\x7b\x7b c \x7d\x7d\r".toList], Text.isAllBlank l = true ∨
      (Text.indent "  %a.btn\x7b href: \"/x\" \x7d id=\"b\"".toList < Text.indent l ∧
        (SimpleAttribute.ofLine? l).isSome = true) := by
    intro l hm
    simp only [List.mem_cons, List.not_mem_nil, or_false] at hm
    rcases hm with rfl | rfl | rfl
    · exact .inr ⟨by decide, htitle⟩
    · exact .inl (by decide)
    · exact .inr ⟨by decide, hclass⟩
  have hg : Line.gathered "  %a.btn\x7b href: \"/x\" \x7d id=\"b\"".toList
      ["    title='t'".toList, " ".toList, "\t\t\t class=\x7b\x7b c \x7d\x7d\r".toList] =
      "  %a.btn\x7b href: \"/x\" \x7d id=\"b\" title='t' class=\x7b\x7b c \x7d\x7d".toList := by
    rfl
  rw [← hg]
  apply read_continuations "div" _ hh hc hl
  decide

end Outline

end IndentMarkup
