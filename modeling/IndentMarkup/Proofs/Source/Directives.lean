import IndentMarkup.Markup.Outline
import IndentMarkup.Proofs.Outline.Bodies
import IndentMarkup.Proofs.Outline.Lines
import IndentMarkup.Proofs.Source.Attributes
import IndentMarkup.Proofs.Source.Forms

/-!
# What printed lines say

The line that is printed for a node opens that node, without the children below it: nothing behind
the mark of its form is taken for something else. A line with a mark is no attribute, so only a text
has to be checked where attributes are looked for.
-/
namespace IndentMarkup

namespace Text

theorem exists_first_of_isIdentifier {s : List Char} (h : isIdentifier s = true) :
    ∃ c t, s = c :: t ∧ isBlank c = false := by
  cases s with
  | nil => cases h
  | cons c t =>
    simp only [isIdentifier, Bool.and_eq_true] at h
    refine ⟨c, t, rfl, ?_⟩
    cases hb : isBlank c with
    | false => rfl
    | true =>
      have hr := isIdentRest_of_start h.1
      rw [isIdentRest_of_isBlank hb] at hr
      cases hr

end Text

namespace LoopHead

theorem dropBlanks?_of_first {c : Char} {s t : List Char} (e : s = c :: t)
    (hc : Text.isBlank c = false) : dropBlanks? (' ' :: s) = some s := by
  rw [dropBlanks?, if_pos (by decide), e, Text.trimStart_cons_of_not_blank hc]

theorem source?_printed {source : List Char} (h : Text.OneLine source) :
    source? (' ' :: 'i' :: 'n' :: ' ' :: source) = some source := by
  obtain ⟨c, t, e, hc⟩ := h.exists_first
  have hn : ¬ (source = [] ∨ '\n' ∈ source) := by
    rintro (hs | hs)
    · exact h.ne_nil hs
    · exact h.unbroken hs
  have hi : Text.dropStart? "in".toList ('i' :: 'n' :: ' ' :: source) = some (' ' :: source) :=
    Text.dropStart?_append "in".toList (' ' :: source)
  rw [source?, dropBlanks?_of_first rfl (by decide)]
  dsimp only [Option.bind_eq_bind, Option.bind_some]
  rw [hi, Option.bind_some, dropBlanks?_of_first e hc, Option.bind_some, if_neg hn]

/-- A name behind a blank, with a character behind it that no name holds. -/
theorem splitIdentifier?_dropBlanks {name : List Char} (h : Text.isIdentifier name = true)
    {c : Char} (hc : Text.isIdentRest c = false) (rest : List Char) :
    (dropBlanks? (' ' :: (name ++ c :: rest))).bind Text.splitIdentifier? =
      some (name, c :: rest) := by
  obtain ⟨d, t, hd, hb⟩ := Text.exists_first_of_isIdentifier h
  have he : name ++ c :: rest = d :: (t ++ c :: rest) := by rw [hd, List.cons_append]
  have hr : ∀ x ∈ (c :: rest).head?, Text.isIdentRest x = false := by
    intro x hx
    cases hx
    exact hc
  rw [dropBlanks?_of_first he hb, Option.bind_some, Text.splitIdentifier?_append h hr]

theorem index?_printed {index : List Char} (h : Text.isIdentifier index = true)
    (rest : List Char) :
    index? (',' :: ' ' :: (index ++ ' ' :: rest)) = some (index, ' ' :: rest) := by
  obtain ⟨d, t, hd, hb⟩ := Text.exists_first_of_isIdentifier h
  have ht : Text.trimStart (' ' :: (index ++ ' ' :: rest)) = index ++ ' ' :: rest := by
    rw [hd]
    exact Text.trimStart_cons_of_not_blank hb
  have hm : Text.trimStart (',' :: ' ' :: (index ++ ' ' :: rest)) =
      ',' :: ' ' :: (index ++ ' ' :: rest) := Text.trimStart_cons_of_not_blank (by decide)
  rw [index?, hm]
  change Text.splitIdentifier? (Text.trimStart (' ' :: (index ++ ' ' :: rest))) = _
  rw [ht]
  apply Text.splitIdentifier?_append h
  intro c hc
  cases hc
  rfl

theorem ofText?_printed {head : LoopHead} (h : head.isNamed = true)
    (hs : Text.OneLine head.source.toList) :
    ofText? (' ' :: (head.bindings.toList ++ ' ' :: 'i' :: 'n' :: ' ' :: head.source.toList)) =
      some head := by
  obtain ⟨item, index, source⟩ := head
  simp only [isNamed, Bool.and_eq_true] at h
  have hsource := source?_printed hs
  cases index with
  | none =>
    have hname := splitIdentifier?_dropBlanks h.1 (c := ' ') (by decide)
      ('i' :: 'n' :: ' ' :: source.toList)
    have hindex : index? (' ' :: 'i' :: 'n' :: ' ' :: source.toList) = none := rfl
    obtain ⟨start, hstart, hname⟩ := Option.bind_eq_some_iff.1 hname
    simp [ofText?, bindings, hstart, hname, hindex, hsource]
  | some index =>
    have hname := splitIdentifier?_dropBlanks h.1 (c := ',') (by decide)
      (' ' :: (index.toList ++ ' ' :: 'i' :: 'n' :: ' ' :: source.toList))
    have hidentifier : Text.isIdentifier index.toList = true := h.2
    have hindex := index?_printed hidentifier ('i' :: 'n' :: ' ' :: source.toList)
    obtain ⟨start, hstart, hname⟩ := Option.bind_eq_some_iff.1 hname
    simp [ofText?, bindings, hstart, hname, hindex, hsource]

end LoopHead

namespace Attributes

theorem printed_eq (attributes : Attributes) :
    attributes.printed = [] ∨ ∃ s, attributes.printed = ' ' :: s := by
  cases attributes with
  | nil => exact Or.inl rfl
  | cons a rest => exact Or.inr ⟨_, rfl⟩

/-- Printed attributes are no block: they begin with a key. -/
theorem split?_printed {attributes : Attributes} (h : ∀ a ∈ attributes, IsKey a.1) :
    AttributeBlock.split? attributes.printed = none := by
  cases attributes with
  | nil => rfl
  | cons a rest =>
    have ht := trimStart_printed (h a List.mem_cons_self) a.2 rest
    obtain ⟨c, s, hk, hc, -⟩ := h a List.mem_cons_self
    rw [hk, List.cons_append] at ht
    have hn : c ≠ '{' := by
      rintro rfl
      cases hc
    rw [AttributeBlock.split?_eq, ht, splitBlock?]
    · rfl
    · intro t he
      cases he
      exact hn rfl

end Attributes

/-- A tag ends in front of a character that no name and no modifier holds. -/
theorem ElementHead.ofTagged?_tag {tag : String} (h : IsTag tag) {rest : List Char}
    (hr : ∀ c ∈ rest.head?, isModifierChar c = false) :
    ofTagged? (tag.toList ++ rest) = some ⟨some tag, [], none, String.ofList rest⟩ := by
  have hn : ∀ c ∈ rest.head?, Text.isName c = false := by
    intro c hc
    have hm := hr c hc
    simp only [isModifierChar, Bool.or_eq_false_iff] at hm
    exact hm.1.1
  have ht := takeWhile_append_of_head hn tag.toList
  rw [List.takeWhile_eq_self_iff.2 h.2, List.dropWhile_eq_nil_iff.2 h.2, List.nil_append] at ht
  have hm := takeWhile_append_of_head hr []
  simp only [List.nil_append, List.takeWhile_nil, List.dropWhile_nil] at hm
  rw [ofTagged?, ht.1, ht.2, if_neg h.1, hm.1, hm.2, String.ofList_toList]
  rfl

theorem ElementHead.ofTagged?_printed {tag : String} (h : IsTag tag) (attributes : Attributes) :
    ofTagged? (tag.toList ++ attributes.printed) =
      some ⟨some tag, [], none, String.ofList attributes.printed⟩ := by
  apply ofTagged?_tag h
  intro c hc
  rcases Attributes.printed_eq attributes with he | ⟨s, he⟩
  · rw [he] at hc
    cases hc
  · rw [he] at hc
    cases hc
    have hn : Text.isName ' ' = false := Text.isName_of_isBlank (by decide)
    simp [isModifierChar, hn]

theorem Segment.ofText_of_cut?_eq_none {s : List Char} (h : Insertion.cut? s = none) :
    ofText s = ofRun s := by
  rw [ofText]
  split
  · rfl
  · next hc =>
    rw [h] at hc
    cases hc

theorem inlineContent_nil : inlineContent [] = [] := by
  rw [inlineContent, Segment.ofText_of_cut?_eq_none rfl]
  · rfl
  · intro source he
    cases he

/-- The line of an element holds its tag and its attributes, and nothing else. -/
theorem OpenElement.ofHead_printed {attributes : Attributes} (h : attributes.Printable)
    (fallbackTag tag : String) :
    ofHead fallbackTag ⟨some tag, [], none, String.ofList attributes.printed⟩ =
      ⟨tag, attributes, none, []⟩ := by
  have hs := SimpleAttribute.split_printed h.key h.value
  have hb := Attributes.split?_printed h.key
  have hm : Attributes.mergeAll [] none attributes = attributes :=
    @Attributes.mergeAll_of_nodup [] attributes h.distinct
  simp only [ofHead, String.toList_ofList, hb, Option.getD_none, hs, List.nil_append,
    inlineContent_nil, Option.getD_some]
  rw [show shorthandClass? [] = none from rfl]
  simp only [headAttributes, hm, shorthandClass?, if_true]

namespace Directive

/-- A text that looks like no other line is read as text. -/
theorem ofTrimmed_text {inElement : Bool} {value : String} (h : IsPlainText inElement value)
    (hh : ∀ s, value.toList ≠ '-' :: s) :
    ofTrimmed value.toList = .text [.literal value] := by
  have hp : ofPlain value.toList = .text [.literal value] := by
    unfold ofPlain
    split
    · next r hr =>
      exfalso
      exact h.noMark ['=', ' '] (by simp) ⟨r, hr.symm⟩
    · rw [Segment.ofText_of_cut?_eq_none h.noInsertion, Segment.ofRun, if_neg h.oneLine.ne_nil,
        String.ofList_toList]
  unfold ofTrimmed
  split
  · next r hr => exact (h.noMark ['\\', '-'] (by simp) ⟨r, hr.symm⟩).elim
  · next r hr => exact (hh _ hr).elim
  · next r hr => exact (h.noMark ['.'] (by simp) ⟨r, hr.symm⟩).elim
  · next r hr => exact (h.noMark ['#'] (by simp) ⟨r, hr.symm⟩).elim
  · next r hr => exact (h.noMark ['%'] (by simp) ⟨r, hr.symm⟩).elim
  · exact hp

theorem ofTrimmed_insertion {source : List Char} (h : Text.OneLine source) :
    ofTrimmed ('=' :: ' ' :: source) = .expression (String.ofList source) := by
  have hp : ofTrimmed ('=' :: ' ' :: source) = ofPlain ('=' :: ' ' :: source) :=
    ofTrimmed_cons (by decide) (' ' :: source)
  rw [hp, ofPlain, h.trimmed]

theorem ofTrimmed_control {code : List Char} (h : Text.OneLine code) :
    ofTrimmed ('-' :: ' ' :: code) = ofControl code := by
  rw [ofTrimmed, h.trimmed]

section

variable {condition : String} (h : Text.OneLine condition.toList)
include h

theorem ofControl_ifThen :
    ofControl ("if ".toList ++ condition.toList) = .ifThen condition := by
  have hi : afterWord? "if" ("if ".toList ++ condition.toList) = some condition.toList :=
    Text.dropStart?_append "if ".toList condition.toList
  rw [ofControl, hi]
  dsimp only
  rw [h.trimmed, String.ofList_toList]

theorem ofControl_elseIf :
    ofControl ("else if ".toList ++ condition.toList) = .elseIf condition := by
  have hi : afterWord? "else if" ("else if ".toList ++ condition.toList) =
      some condition.toList := Text.dropStart?_append "else if ".toList condition.toList
  have hn : afterWord? "if" ("else if ".toList ++ condition.toList) = none := rfl
  have he : "else if ".toList ++ condition.toList ≠ "else".toList := by
    intro he
    cases he
  rw [ofControl, hn]
  dsimp only
  rw [if_neg he, hi, Option.some_or]
  dsimp only
  rw [h.trimmed, String.ofList_toList]

end

theorem ofControl_loop {head : LoopHead} (hn : head.isNamed = true)
    (hs : Text.OneLine head.source.toList) :
    ofControl ("for ".toList ++ head.bindings.toList ++ " in ".toList ++ head.source.toList) =
      .loop head := by
  let code := head.bindings.toList ++ ' ' :: 'i' :: 'n' :: ' ' :: head.source.toList
  have hc : "for ".toList ++ head.bindings.toList ++ " in ".toList ++ head.source.toList =
      'f' :: 'o' :: 'r' :: ' ' :: code := by
    simp [code]
  have hi : afterWord? "if" ('f' :: 'o' :: 'r' :: ' ' :: code) = none := rfl
  have he : 'f' :: 'o' :: 'r' :: ' ' :: code ≠ "else".toList := by
    intro he
    cases he
  have hei : afterWord? "else if" ('f' :: 'o' :: 'r' :: ' ' :: code) = none := rfl
  have hel : afterWord? "elsif" ('f' :: 'o' :: 'r' :: ' ' :: code) = none := rfl
  have hf : afterWord? "for" ('f' :: 'o' :: 'r' :: ' ' :: code) = some code :=
    Text.dropStart?_append "for ".toList code
  have hl : LoopHead.ofText? (' ' :: code) = some head := LoopHead.ofText?_printed hn hs
  rw [hc, ofControl, hi]
  dsimp only
  rw [if_neg he, hei, hel, hf]
  dsimp only [Option.or, Option.bind_some, List.drop]
  rw [hl]

end Directive

namespace Node

/-- What the line of a node says. -/
theorem ofTrimmed_line {inElement : Bool} {node : Node} (h : Printable inElement node)
    (fallbackTag : String) :
    Opening.ofDirective fallbackTag (.ofTrimmed node.line) = ⟨node.withChildren [], none⟩ := by
  cases h with
  | @element _ tag attributes _ ht ha _ =>
    have hh := ElementHead.ofTagged?_printed ht attributes
    have ho := OpenElement.ofHead_printed ha fallbackTag tag
    rw [line, Directive.ofTrimmed, hh]
    dsimp only
    rw [Opening.ofDirective, ho]
    rfl
  | text ht =>
    rw [line]
    split
    · next s hs =>
      rw [Directive.ofTrimmed, Opening.ofDirective, ← hs, String.ofList_toList]
      rfl
    · next hs =>
      rw [Directive.ofTrimmed_text ht hs]
      rfl
  | @insertion _ source raw hi =>
    have ho := oneLine_rawMark hi
    have hs : splitRaw (String.ofList (rawMark raw ++ source.toList)) = (source, raw) :=
      SimpleAttribute.splitRaw_printed hi (by rw [String.toList_ofList, ho.trimmed])
    rw [line, Directive.ofTrimmed_insertion ho, Opening.ofDirective, ofSource, hs]
    rfl
  | statement hc hs =>
    rw [line, Directive.ofTrimmed_control hc, hs]
    rfl
  | @ifThen _ condition _ hc _ =>
    have ho : Text.OneLine ("if ".toList ++ condition.toList) :=
      hc.behind (c := 'i') (s := ['f', ' ']) rfl (by decide)
    rw [line, Directive.ofTrimmed_control ho, Directive.ofControl_ifThen hc]
    rfl
  | @elseIf _ condition _ hc _ =>
    have ho : Text.OneLine ("else if ".toList ++ condition.toList) :=
      hc.behind (c := 'e') (s := "lse if ".toList) rfl (by decide)
    rw [line, Directive.ofTrimmed_control ho, Directive.ofControl_elseIf hc]
    rfl
  | otherwise _ => rfl
  | @loop _ head _ hn hs _ =>
    have hb := not_mem_bindings hn
    have ho : Text.OneLine ("for ".toList ++ head.bindings.toList ++ " in ".toList ++
        head.source.toList) := by
      have hf := hs.behind (c := 'f') (s := "or ".toList ++ head.bindings.toList ++
        " in ".toList) rfl (by simp [hb])
      simpa using hf
    rw [line, Directive.ofTrimmed_control ho, Directive.ofControl_loop hn hs]
    rfl

/-- A line that begins with a mark consists of no attribute. -/
theorem continuation?_of_mark {c : Char} (hb : Text.isBlank c = false)
    (hw : Text.isWord c = false) (inElement : Bool) (s : List Char) :
    Outline.continuation? inElement (c :: s) = none := by
  cases inElement with
  | false => rfl
  | true =>
    cases ho : SimpleAttribute.ofLine? (c :: s) with
    | none => exact ho
    | some pair =>
      exfalso
      obtain ⟨d, t, ht, hd⟩ := SimpleAttribute.isWord_of_ofLine? ho
      rw [Text.trimStart_cons_of_not_blank hb] at ht
      cases ht
      rw [hw] at hd
      cases hd

/-- The line of a node consists of no attribute that an element above it could take. -/
theorem continuation?_line {inElement : Bool} {node : Node} (h : Printable inElement node) :
    Outline.continuation? inElement node.line = none := by
  cases h with
  | text ht =>
    rw [line]
    split
    · exact continuation?_of_mark rfl rfl inElement _
    · cases inElement with
      | false => rfl
      | true => exact ht.noAttribute rfl
  | _ => exact continuation?_of_mark rfl rfl inElement _

end Node

end IndentMarkup
