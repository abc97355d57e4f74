import IndentMarkup.Proofs.Source.Attributes

/-!
# Printed lines

Every line that is printed for a node is one trimmed line: it begins with the mark of its form, and
ends as the text, the expression or the attribute does that stands at its end.
-/
namespace IndentMarkup

namespace Text

theorem oneLine_of_ends {c d : Char} {s t : List Char} (e : c :: s = t ++ [d])
    (hc : isBlank c = false) (hd : isBlank d = false) (hn : '\n' ∉ c :: s) : OneLine (c :: s) :=
  ⟨by simp, trim_of_ends e hc hd, hn⟩

theorem not_mem_of_isName {s : List Char} (h : ∀ c ∈ s, isName c = true) : '\n' ∉ s := by
  intro hm
  have hn := h '\n' hm
  rw [isName_of_isBlank (by decide)] at hn
  cases hn

theorem not_mem_of_isIdentifier {s : List Char} (h : isIdentifier s = true) : '\n' ∉ s := by
  intro hm
  cases s with
  | nil => cases hm
  | cons c s =>
    simp only [isIdentifier, Bool.and_eq_true, List.all_eq_true] at h
    rcases List.mem_cons.1 hm with rfl | hm
    · exact absurd h.1 (by decide)
    · exact absurd (h.2 '\n' hm) (by decide)

end Text

namespace AttrValue

theorem not_mem_printed {value : AttrValue} (h : value.Printable) : '\n' ∉ value.printed := by
  cases value with
  | literal text =>
    have := h.2
    simp_all [printed]
  | expr source raw =>
    have hs := h.1.1.unbroken
    have hr := not_mem_rawMark raw
    simp_all [printed]

/-- A printed value ends with a quote or a brace. -/
theorem printed_last (value : AttrValue) :
    ∃ t c, value.printed = t ++ [c] ∧ Text.isBlank c = false := by
  cases value with
  | literal text => exact ⟨'"' :: text.toList, '"', rfl, rfl⟩
  | expr source raw =>
    refine ⟨'{' :: '{' :: ' ' :: (rawMark raw ++ source.toList ++ [' ', '}']), '}', ?_, rfl⟩
    simp [printed]

end AttrValue

namespace Attributes

theorem not_mem_printed {attributes : Attributes} (h : attributes.Printable) :
    '\n' ∉ attributes.printed := by
  intro hm
  obtain ⟨a, ha, hm⟩ := List.mem_flatMap.1 hm
  obtain ⟨c, s, hk, hc, hs⟩ := h.key a ha
  have hv := AttrValue.not_mem_printed (h.value a ha)
  have hn : '\n' ∉ a.1.toList := by
    rw [hk]
    refine Text.not_mem_of_isName fun d hd => ?_
    rcases List.mem_cons.1 hd with rfl | hd
    · simp [Text.isName, hc]
    · exact hs d hd
  simp_all

theorem printed_last {attributes : Attributes} (hne : attributes ≠ []) :
    ∃ t c, attributes.printed = t ++ [c] ∧ Text.isBlank c = false := by
  obtain ⟨before, a, rfl⟩ := (List.eq_nil_or_concat' attributes).resolve_left hne
  obtain ⟨t, c, he, hc⟩ := AttrValue.printed_last a.2
  refine ⟨printed before ++ ' ' :: (a.1.toList ++ '=' :: t), c, ?_, hc⟩
  simp [printed, he]

end Attributes

namespace Node

theorem oneLine_element {tag : String} {attributes : Attributes} (ht : IsTag tag)
    (ha : attributes.Printable) : Text.OneLine ('%' :: (tag.toList ++ attributes.printed)) := by
  have hn : '\n' ∉ '%' :: (tag.toList ++ attributes.printed) := by
    have h₁ := Text.not_mem_of_isName ht.2
    have h₂ := Attributes.not_mem_printed ha
    simp_all
  by_cases he : attributes = []
  · obtain ⟨before, c, hc⟩ := (List.eq_nil_or_concat' tag.toList).resolve_left ht.1
    have hb : Text.isBlank c = false := Text.isBlank_of_isName (ht.2 c (by simp [hc]))
    refine Text.oneLine_of_ends (t := '%' :: before) ?_ rfl hb hn
    simp [he, hc, Attributes.printed]
  · obtain ⟨t, c, hp, hb⟩ := Attributes.printed_last he
    refine Text.oneLine_of_ends (t := '%' :: (tag.toList ++ t)) ?_ rfl hb hn
    simp [hp]

theorem oneLine_inserted {source : String} {raw : Bool} (h : IsInserted source raw) :
    Text.OneLine (line (.insertion source raw)) :=
  (oneLine_rawMark h).behind (c := '=') (s := [' ']) rfl (by decide)

theorem oneLine_text {inElement : Bool} {value : String} (h : IsPlainText inElement value) :
    Text.OneLine (line (.text value)) := by
  rw [line]
  split
  · next s hs =>
    have hv := h.oneLine
    rw [hs] at hv
    exact hv.behind (c := '\\') (s := []) rfl (by decide)
  · exact h.oneLine

theorem oneLine_control {s t : List Char} (h : Text.OneLine t) (hs : '\n' ∉ s) :
    Text.OneLine ('-' :: ' ' :: (s ++ t)) :=
  h.behind (c := '-') (s := ' ' :: s) rfl (by simp_all)

theorem not_mem_bindings {head : LoopHead} (h : head.isNamed = true) :
    '\n' ∉ head.bindings.toList := by
  obtain ⟨item, index, source⟩ := head
  simp only [LoopHead.isNamed, Bool.and_eq_true] at h
  have hi := Text.not_mem_of_isIdentifier h.1
  cases index with
  | none => exact hi
  | some index =>
    have hx := Text.not_mem_of_isIdentifier (s := index.toList) h.2
    simp_all [LoopHead.bindings]

theorem oneLine_line {inElement : Bool} {node : Node} (h : Printable inElement node) :
    Text.OneLine node.line := by
  cases h with
  | element ht ha _ => exact oneLine_element ht ha
  | text ht => exact oneLine_text ht
  | insertion hi => exact oneLine_inserted hi
  | statement hc _ => exact oneLine_control (s := []) hc (by decide)
  | ifThen hc _ => exact oneLine_control hc (by decide)
  | elseIf hc _ => exact oneLine_control hc (by decide)
  | otherwise _ =>
    have ho : Text.OneLine ('-' :: ' ' :: "else".toList) := ⟨by decide, by decide, by decide⟩
    exact ho
  | loop hn hs _ =>
    have hb := not_mem_bindings hn
    exact oneLine_control hs (by simp_all)

end Node

end IndentMarkup
