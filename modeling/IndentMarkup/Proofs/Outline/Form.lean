import IndentMarkup.Proofs.Decision.Form
import IndentMarkup.Proofs.Outline.Bodies
import IndentMarkup.Proofs.Outline.Names
import IndentMarkup.Template

/-!
# The form of templates

A line opens a sound node and adds sound attributes, and putting the nodes of a body into the node
of a container leaves both as they are. So a source is read as raw nodes at every depth, and its
template is well-formed: the back ends may rely on the shape of the decisions, on the names of the
loops and on texts that each fit on a line.
-/
namespace IndentMarkup

open Text (Unbroken)

namespace Node

/-- A node of which nothing but its texts matters to its form. -/
def isSimple : Node → Bool
  | .loop .. => false
  | .fragment _ => false
  | .decision _ => false
  | _ => true

theorem isRaw_of_isSimple {node : Node} (h : node.isSimple = true)
    (ht : ∀ t ∈ node.texts, Unbroken t) : node.IsRaw := by
  refine ⟨⟨?_, ?_, ht⟩, ?_⟩
  · rintro children rfl
    cases h
  · rintro head children rfl
    cases h
  · rintro branches rfl
    cases h

theorem unbroken_element {tag : String} {attributes : Attributes} {children : List Node} :
    (∀ t ∈ (element tag attributes children).texts, Unbroken t) ↔ attributes.Unbroken := by
  simp only [texts, List.mem_flatMap, List.mem_cons, List.not_mem_nil, or_false]
  constructor
  · exact fun h pair hm => ⟨h _ ⟨pair, hm, .inl rfl⟩, h _ ⟨pair, hm, .inr rfl⟩⟩
  · rintro h t ⟨pair, hm, rfl | rfl⟩
    · exact (h pair hm).1
    · exact (h pair hm).2

/-! ### Pieces of a text -/

section

variable {line : List Char} (h : '\n' ∉ line)
include h

theorem isRaw_ofSource {s : List Char} (hs : s ⊆ line) : (ofSource (String.ofList s)).IsRaw := by
  apply isRaw_of_isSimple rfl
  intro t ht
  rw [List.mem_singleton.1 ht]
  exact unbroken_splitRaw h hs

theorem isRaw_ofSegment {segment : Segment} (hs : segment.content.toList ⊆ line) :
    (ofSegment segment).IsRaw := by
  cases segment with
  | literal text =>
    apply isRaw_of_isSimple rfl
    intro t ht
    rw [List.mem_singleton.1 ht]
    exact fun hm => h (hs hm)
  | expr source =>
    have ho := isRaw_ofSource h hs
    rw [Segment.content, String.ofList_toList] at ho
    exact ho

theorem everywhere_map_ofSegment {segments : List Segment}
    (hs : ∀ segment ∈ segments, segment.content.toList ⊆ line) :
    Everywhere IsRaw (segments.map ofSegment) := by
  apply Everywhere.of_leaves
  intro node hm
  obtain ⟨segment, hseg, rfl⟩ := List.mem_map.1 hm
  refine ⟨isRaw_ofSegment h (hs segment hseg), ?_⟩
  cases segment <;> rfl

theorem everywhere_inlineContent {content : List Char} (hc : content ⊆ line) :
    Everywhere IsRaw (inlineContent content) := by
  unfold inlineContent
  split
  · next source =>
    split
    · exact everywhere_nil
    · apply Everywhere.of_leaves
      intro node hm
      rw [List.mem_singleton.1 hm]
      exact ⟨isRaw_ofSource h (List.subset_of_cons_subset hc), rfl⟩
  · apply everywhere_map_ofSegment h
    exact fun segment hs => List.Subset.trans (Segment.subset_of_mem_ofText hs) hc

theorem isRaw_ofSegments {segments : List Segment}
    (hs : ∀ segment ∈ segments, segment.content.toList ⊆ line) : (ofSegments segments).IsRaw := by
  unfold ofSegments
  split
  · exact isRaw_of_isSimple rfl (by decide)
  · next t => exact isRaw_ofSegment h (hs (.literal t) (List.mem_singleton_self _))
  · refine ⟨⟨?_, nofun, nofun⟩, nofun⟩
    rintro children he child hm
    cases he
    obtain ⟨segment, -, rfl⟩ := List.mem_map.1 hm
    cases segment <;> rfl

theorem everywhere_children_ofSegments {segments : List Segment}
    (hs : ∀ segment ∈ segments, segment.content.toList ⊆ line) :
    Everywhere IsRaw (ofSegments segments).children := by
  unfold ofSegments
  split
  · exact everywhere_nil
  · exact everywhere_nil
  · exact everywhere_map_ofSegment h hs

end

theorem IsRaw.withChildren {node : Node} (h : node.IsRaw) (hc : node.isContainer = true)
    (children : List Node) : (node.withChildren children).IsRaw := by
  cases node with
  | loop head nodes =>
    refine ⟨⟨nofun, ?_, h.1.unbroken⟩, nofun⟩
    intro other inner he
    cases he
    exact h.1.named head nodes rfl
  | element | ifThen | elseIf | otherwise => exact isRaw_of_isSimple rfl h.1.unbroken
  | _ => cases hc

/-- A raw node is followed by its children only. -/
theorem IsRaw.everywhere {node : Node} (h : node.IsRaw) (hc : Everywhere IsRaw node.children) :
    Everywhere IsRaw [node] := by
  apply Everywhere.singleton h
  intro body hb
  have he : body = node.children := by
    cases node with
    | element | ifThen | elseIf | otherwise | loop | fragment => exact List.mem_singleton.1 hb
    | text | insertion | statement => cases hb
    | decision branches => exact (h.2 branches rfl).elim
  rw [he]
  exact hc

end Node

theorem ElementHead.unbroken_headAttributes {head : ElementHead}
    (h : ∀ t ∈ head.texts, Unbroken t) :
    (∀ classes ∈ OpenElement.shorthandClass? head.classes, Unbroken classes) ∧
      (OpenElement.headAttributes head).Unbroken := by
  have hs : ∀ classes ∈ OpenElement.shorthandClass? head.classes, Unbroken classes := by
    intro classes hm
    unfold OpenElement.shorthandClass? at hm
    split at hm
    · cases hm
    · cases hm
      apply Unbroken.intercalate (by decide)
      exact fun t ht => h t (List.mem_cons_of_mem _ (List.mem_append_left _ ht))
  have hi : ∀ id ∈ head.id, Unbroken id := fun id hm =>
    h id (List.mem_cons_of_mem _ (List.mem_append_right _ (Option.mem_toList.2 hm)))
  have hclass : Unbroken "class" := by decide
  have hid : Unbroken "id" := by decide
  refine ⟨hs, ?_⟩
  unfold OpenElement.headAttributes
  cases hc : OpenElement.shorthandClass? head.classes with
  | none =>
    cases hh : head.id with
    | none => exact Attributes.unbroken_nil
    | some id => exact Attributes.unbroken_nil.set ⟨hid, hi id hh⟩
  | some classes =>
    have hp : AttributePair.Unbroken ("class", .literal classes) := ⟨hclass, hs classes hc⟩
    have ha := Attributes.unbroken_nil.set hp
    cases hh : head.id with
    | none => exact ha
    | some id => exact ha.set ⟨hid, hi id hh⟩

namespace Opening

/-- An opening whose node, so far, is raw at every depth. -/
structure IsRaw (o : Opening) : Prop where
  node : o.node.IsRaw
  children : Node.Everywhere Node.IsRaw o.node.children
  shorthand : ∀ classes ∈ o.shorthandClass, Unbroken classes

theorem isRaw_ofHead (fallbackTag : String) {head : ElementHead}
    (h : ∀ t ∈ head.texts, Unbroken t) : (ofDirective fallbackTag (.element head)).IsRaw := by
  obtain ⟨hs, ha⟩ := ElementHead.unbroken_headAttributes h
  have hr : '\n' ∉ head.rest.toList := h head.rest List.mem_cons_self
  have hb : (∀ pair ∈ ((AttributeBlock.split? head.rest.toList).getD ([], head.rest.toList)).1,
        pair.Unbroken) ∧
      ((AttributeBlock.split? head.rest.toList).getD ([], head.rest.toList)).2 ⊆
        head.rest.toList := by
    cases hb : AttributeBlock.split? head.rest.toList with
    | none => exact ⟨nofun, List.Subset.refl _⟩
    | some p => exact AttributeBlock.unbroken_split? hr hb
  obtain ⟨hp, hc⟩ := SimpleAttribute.unbroken_split fun hm => hr (hb.2 hm)
  constructor
  case node =>
    apply Node.isRaw_of_isSimple rfl
    apply Node.unbroken_element.2
    apply ha.mergeAll hs
    intro pair hm
    rcases List.mem_append.1 hm with hm | hm
    · exact hb.1 pair hm
    · exact hp pair hm
  case children => exact Node.everywhere_inlineContent hr (List.Subset.trans hc hb.2)
  case shorthand => exact hs

theorem isRaw_ofLine (fallbackTag : String) {line : Line} (h : '\n' ∉ line.text) :
    (ofLine fallbackTag line).IsRaw := by
  have ht : ∀ t ∈ (Directive.ofTrimmed line.text).texts, t.toList ⊆ line.text := fun t hm =>
    Directive.subset_of_mem_ofTrimmed hm
  have hu : ∀ t ∈ (Directive.ofTrimmed line.text).texts, Unbroken t := fun t hm hn =>
    h (ht t hm hn)
  unfold ofLine
  cases hd : Directive.ofTrimmed line.text with
  | literal | statement | ifThen | elseIf | otherwise =>
    rw [hd] at hu
    exact ⟨Node.isRaw_of_isSimple rfl hu, Node.everywhere_nil, nofun⟩
  | text segments =>
    have hs : ∀ segment ∈ segments, segment.content.toList ⊆ line.text := by
      intro segment hm
      apply ht
      rw [hd]
      exact List.mem_map_of_mem hm
    exact ⟨Node.isRaw_ofSegments h hs, Node.everywhere_children_ofSegments h hs, nofun⟩
  | element head =>
    rw [hd] at hu
    exact isRaw_ofHead fallbackTag hu
  | expression source =>
    have hs : source.toList ⊆ line.text := by
      apply ht
      rw [hd]
      exact List.mem_singleton_self source
    have ho := Node.isRaw_ofSource h hs
    rw [String.ofList_toList] at ho
    exact ⟨ho, Node.everywhere_nil, nofun⟩
  | loop head =>
    rw [hd] at hu
    refine ⟨⟨⟨nofun, ?_, hu⟩, nofun⟩, Node.everywhere_nil, nofun⟩
    intro other children he
    cases he
    exact Directive.isNamed_of_ofTrimmed hd

theorem IsRaw.merge {o : Opening} (h : o.IsRaw) {pair : AttributePair} (hp : pair.Unbroken) :
    (o.merge pair).IsRaw := by
  obtain ⟨node, shorthandClass⟩ := o
  cases node with
  | element tag attributes children =>
    have ha : Attributes.Unbroken attributes := Node.unbroken_element.1 h.node.1.unbroken
    have hm := ha.merge h.shorthand hp
    exact ⟨Node.isRaw_of_isSimple rfl (Node.unbroken_element.2 hm), h.children, h.shorthand⟩
  | _ => exact h

theorem IsRaw.mergeAll {o : Opening} (h : o.IsRaw) {pairs : List AttributePair}
    (hp : ∀ pair ∈ pairs, pair.Unbroken) : (o.mergeAll pairs).IsRaw := by
  unfold Opening.mergeAll
  induction pairs generalizing o with
  | nil => exact h
  | cons pair rest ih =>
    exact ih (h.merge (hp pair List.mem_cons_self))
      fun p hm => hp p (List.mem_cons_of_mem pair hm)

/-- A container with the attributes and the nodes of its body. -/
theorem IsRaw.close {o : Opening} (h : o.IsRaw) (hc : o.node.isContainer = true)
    {pairs : List AttributePair} (hp : ∀ pair ∈ pairs, pair.Unbroken) {nodes : List Node}
    (hn : Node.Everywhere Node.IsRaw nodes) : Node.Everywhere Node.IsRaw [o.close pairs nodes] := by
  have hm : (o.mergeAll pairs).node.isContainer = true := by
    rw [isContainer_mergeAll, hc]
  apply ((h.mergeAll hp).node.withChildren hm _).everywhere
  rw [Node.children_withChildren hm]
  exact h.children.append hn

end Opening

namespace Outline

/-- What the lines of a body add to its container. -/
theorem isRaw_body (fallbackTag : String) (inElement : Bool) {lines : List Line}
    (h : ∀ line ∈ lines, '\n' ∉ line.text) :
    (∀ pair ∈ (body fallbackTag inElement lines).1, pair.Unbroken) ∧
      Node.Everywhere Node.IsRaw (body fallbackTag inElement lines).2 := by
  induction inElement, lines using body.induct fallbackTag with
  | case1 inElement =>
    rw [body]
    exact ⟨fun pair hm => (List.not_mem_nil hm).elim, Node.everywhere_nil⟩
  | case2 inElement line rest pair hp ih =>
    have hr := ih fun l hm => h l (List.mem_cons_of_mem line hm)
    have hl : pair.Unbroken := by
      unfold continuation? at hp
      split at hp
      · exact SimpleAttribute.unbroken_ofLine? (h line List.mem_cons_self) hp
      · cases hp
    rw [body_of_continuation hp]
    refine ⟨?_, hr.2⟩
    intro p hm
    rcases List.mem_cons.1 hm with rfl | hm
    · exact hl
    · exact hr.1 p hm
  | case3 inElement line rest hp hc ih₁ ih₂ =>
    have hl := Opening.isRaw_ofLine fallbackTag (h line List.mem_cons_self)
    have hi := ih₁ fun l hm => h l (List.mem_cons_of_mem line (List.takeWhile_subset _ hm))
    have ha := ih₂ fun l hm => h l (List.mem_cons_of_mem line (List.dropWhile_subset _ hm))
    rw [body_of_container hp hc]
    exact ⟨ha.1, (hl.close hc hi.1 hi.2).append ha.2⟩
  | case4 inElement line rest hp hc ih =>
    have hl := Opening.isRaw_ofLine fallbackTag (h line List.mem_cons_self)
    have hr := ih fun l hm => h l (List.mem_cons_of_mem line hm)
    rw [body_of_leaf hp hc]
    exact ⟨hr.1, (hl.node.everywhere hl.children).append hr.2⟩

theorem isRaw_read (fallbackTag source : String) :
    Node.Everywhere Node.IsRaw (read fallbackTag source) := by
  have h : ∀ line ∈ Line.ofSource source, '\n' ∉ line.text := by
    intro line hm
    obtain ⟨l, hl, rfl⟩ := List.mem_map.1 hm
    have hn := Text.not_mem_of_mem_splitOn (List.mem_filter.1 hl).1
    exact fun ht => hn (Text.trim_subset l ht)
  rw [read, ofLines_eq_body]
  exact (isRaw_body fallbackTag false h).2

end Outline

/-- The template of every source is well-formed. -/
theorem Template.compile_well_formed (fallbackTag source : String) :
    Node.WellFormed (Template.compile fallbackTag source).nodes :=
  Node.wellFormed_lowered (Outline.isRaw_read fallbackTag source)

end IndentMarkup
