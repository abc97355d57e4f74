import IndentMarkup.Proofs.Attribute.Joining
import IndentMarkup.Proofs.Decision.Levels
import IndentMarkup.Proofs.Outline.Continuations
import IndentMarkup.Proofs.Outline.Forest
import Mathlib.Data.List.Nodup

/-!
# The attributes of an element as one sequence of definitions

The attributes of an element are defined in four places: in the head, in the block behind it, one by
one on the same line, and on lines below, which are read when the element is already on the stack.
Together they are one sequence of definitions, and all that counts is the first and the last of a
key: the first one gives the place of the key, and the last one its value. Only a class behind the
classes of a head is joined to them, and again only the last one.
-/
namespace IndentMarkup

namespace Keyed

variable {α : Type}

/-- What the last entry with a key holds. -/
def last? (entries : Keyed α) (key : String) : Option α := get? entries.reverse key

theorem get?_append (entries others : Keyed α) (key : String) :
    get? (entries ++ others) key = (get? entries key).or (get? others key) := by
  induction entries with
  | nil => rfl
  | cons e rest ih =>
    rw [List.cons_append, get?_cons, get?_cons, ih]
    split <;> rfl

theorem last?_append (entries others : Keyed α) (key : String) :
    last? (entries ++ others) key = (last? others key).or (last? entries key) := by
  rw [last?, List.reverse_append, get?_append]
  rfl

theorem last?_singleton (e : String × α) (key : String) :
    last? [e] key = if e.1 = key then some e.2 else none := rfl

theorem get?_map (f : String → α → α) (entries : Keyed α) (key : String) :
    get? (entries.map fun e => (e.1, f e.1 e.2)) key = (get? entries key).map (f key) := by
  induction entries with
  | nil => rfl
  | cons e rest ih =>
    rw [List.map_cons, get?_cons, get?_cons, ih]
    split
    · next h => rw [← h, Option.map_some]
    · rfl

theorem last?_map (f : String → α → α) (entries : Keyed α) (key : String) :
    last? (entries.map fun e => (e.1, f e.1 e.2)) key = (last? entries key).map (f key) := by
  rw [last?, ← List.map_reverse, get?_map]
  rfl

end Keyed

namespace Attributes

open Keyed

theorem ofPairs_concat (pairs : List AttributePair) (pair : AttributePair) :
    ofPairs (pairs ++ [pair]) = (ofPairs pairs).set pair.1 pair.2 := by
  rw [ofPairs, List.foldl_append]
  rfl

/-- Keys stand in the order in which they occur first. -/
theorem keys_ofPairs (pairs : List AttributePair) :
    (ofPairs pairs).map Prod.fst = (pairs.map Prod.fst).eraseDups := by
  induction pairs using List.reverseRecOn with
  | nil => rfl
  | append_singleton pairs pair ih =>
    rw [ofPairs_concat, keys_set, ih, List.map_append, List.map_singleton, List.eraseDups_append]
    by_cases h : pair.1 ∈ pairs.map Prod.fst
    · simp [List.removeAll, h]
    · simp [List.removeAll, h, List.eraseDups_cons]

theorem nodup_keys_ofPairs (pairs : List AttributePair) :
    ((ofPairs pairs).map Prod.fst).Nodup := by
  induction pairs using List.reverseRecOn with
  | nil => exact List.nodup_nil
  | append_singleton pairs pair ih =>
    rw [ofPairs_concat, keys_set]
    split
    · exact ih
    · next h => exact List.nodup_append'.2 ⟨ih, List.nodup_singleton _, by simpa using h⟩

/-- A key has the value that it was given last. -/
theorem get?_ofPairs (pairs : List AttributePair) (key : String) :
    (ofPairs pairs).get? key = last? pairs key := by
  induction pairs using List.reverseRecOn with
  | nil => rfl
  | append_singleton pairs pair ih =>
    rw [ofPairs_concat, last?_append, last?_singleton]
    by_cases h : key = pair.1
    · rw [h, get?_set_self, if_pos rfl, Option.some_or]
    · rw [get?_set_of_ne _ _ h, ih, if_neg (Ne.symm h), Option.none_or]

/-- The value that a definition gives to a key of an element with these classes in its head. -/
def joinedValue (shorthand : Option String) (key : String) (value : AttrValue) : AttrValue :=
  match shorthand with
  | some classes => if key = "class" then value.combineClass classes else value
  | none => value

theorem merge_eq (attributes : Attributes) (shorthand : Option String) (pair : AttributePair) :
    attributes.merge shorthand pair =
      attributes.set pair.1 (joinedValue shorthand pair.1 pair.2) := by
  cases shorthand with
  | none => rfl
  | some classes =>
    unfold merge joinedValue
    dsimp only
    split <;> rfl

theorem mergeAll_ofPairs (shorthand : Option String) (own pairs : List AttributePair) :
    (ofPairs own).mergeAll shorthand pairs =
      ofPairs (own ++ pairs.map fun p => (p.1, joinedValue shorthand p.1 p.2)) := by
  induction pairs using List.reverseRecOn with
  | nil => rw [List.map_nil, List.append_nil, mergeAll, List.foldl_nil]
  | append_singleton pairs pair ih =>
    rw [List.map_append, List.map_singleton, ← List.append_assoc, ofPairs_concat, ← ih, mergeAll,
      List.foldl_append]
    exact merge_eq _ _ _

end Attributes

/-- The value of the class of an element with classes in its head, given the last class that is
defined behind the head. -/
def AttrValue.behindClasses (classes : String) : Option AttrValue → AttrValue
  | none => .literal classes
  | some (.literal text) => .literal (classes ++ " " ++ text)
  | some (.expr source raw) => .expr (joinedClass classes source) raw

namespace ElementHead

open OpenElement

def ownDefinitions (head : ElementHead) : List AttributePair :=
  ((shorthandClass? head.classes).map fun classes => ("class", .literal classes)).toList ++
    (head.id.map fun id => ("id", .literal id)).toList

/-- The definitions behind a head: those of the block, those on the same line, and those of the
lines below. -/
def definitionsBehind (head : ElementHead) (continued : List AttributePair) :
    List AttributePair :=
  head.block.1 ++ (SimpleAttribute.split head.block.2).1 ++ continued

def definitions (head : ElementHead) (continued : List AttributePair) : List AttributePair :=
  head.ownDefinitions ++ head.definitionsBehind continued

/-- The attributes are those of an element with the given head and the given definitions on the
lines below it. -/
structure Unified (head : ElementHead) (continued : List AttributePair)
    (attributes : Attributes) : Prop where
  distinct : (attributes.map Prod.fst).Nodup
  ordered : attributes.map Prod.fst = ((head.definitions continued).map Prod.fst).eraseDups
  valued : ∀ key, key ≠ "class" ∨ shorthandClass? head.classes = none →
    attributes.get? key = Keyed.last? (head.definitions continued) key
  classed : ∀ classes, shorthandClass? head.classes = some classes →
    attributes.get? "class" = some
      (.behindClasses classes (Keyed.last? (head.definitionsBehind continued) "class"))

theorem headAttributes_eq (head : ElementHead) :
    headAttributes head = Attributes.ofPairs head.ownDefinitions := by
  unfold headAttributes ownDefinitions
  cases shorthandClass? head.classes <;> cases head.id <;> rfl

theorem last?_ownDefinitions_class {head : ElementHead} {classes : String}
    (h : shorthandClass? head.classes = some classes) :
    Keyed.last? head.ownDefinitions "class" = some (.literal classes) := by
  unfold ownDefinitions
  rw [h]
  cases head.id <;> simp [Keyed.last?, Keyed.get?_cons]

/-- The attributes of the line of an element, with those of the lines below it set behind them. -/
def attributesWith (head : ElementHead) (continued : List AttributePair) : Attributes :=
  ((headAttributes head).mergeAll (shorthandClass? head.classes)
    (head.block.1 ++ (SimpleAttribute.split head.block.2).1)).mergeAll
      (shorthandClass? head.classes) continued

theorem attributesWith_eq (head : ElementHead) (continued : List AttributePair) :
    head.attributesWith continued = Attributes.ofPairs (head.ownDefinitions ++
      (head.definitionsBehind continued).map fun p =>
        (p.1, Attributes.joinedValue (shorthandClass? head.classes) p.1 p.2)) := by
  rw [attributesWith, headAttributes_eq, Attributes.mergeAll_ofPairs, Attributes.mergeAll_ofPairs,
    List.append_assoc, ← List.map_append]
  rfl

theorem unified_attributesWith (head : ElementHead) (continued : List AttributePair) :
    Unified head continued (head.attributesWith continued) := by
  have hkeys : (head.attributesWith continued).map Prod.fst =
      ((head.definitions continued).map Prod.fst).eraseDups := by
    rw [attributesWith_eq, Attributes.keys_ofPairs, definitions, List.map_append, List.map_append,
      List.map_map]
    rfl
  have hget : ∀ key, (head.attributesWith continued).get? key =
      ((Keyed.last? (head.definitionsBehind continued) key).map
        (Attributes.joinedValue (shorthandClass? head.classes) key)).or
          (Keyed.last? head.ownDefinitions key) := by
    intro key
    rw [attributesWith_eq, Attributes.get?_ofPairs, Keyed.last?_append, Keyed.last?_map]
  refine ⟨?_, hkeys, fun key h => ?_, fun classes h => ?_⟩
  · rw [attributesWith_eq]
    exact Attributes.nodup_keys_ofPairs _
  · have hj : Attributes.joinedValue (shorthandClass? head.classes) key = fun value => value := by
      funext value
      unfold Attributes.joinedValue
      rcases h with h | h
      · cases shorthandClass? head.classes with
        | none => rfl
        | some classes => exact if_neg h
      · rw [h]
    rw [hget, hj, Option.map_id', definitions, Keyed.last?_append]
  · rw [hget, h, last?_ownDefinitions_class h]
    cases Keyed.last? (head.definitionsBehind continued) "class" with
    | none => rfl
    | some value => cases value <;> rfl

end ElementHead

namespace Opening

/-- The opening of an element line with the attributes of the lines below it. -/
theorem mergeAll_ofLine {fallbackTag : String} {line : Line} {head : ElementHead}
    (h : Directive.ofTrimmed line.text = .element head) (pairs : List AttributePair) :
    (ofLine fallbackTag line).mergeAll pairs =
      ⟨.element (head.tag.getD fallbackTag) (head.attributesWith pairs)
        (inlineContent head.content), OpenElement.shorthandClass? head.classes⟩ := by
  rw [ofLine, h]
  exact mergeAll_element ..

end Opening

namespace Outline

/-- The lines below a line that consist of one attribute each, with these attributes. -/
def Continues (line : Line) : List Line → List AttributePair → Prop :=
  List.Forall₂ fun other pair =>
    line.indent < other.indent ∧ SimpleAttribute.ofLine? other.text = some pair

/-- Lines of one attribute each extend the attributes of the innermost container, if that is an
element. -/
theorem foldl_push_continuations (fallbackTag : String) {line : Line} {others : List Line}
    {pairs : List AttributePair} (h : Continues line others pairs) {opening : Opening}
    (he : opening.isElement = true) (frames : List Frame) (nodes : List Node) :
    others.foldl (push fallbackTag) ⟨.ofOpening line.indent opening :: frames, nodes⟩ =
      ⟨.ofOpening line.indent (opening.mergeAll pairs) :: frames, nodes⟩ := by
  induction h generalizing opening with
  | nil => rfl
  | @cons other pair others pairs ho _ ih =>
    have hk : continuation? opening.isElement other.text = some pair := by
      rw [he]
      exact ho.2
    let opened : Outline := ⟨.ofOpening line.indent opening :: frames, nodes⟩
    have hp : push fallbackTag opened other = opened.extend [pair] [] :=
      push_of_continuation ho.1 hk
    rw [List.foldl_cons, hp, extend_ofOpening]
    exact ih ((opening.isElement_merge pair).trans he)

end Outline

namespace Forest

variable {fallbackTag : String} {lines : List Line} {j : Nat} {head : ElementHead}

variable (fallbackTag) in
theorem opens_of_element (h : Directive.ofTrimmed (lineAt lines j).text = .element head) :
    Opens fallbackTag lines j := by
  rw [Opens, openingAt, Opening.ofLine, h]
  rfl

variable (fallbackTag) in
theorem nodeAt_of_element (h : Directive.ofTrimmed (lineAt lines j).text = .element head) :
    ∃ children, nodeAt fallbackTag lines j = .element (head.tag.getD fallbackTag)
      (head.attributesWith (attributesBelow fallbackTag lines (some j))) children := by
  rw [nodeAt_eq, Opening.close, openingAt, Opening.mergeAll_ofLine h]
  exact ⟨_, rfl⟩

theorem mem_bodies_nodeAt (h : Opens fallbackTag lines j) :
    ∃ body ∈ (nodeAt fallbackTag lines j).bodies,
      ∀ k ∈ nodesBelow fallbackTag lines (some j), nodeAt fallbackTag lines k ∈ body := by
  have hc : ((openingAt fallbackTag lines j).mergeAll
      (attributesBelow fallbackTag lines (some j))).node.isContainer = true := by
    rw [Opening.isContainer_mergeAll]
    exact h
  rw [nodeAt_eq]
  refine ⟨_, Node.mem_bodies_withChildren hc _, fun k hk => ?_⟩
  exact List.mem_append_right _ (List.mem_map_of_mem hk)

/-- The node of a line that is not absorbed stands somewhere in the forest. -/
theorem exists_level_of_not_absorbed (hj : j < lines.length)
    (ha : attribute? fallbackTag lines j = none) :
    ∃ level, Node.Level (nodes fallbackTag lines) level ∧ nodeAt fallbackTag lines j ∈ level := by
  induction j using Nat.strong_induction_on with
  | _ j ih =>
    have hmem : ∀ p, parent? fallbackTag lines j = p → j ∈ nodesBelow fallbackTag lines p := by
      intro p hp
      simp [nodesBelow, below, hj, hp, ha]
    cases hp : parent? fallbackTag lines j with
    | none => exact ⟨_, .top, List.mem_map_of_mem (hmem none hp)⟩
    | some i =>
      obtain ⟨hi, ho, -, -⟩ := parent?_eq_some_iff.1 hp
      obtain ⟨level, hl, hn⟩ := ih i hi (by omega) (attribute?_of_opens ho)
      obtain ⟨body, hb, hk⟩ := mem_bodies_nodeAt ho
      exact ⟨body, .inside hl hn hb, hk j (hmem _ hp)⟩

end Forest

open OpenElement in
/-- The attributes of an element come from one sequence of definitions: those of its head, of the
block, on its line and on the lines below. While lines are read, an element line with deeper lines
of one attribute each behind it leaves an open element with their unified attributes; and in the
nodes of a source every element has the unified attributes of its line and of all lines that it
absorbs, also of those behind children of it. -/
theorem Outline.attributes_unified (fallbackTag : String) :
    (∀ (o : Outline) (line : Line) (head : ElementHead) (others : List Line)
      (pairs : List AttributePair), Directive.ofTrimmed line.text = .element head →
      Continues line others pairs →
      ∃ attributes, head.Unified pairs attributes ∧
        others.foldl (push fallbackTag) (push fallbackTag o line) =
          ⟨.ofOpening line.indent
            ⟨.element (head.tag.getD fallbackTag) attributes (inlineContent head.content),
              shorthandClass? head.classes⟩ :: (o.close line.indent).frames,
            (o.close line.indent).nodes⟩) ∧
    (∀ (source : String) (j : Nat) (head : ElementHead), j < (Line.ofSource source).length →
      Directive.ofTrimmed (Forest.lineAt (Line.ofSource source) j).text = .element head →
      ∃ level attributes children, Node.Level (read fallbackTag source) level ∧
        Forest.nodeAt fallbackTag (Line.ofSource source) j ∈ level ∧
        Forest.nodeAt fallbackTag (Line.ofSource source) j =
          .element (head.tag.getD fallbackTag) attributes children ∧
        head.Unified (Forest.attributesBelow fallbackTag (Line.ofSource source) (some j))
          attributes) := by
  constructor
  · intro o line head others pairs hl hc
    refine ⟨head.attributesWith pairs, head.unified_attributesWith pairs, ?_⟩
    have he : (Opening.ofLine fallbackTag line).isElement = true := by
      rw [Opening.ofLine, hl]
      rfl
    rw [push_of_container (Opening.isContainer_of_isElement he),
      foldl_push_continuations fallbackTag hc he, Opening.mergeAll_ofLine hl]
  · intro source j head hj hl
    obtain ⟨children, hn⟩ := Forest.nodeAt_of_element fallbackTag hl
    obtain ⟨level, hv, hm⟩ := Forest.exists_level_of_not_absorbed hj
      (Forest.attribute?_of_opens (Forest.opens_of_element fallbackTag hl))
    rw [← Forest.ofLines_eq_nodes] at hv
    exact ⟨level, _, children, hv, hm, hn, head.unified_attributesWith _⟩

/-- Classes in the head, in the block and on two lines below, with a child between these lines. The
last class is joined to the classes of the head. -/
theorem Outline.attributes_unified_link :
    (∃ attributes, attributes.map Prod.fst = ["class", "id"] ∧
      [⟨2, "class='y'".toList⟩].foldl (push "div") (push "div" start
          ⟨0, "%a.btn\x7b class: \"x\" \x7d id='b'".toList⟩) =
        ⟨[.ofOpening 0 ⟨.element "a" attributes [], some "btn"⟩], []⟩) ∧
    (∃ attributes children, Forest.nodeAt "div" (Line.ofSource
        ("%a.btn\x7b class: \"x\" \x7d id='b'\n" ++
          "  class='y'\n  text\n  class=\x7b\x7b c \x7d\x7d\n")) 0 =
        .element "a" attributes children ∧
      attributes.map Prod.fst = ["class", "id"] ∧
      attributes.get? "id" = some (.literal "b") ∧
      attributes.get? "class" = some (.expr (AttrValue.joinedClass "btn" "c") false)) := by
  let head : ElementHead := ⟨some "a", ["btn"], none, "\x7b class: \"x\" \x7d id='b'"⟩
  have hline : Directive.ofTrimmed "%a.btn\x7b class: \"x\" \x7d id='b'".toList =
      .element head := by rfl
  have hblock : head.block = ([("class", .literal "x")], " id='b'".toList) := by decide +kernel
  have hsplit : SimpleAttribute.split " id='b'".toList = ([("id", .literal "b")], []) := by
    decide +kernel
  have hbehind : ∀ pairs, head.definitionsBehind pairs =
      ("class", .literal "x") :: ("id", .literal "b") :: pairs := by
    intro pairs
    rw [ElementHead.definitionsBehind, hblock, hsplit]
    rfl
  have hall : ∀ pairs, head.definitions pairs =
      ("class", .literal "btn") :: ("class", .literal "x") :: ("id", .literal "b") :: pairs := by
    intro pairs
    rw [ElementHead.definitions, hbehind]
    rfl
  constructor
  · have hy : SimpleAttribute.ofLine? "class='y'".toList = some ("class", .literal "y") := by
      decide +kernel
    obtain ⟨attributes, hu, hf⟩ := (attributes_unified "div").1 start
      ⟨0, "%a.btn\x7b class: \"x\" \x7d id='b'".toList⟩ head [⟨2, "class='y'".toList⟩]
      [("class", .literal "y")] hline (.cons ⟨by decide, hy⟩ .nil)
    refine ⟨attributes, ?_, ?_⟩
    · rw [hu.ordered, hall]
      decide
    · have hc : inlineContent head.content = [] := by
        rw [ElementHead.content, hblock, hsplit]
        decide +kernel
      have hs : close 0 start = start := by with_unfolding_all rfl
      rw [hf, hc, hs]
      rfl
  · have hlines : Line.ofSource ("%a.btn\x7b class: \"x\" \x7d id='b'\n" ++
        "  class='y'\n  text\n  class=\x7b\x7b c \x7d\x7d\n") =
        [⟨0, "%a.btn\x7b class: \"x\" \x7d id='b'".toList⟩, ⟨2, "class='y'".toList⟩,
          ⟨2, "text".toList⟩, ⟨2, "class=\x7b\x7b c \x7d\x7d".toList⟩] := by rfl
    have hbelow : Forest.attributesBelow "div"
        [⟨0, "%a.btn\x7b class: \"x\" \x7d id='b'".toList⟩, ⟨2, "class='y'".toList⟩,
          ⟨2, "text".toList⟩, ⟨2, "class=\x7b\x7b c \x7d\x7d".toList⟩] (some 0) =
        [("class", .literal "y"), ("class", .expr "c" false)] := by decide +kernel
    obtain ⟨level, attributes, children, -, -, hn, hu⟩ := (attributes_unified "div").2
      ("%a.btn\x7b class: \"x\" \x7d id='b'\n" ++
        "  class='y'\n  text\n  class=\x7b\x7b c \x7d\x7d\n") 0 head
      (by rw [hlines]; decide) (by rw [hlines]; exact hline)
    rw [hlines, hbelow] at hu
    refine ⟨attributes, children, hn, ?_, ?_, ?_⟩
    · rw [hu.ordered, hall]
      decide
    · rw [hu.valued "id" (.inl (by decide)), hall]
      decide
    · rw [hu.classed "btn" (by decide), hbehind]
      rfl

end IndentMarkup
