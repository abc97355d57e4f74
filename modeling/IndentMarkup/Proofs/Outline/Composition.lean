import IndentMarkup.Proofs.Outline.Forest
import IndentMarkup.Proofs.Outline.Spacing
import IndentMarkup.Proofs.Source.Trimming

/-!
# Sources put together

A source behind another one that begins without an indentation adds its nodes to those of the other,
since its first line closes whatever the other has left open. A source that is indented as a whole
behind the line of a container is the body of the container: only differences of indentation
matter, and nothing but an attribute on a line of its own can tell an element from the outside.
-/
namespace IndentMarkup

namespace Line

def indentBy (k : Nat) (line : Line) : Line := ⟨k + line.indent, line.text⟩

theorem isAllBlank_append_blank {b : List Char} (hb : ∀ c ∈ b, Text.isBlank c = true)
    (s : List Char) : Text.isAllBlank (b ++ s) = Text.isAllBlank s := by
  have ht : b.all Text.isBlank = true := List.all_eq_true.2 hb
  rw [Text.isAllBlank, List.all_append, ht, Bool.true_and]
  rfl

theorem ofText_append_blank {b : List Char} (hb : ∀ c ∈ b, Text.isBlank c = true)
    (s : List Char) : ofText (b ++ s) = (ofText s).indentBy b.length := by
  have hi : Text.indent (b ++ s) = b.length + Text.indent s := by
    rw [Text.indent, List.takeWhile_append_of_pos hb, List.length_append]
    rfl
  have ht : Text.trim (b ++ s) = Text.trim s := by
    rw [Text.trim, Text.trimStart_append hb]
    rfl
  rw [ofText, hi, ht]
  rfl

/-- The lines of two sources with a line feed between them. -/
theorem ofSource_append (source after : String) :
    ofSource (source ++ "\n" ++ after) = ofSource source ++ ofSource after := by
  have hs : (source ++ "\n" ++ after).toList = source.toList ++ '\n' :: after.toList := by
    simp [String.toList_append]
  rw [ofSource, hs, Text.splitOn_append_cons, List.filter_append, List.map_append]
  rfl

end Line

namespace Outline

structure IsMargin (margin : String) : Prop where
  ne_nil : margin.toList ≠ []
  blank : ∀ c ∈ margin.toList, Text.isBlank c = true
  unbroken : '\n' ∉ margin.toList

instance (margin : String) : Decidable (IsMargin margin) :=
  decidable_of_iff (margin.toList ≠ [] ∧ margin.toList.all Text.isBlank = true ∧
      '\n' ∉ margin.toList)
    ⟨fun h => ⟨h.1, List.all_eq_true.1 h.2.1, h.2.2⟩,
      fun h => ⟨h.ne_nil, List.all_eq_true.2 h.blank, h.unbroken⟩⟩

def indented (margin source : String) : String :=
  String.ofList (['\n'].intercalate
    ((Text.splitOn '\n' source.toList).map fun line => margin.toList ++ line))

theorem ofSource_indented {margin : String} (h : IsMargin margin) (source : String) :
    Line.ofSource (indented margin source) =
      (Line.ofSource source).map (Line.indentBy margin.toList.length) := by
  let pieces := (Text.splitOn '\n' source.toList).map fun line => margin.toList ++ line
  have hne : pieces ≠ [] := by
    rw [Ne, List.map_eq_nil_iff]
    exact Text.splitOn_ne_nil '\n' source.toList
  have hl : ∀ line ∈ pieces, '\n' ∉ line := by
    intro line hm
    obtain ⟨piece, hp, rfl⟩ := List.mem_map.1 hm
    rw [List.mem_append, not_or]
    exact ⟨h.unbroken, Text.not_mem_of_mem_splitOn hp⟩
  have hf : (fun l => !Text.isAllBlank l) ∘ (fun line => margin.toList ++ line) =
      fun l => !Text.isAllBlank l := by
    funext l
    exact congrArg not (Line.isAllBlank_append_blank h.blank l)
  have hm : Line.ofText ∘ (fun line => margin.toList ++ line) =
      Line.indentBy margin.toList.length ∘ Line.ofText := by
    funext l
    exact Line.ofText_append_blank h.blank l
  rw [Line.ofSource, indented, String.toList_ofList, Line.splitOn_intercalate hne hl,
    List.filter_map, List.map_map, Line.ofSource, List.map_map, hf, hm]

section

variable (fallbackTag : String)

theorem fst_body_of_not_inElement {inElement : Bool} {lines : List Line}
    (h : inElement = false) : (body fallbackTag inElement lines).1 = [] := by
  induction inElement, lines using body.induct fallbackTag with
  | case1 inElement => rw [body]
  | case2 inElement line rest pair hp ih =>
    rw [h] at hp
    cases hp
  | case3 inElement line rest hp hc ih₁ ih₂ =>
    rw [body_of_container hp hc]
    exact ih₂ h
  | case4 inElement line rest hp hc ih =>
    rw [body_of_leaf hp hc]
    exact ih h

/-- Only differences of indentation matter. -/
theorem body_indentBy (k : Nat) (inElement : Bool) (lines : List Line) :
    body fallbackTag inElement (lines.map (Line.indentBy k)) =
      body fallbackTag inElement lines := by
  have hw : StrictMono fun n => k + n := fun m n h => Nat.add_lt_add_left h k
  exact body_stretch fallbackTag inElement hw lines

/-- Lines of which the first is not indented leave the lines in front of them as they are. -/
theorem body_append {after : List Line} (h : ∀ line ∈ after.head?, line.indent = 0)
    (inElement : Bool) (lines : List Line) :
    body fallbackTag inElement (lines ++ after) =
      ((body fallbackTag inElement lines).1 ++ (body fallbackTag inElement after).1,
        (body fallbackTag inElement lines).2 ++ (body fallbackTag inElement after).2) := by
  induction inElement, lines using body.induct fallbackTag with
  | case1 inElement =>
    rw [body]
    rfl
  | case2 inElement line rest pair hp ih =>
    rw [List.cons_append, body_of_continuation hp, body_of_continuation hp, ih]
    rfl
  | case3 inElement line rest hp hc ih₁ ih₂ =>
    have hd : ∀ l ∈ after.head?, decide (line.indent < l.indent) = false := by
      intro l hl
      rw [h l hl]
      rfl
    obtain ⟨hin, hout⟩ := takeWhile_append_of_head hd rest
    rw [List.cons_append, body_of_container hp hc, body_of_container hp hc, hin, hout]
    dsimp only
    rw [ih₂]
    rfl
  | case4 inElement line rest hp hc ih =>
    rw [List.cons_append, body_of_leaf hp hc, body_of_leaf hp hc, ih]
    rfl

/-- The nodes of a source are followed by those of a source that begins without an indentation. -/
theorem read_append {after : String}
    (h : ∀ line ∈ (Line.ofSource after).head?, line.indent = 0) (source : String) :
    read fallbackTag (source ++ "\n" ++ after) =
      read fallbackTag source ++ read fallbackTag after := by
  rw [read, Line.ofSource_append, ofLines_eq_body, body_append fallbackTag h, read, read,
    ofLines_eq_body, ofLines_eq_body]

end

end Outline

namespace Forest

variable {fallbackTag : String} {lines : List Line}

/-- Lines that belong to nothing and are no attributes have the same body in an element as outside.
-/
theorem Block.body_eq_of_no_attribute {p : Option Nat} {a m : Nat}
    (h : Block fallbackTag lines p a m) (hp : p = none)
    (hn : ∀ j, a ≤ j → j < a + m → parent? fallbackTag lines j = none →
      SimpleAttribute.ofLine? (lineAt lines j).text = none) :
    Outline.body fallbackTag true ((List.range' a m).map (lineAt lines)) =
      Outline.body fallbackTag false ((List.range' a m).map (lineAt lines)) := by
  revert hp hn
  refine Block.induct (motive := fun p a m => p = none → (∀ j, a ≤ j → j < a + m →
    parent? fallbackTag lines j = none → SimpleAttribute.ofLine? (lineAt lines j).text = none) →
    Outline.body fallbackTag true ((List.range' a m).map (lineAt lines)) =
      Outline.body fallbackTag false ((List.range' a m).map (lineAt lines))) ?_ ?_ ?_ h
  · intro p a hp hn
    rw [List.range'_zero, List.map_nil, Outline.body, Outline.body]
  · intro p a m h ho ih hp hn
    have hk : Outline.continuation? true (lineAt lines a).text = none :=
      hn a (Nat.le_refl a) (by omega) (by rw [h.parent?_first, hp])
    have hi := ih hp fun j hj hm => hn j (by omega) (by omega)
    rw [List.range'_succ, List.map_cons, Outline.body_of_leaf hk ho, Outline.body_of_leaf rfl ho,
      hi]
  · -- the body of a container is that of the container, whatever is around it
    intro p a m r h ho hd he ih₁ ih₂ hp hn
    have hk := continuation?_of_opens ho true
    have hi := ih₂ hp fun j hj hm => hn j (by omega) (by omega)
    have hr := (map_lineAt_takeWhile hd he).2
    rw [List.range'_succ, List.map_cons, Outline.body_of_container hk ho,
      Outline.body_of_container rfl ho, hr, hi]

variable (fallbackTag lines) in
/-- No line that belongs to nothing consists of an attribute. -/
def NoAttributes : Prop :=
  ∀ j, j < lines.length → parent? fallbackTag lines j = none →
    SimpleAttribute.ofLine? (lineAt lines j).text = none

theorem NoAttributes.body_eq (h : NoAttributes fallbackTag lines) :
    Outline.body fallbackTag true lines = Outline.body fallbackTag false lines := by
  have hb := (block_all fallbackTag lines).body_eq_of_no_attribute rfl
    fun j _ hj => h j (by omega)
  rwa [map_lineAt_range] at hb

end Forest

namespace Outline

variable {fallbackTag head : String}

/-- What a text on one line opens. -/
def opening (fallbackTag head : String) : Opening := .ofLine fallbackTag (.ofText head.toList)

/-- A line without an indentation that opens a container. -/
structure IsHead (fallbackTag head : String) : Prop where
  unbroken : '\n' ∉ head.toList
  unindented : Text.indent head.toList = 0
  opens : (opening fallbackTag head).node.isContainer = true

theorem IsHead.ofSource_eq (h : IsHead fallbackTag head) :
    Line.ofSource head = [.ofText head.toList] := by
  have hb : Text.isAllBlank head.toList = false := by
    cases hs : Text.isAllBlank head.toList with
    | false => rfl
    | true =>
      have ht : Text.trim head.toList = [] := by
        rw [Text.trim, (Text.trimStart_eq_nil_iff head.toList).2 hs]
        rfl
      have ho := h.opens
      have hp : (opening fallbackTag head).node.isContainer = false := by
        rw [opening, Opening.ofLine, Line.ofText, ht]
        exact Opening.isContainer_ofPlain fallbackTag []
      rw [hp] at ho
      cases ho
  rw [Line.ofSource, Text.splitOn_of_not_mem h.unbroken, List.filter_cons, hb]
  rfl

/-- A source that is indented as a whole behind the line of a container is its body. -/
theorem read_nested {margin source : String} (h : IsHead fallbackTag head) (hm : IsMargin margin)
    (ha : (opening fallbackTag head).isElement = true →
      Forest.NoAttributes fallbackTag (Line.ofSource source)) :
    read fallbackTag (head ++ "\n" ++ indented margin source) =
      [(opening fallbackTag head).node.withChildren
        ((opening fallbackTag head).node.children ++ read fallbackTag source)] := by
  have hbody : body fallbackTag (opening fallbackTag head).isElement
      ((Line.ofSource source).map (Line.indentBy margin.toList.length)) =
        body fallbackTag false (Line.ofSource source) := by
    rw [body_indentBy]
    cases he : (opening fallbackTag head).isElement with
    | false => rfl
    | true => exact (ha he).body_eq
  have hdeep : ∀ l ∈ (Line.ofSource source).map (Line.indentBy margin.toList.length),
      decide ((Line.ofText head.toList).indent < l.indent) = true := by
    intro l hl
    obtain ⟨line, -, rfl⟩ := List.mem_map.1 hl
    have hp := List.length_pos_iff.2 hm.ne_nil
    have hz : (Line.ofText head.toList).indent = 0 := h.unindented
    simp only [Line.indentBy, hz, decide_eq_true_eq]
    omega
  rw [read, Line.ofSource_append, h.ofSource_eq, ofSource_indented hm, ofLines_eq_body,
    List.singleton_append, body_of_container rfl h.opens, List.takeWhile_eq_self_iff.2 hdeep,
    List.dropWhile_eq_nil_iff.2 hdeep]
  dsimp only
  rw [show Opening.ofLine fallbackTag (.ofText head.toList) = opening fallbackTag head from rfl,
    hbody, body, Opening.close, fst_body_of_not_inElement fallbackTag rfl, read, ofLines_eq_body]
  rfl

end Outline

end IndentMarkup
