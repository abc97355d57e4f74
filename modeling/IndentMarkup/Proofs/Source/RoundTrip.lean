import IndentMarkup.Proofs.Source.Directives

/-!
# Reading printed nodes

Nodes that can be printed are read back from what is printed for them. The lines of the children of
a node follow its own and are the longest run of lines that are indented deeper, so they are its
body, and none of them continues its attributes.
-/
namespace IndentMarkup

theorem Margin.length_le (m : Margin) {d e : Nat} (h : d ≤ e) :
    (m.text d).length ≤ (m.text e).length := by
  induction h with
  | refl => exact Nat.le_refl _
  | step _ ih => exact Nat.le_trans ih (Nat.le_of_lt (m.deeper _))

namespace Node

/-- Whether attributes are looked for on the lines below the line of a node. -/
def isElement (node : Node) : Bool := Opening.isElement ⟨node.withChildren [], none⟩

theorem isContainer_withChildren (node : Node) (children : List Node) :
    (node.withChildren children).isContainer = node.isContainer := by
  cases node <;> rfl

theorem close_withChildren (node : Node) :
    Opening.close ⟨node.withChildren [], none⟩ [] node.children = node := by
  cases node <;> rfl

theorem sizeOf_children_lt (node : Node) (rest : List Node) :
    sizeOf node.children < sizeOf (node :: rest) := by
  cases node <;> simp [children] <;> omega

section

variable {inElement : Bool} {node : Node} (h : Printable inElement node)
include h

theorem printed_eq (m : Margin) (d : Nat) :
    printed m d node = (m.text d ++ node.line) :: printedAll m (d + 1) node.children := by
  cases h <;> rfl

theorem allPrintable_children : AllPrintable node.isElement node.children := by
  cases h with
  | element _ _ hc => exact hc
  | ifThen _ hc => exact hc
  | elseIf _ hc => exact hc
  | otherwise hc => exact hc
  | loop _ _ hc => exact hc
  | _ => exact .nil

theorem children_of_leaf (hn : ¬ node.isContainer = true) : node.children = [] := by
  cases h with
  | text _ => rfl
  | insertion _ => rfl
  | statement _ _ => rfl
  | _ => exact (hn rfl).elim

end

/-- Every printed line is a trimmed line behind a margin that is at least as wide as the first. -/
theorem exists_of_mem_printedAll {inElement : Bool} {nodes : List Node}
    (h : AllPrintable inElement nodes) (m : Margin) {d : Nat} {l : List Char}
    (hl : l ∈ printedAll m d nodes) : ∃ e s, d ≤ e ∧ l = m.text e ++ s ∧ Text.OneLine s := by
  cases h with
  | nil => cases hl
  | @cons _ node rest hnode hrest =>
    rw [printedAll, printed_eq hnode, List.cons_append, List.mem_cons, List.mem_append] at hl
    rcases hl with rfl | hl | hl
    · exact ⟨d, node.line, Nat.le_refl d, rfl, oneLine_line hnode⟩
    · have hs := sizeOf_children_lt node rest
      obtain ⟨e, s, he, hl⟩ := exists_of_mem_printedAll (allPrintable_children hnode) m hl
      exact ⟨e, s, Nat.le_of_succ_le he, hl⟩
    · exact exists_of_mem_printedAll hrest m hl
termination_by sizeOf nodes

def lines (m : Margin) (d : Nat) (nodes : List Node) : List Line :=
  (printedAll m d nodes).map Line.ofText

theorem lines_cons {inElement : Bool} {node : Node} (h : Printable inElement node)
    (rest : List Node) (m : Margin) (d : Nat) :
    lines m d (node :: rest) =
      ⟨(m.text d).length, node.line⟩ :: (lines m (d + 1) node.children ++ lines m d rest) := by
  unfold lines
  rw [printedAll, printed_eq h, List.cons_append, List.map_cons, List.map_append,
    Line.ofText_append (m.blank d) (oneLine_line h)]

theorem length_le_indent {inElement : Bool} {nodes : List Node} (h : AllPrintable inElement nodes)
    (m : Margin) {d : Nat} {l : Line} (hl : l ∈ lines m d nodes) :
    (m.text d).length ≤ l.indent := by
  obtain ⟨t, ht, rfl⟩ := List.mem_map.1 hl
  obtain ⟨e, s, he, rfl, hs⟩ := exists_of_mem_printedAll h m ht
  rw [Line.ofText_append (m.blank e) hs]
  exact m.length_le he

/-- The lines of what is printed are the lines that were printed. -/
theorem ofSource_print {inElement : Bool} {nodes : List Node} (h : AllPrintable inElement nodes)
    (m : Margin) : Line.ofSource (print m nodes) = lines m 0 nodes := by
  have hall : ∀ l ∈ printedAll m 0 nodes, '\n' ∉ l ∧ Text.isAllBlank l = false := by
    intro l hl
    obtain ⟨e, s, -, rfl, hs⟩ := exists_of_mem_printedAll h m hl
    constructor
    · intro hm
      rcases List.mem_append.1 hm with hm | hm
      · exact m.unbroken e hm
      · exact hs.unbroken hm
    · exact Line.isAllBlank_append hs
  rw [Line.ofSource, print, String.toList_ofList, lines]
  by_cases hn : printedAll m 0 nodes = []
  · rw [hn]
    rfl
  · rw [Line.splitOn_intercalate hn fun l hl => (hall l hl).1, List.filter_eq_self.2]
    intro l hl
    rw [(hall l hl).2]
    rfl

section

variable {inElement : Bool} {node : Node} {rest : List Node} (m : Margin) (d : Nat)

theorem indent_lt_of_mem_children (h : Printable inElement node) {l : Line}
    (hl : l ∈ lines m (d + 1) node.children) :
    decide ((m.text d).length < l.indent) = true := by
  have hi := length_le_indent (allPrintable_children h) m hl
  exact decide_eq_true (Nat.lt_of_lt_of_le (m.deeper d) hi)

variable (h : Printable inElement node) (hrest : AllPrintable inElement rest)
include h hrest

/-- The lines behind the line of a node that are indented deeper are those of its children. -/
theorem takeWhile_lines :
    (lines m (d + 1) node.children ++ lines m d rest).takeWhile
      (fun l => (m.text d).length < l.indent) = lines m (d + 1) node.children := by
  rw [List.takeWhile_append_of_pos fun l hl => indent_lt_of_mem_children m d h hl]
  cases hrest with
  | nil => exact List.append_nil _
  | cons hother _ =>
    rw [lines_cons hother, List.takeWhile_cons, if_neg (by simp), List.append_nil]

theorem dropWhile_lines :
    (lines m (d + 1) node.children ++ lines m d rest).dropWhile
      (fun l => (m.text d).length < l.indent) = lines m d rest := by
  rw [List.dropWhile_append_of_pos fun l hl => indent_lt_of_mem_children m d h hl]
  cases hrest with
  | nil => rfl
  | cons hother _ => rw [lines_cons hother, List.dropWhile_cons, if_neg (by simp)]

end

/-- The body of printed lines are the nodes that were printed. -/
theorem body_lines (fallbackTag : String) (m : Margin) {inElement : Bool} {nodes : List Node}
    (h : AllPrintable inElement nodes) (d : Nat) :
    Outline.body fallbackTag inElement (lines m d nodes) = ([], nodes) := by
  cases h with
  | nil => rw [lines, printedAll, List.map_nil, Outline.body]
  | @cons _ node rest hnode hrest =>
    have hc := continuation?_line hnode
    have ho : Opening.ofLine fallbackTag ⟨(m.text d).length, node.line⟩ =
        ⟨node.withChildren [], none⟩ := ofTrimmed_line hnode fallbackTag
    have hs := sizeOf_children_lt node rest
    have hinner := body_lines fallbackTag m (allPrintable_children hnode) (d + 1)
    have hafter := body_lines fallbackTag m hrest d
    rw [lines_cons hnode]
    by_cases hn : node.isContainer = true
    · have hb := Outline.body_of_container hc (by rw [ho, isContainer_withChildren, hn])
        (lines m (d + 1) node.children ++ lines m d rest)
      rw [ho, takeWhile_lines m d hnode hrest, dropWhile_lines m d hnode hrest] at hb
      have hi : Outline.body fallbackTag (Opening.isElement ⟨node.withChildren [], none⟩)
          (lines m (d + 1) node.children) = ([], node.children) := hinner
      rw [hb]
      dsimp only
      rw [hi, hafter, close_withChildren]
    · have hl : node.children = [] := children_of_leaf hnode hn
      have hb := Outline.body_of_leaf hc (by rw [ho, isContainer_withChildren]; exact hn)
        (lines m (d + 1) node.children ++ lines m d rest)
      have hw : node.withChildren [] = node := by rw [← hl, withChildren_children]
      have hempty : lines m (d + 1) [] = [] := by rw [lines, printedAll, List.map_nil]
      rw [hb, ho, hl, hempty, List.nil_append, hafter]
      dsimp only
      rw [hw]
termination_by sizeOf nodes

end Node

/-- Nodes are read back from the source that they are printed as. -/
theorem Outline.read_print (m : Margin) (fallbackTag : String) {nodes : List Node}
    (h : Node.AllPrintable false nodes) : read fallbackTag (Node.print m nodes) = nodes := by
  rw [read, Node.ofSource_print h, ofLines_eq_body, Node.body_lines fallbackTag m h]

/-- An element with a loop in it, a condition with a text that begins with a hyphen, and a
statement. -/
def Node.menu : List Node :=
  [.element "ul" [("class", .literal "nav"), ("data-n", .expr "items.length" true)]
      [.loop ⟨"item", some "i", "items"⟩ [.insertion "item" false]],
    .ifThen "done" [.text "- end"], .statement "count"]

theorem Outline.read_print_menu :
    Node.AllPrintable false Node.menu ∧
      read "div" (Node.print Margin.spaces Node.menu) = Node.menu := by
  have hattributes : Attributes.Printable
      [("class", .literal "nav"), ("data-n", .expr "items.length" true)] := by
    constructor
    · decide
    · intro a ha
      simp only [List.mem_cons, List.not_mem_nil, or_false] at ha
      rcases ha with rfl | rfl
      · exact ⟨'c', "lass".toList, rfl, by decide, List.all_eq_true.1 (by decide)⟩
      · exact ⟨'d', "ata-n".toList, rfl, by decide, List.all_eq_true.1 (by decide)⟩
    · decide +kernel
  have htext : IsPlainText false "- end" := by
    constructor
    · decide
    · decide
    · decide
    · intro h
      cases h
  have hloop : Node.Printable true (.loop ⟨"item", some "i", "items"⟩ [.insertion "item" false]) :=
    .loop (by decide) (by decide) (.cons (.insertion (by decide)) .nil)
  have h : Node.AllPrintable false Node.menu := by
    refine .cons (.element (by decide) hattributes (.cons hloop .nil)) ?_
    refine .cons (.ifThen (by decide) (.cons (.text htext) .nil)) ?_
    exact .cons (.statement (by decide) (by decide)) .nil
  exact ⟨h, read_print Margin.spaces "div" h⟩

end IndentMarkup
