import IndentMarkup.Proofs.Decision.Runs
import IndentMarkup.Proofs.Outline.Bodies
import IndentMarkup.Proofs.Program.Translation

/-!
# The variables of loops in an outline

A loop line is one only if its variables are identifiers, so every loop of an outline has such
variables, and folding conditions into decisions keeps them.
-/
namespace IndentMarkup

namespace LoopHead

theorem isNamed_of_split {s name rest source : List Char}
    (h : Text.splitIdentifier? s = some (name, rest)) :
    isNamed ⟨String.ofList name, none, String.ofList source⟩ = true := by
  simp [isNamed, (Text.splitIdentifier?_spec h).1]

theorem isNamed_of_index? {s t name rest index rest' source : List Char}
    (h : Text.splitIdentifier? s = some (name, rest)) (h' : index? t = some (index, rest')) :
    isNamed ⟨String.ofList name, some (String.ofList index), String.ofList source⟩ = true := by
  unfold index? at h'
  split at h'
  · simp [isNamed, (Text.splitIdentifier?_spec h).1, (Text.splitIdentifier?_spec h').1]
  · cases h'

theorem isNamed_of_ofText? {s : List Char} {head : LoopHead} (h : ofText? s = some head) :
    head.isNamed = true := by
  unfold ofText? at h
  obtain ⟨start, -, h⟩ := Option.bind_eq_some_iff.1 h
  obtain ⟨⟨name, rest⟩, hn, h⟩ := Option.bind_eq_some_iff.1 h
  dsimp only at h
  split at h
  · next index rest' hi =>
    obtain ⟨source, -, h⟩ := Option.bind_eq_some_iff.1 h
    cases h
    exact isNamed_of_index? hn hi
  · obtain ⟨source, -, h⟩ := Option.bind_eq_some_iff.1 h
    cases h
    exact isNamed_of_split hn

end LoopHead

namespace Directive

theorem isNamed_of_ofControl {code : List Char} {head : LoopHead}
    (h : ofControl code = .loop head) : head.isNamed = true := by
  unfold ofControl at h
  split at h
  · cases h
  split at h
  · cases h
  split at h
  · cases h
  split at h
  · next hl =>
    cases h
    obtain ⟨r, -, hl⟩ := Option.bind_eq_some_iff.1 hl
    exact LoopHead.isNamed_of_ofText? hl
  · cases h

theorem ofPlain_ne_loop (line : List Char) (head : LoopHead) : ofPlain line ≠ .loop head := by
  unfold ofPlain
  split <;> intro h <;> cases h

theorem isNamed_of_ofTrimmed {line : List Char} {head : LoopHead}
    (h : ofTrimmed line = .loop head) : head.isNamed = true := by
  unfold ofTrimmed at h
  split at h
  · cases h
  · exact isNamed_of_ofControl h
  · cases h
  · cases h
  · split at h
    · cases h
    · exact (ofPlain_ne_loop _ _ h).elim
  · exact (ofPlain_ne_loop _ _ h).elim

end Directive

namespace Node

theorem isNamed_ofSegment (segment : Segment) : isNamed (ofSegment segment) = true := by
  cases segment <;> rw [ofSegment]
  · rw [isNamed]
  · rw [ofSource, isNamed]

theorem allNamed_map_ofSegment (segments : List Segment) :
    allNamed (segments.map ofSegment) = true := by
  induction segments with
  | nil => simp
  | cons segment segments ih => simp [ih, isNamed_ofSegment]

theorem isNamed_ofSegments (segments : List Segment) : isNamed (ofSegments segments) = true := by
  unfold ofSegments
  split
  · rw [isNamed]
  · rw [isNamed]
  · rw [isNamed]
    exact allNamed_map_ofSegment segments

theorem allNamed_children {node : Node} (h : isNamed node = true) :
    allNamed node.children = true := by
  cases node <;> simp_all [isNamed, children]

theorem isNamed_withChildren {node : Node} {nodes : List Node} (h : isNamed node = true)
    (hn : allNamed nodes = true) : isNamed (node.withChildren nodes) = true := by
  cases node <;> simp_all [isNamed, withChildren]

end Node

theorem allNamed_inlineContent (content : List Char) :
    Node.allNamed (inlineContent content) = true := by
  unfold inlineContent
  split
  · split
    · simp
    · simp [Node.ofSource, Node.isNamed]
  · exact Node.allNamed_map_ofSegment _

namespace Opening

theorem isNamed_ofLine (fallbackTag : String) (line : Line) :
    (ofLine fallbackTag line).node.isNamed = true := by
  unfold ofLine
  cases h : Directive.ofTrimmed line.text with
  | literal t => rw [ofDirective, Node.isNamed]
  | text segments => exact Node.isNamed_ofSegments segments
  | element head =>
    rw [ofDirective, OpenElement.node, Node.isNamed]
    exact allNamed_inlineContent _
  | expression source => rw [ofDirective, Node.ofSource, Node.isNamed]
  | statement code => rw [ofDirective, Node.isNamed]
  | ifThen condition => rw [ofDirective, Node.isNamed, Node.allNamed_nil]
  | elseIf condition => rw [ofDirective, Node.isNamed, Node.allNamed_nil]
  | otherwise => rw [ofDirective, Node.isNamed, Node.allNamed_nil]
  | loop head =>
    rw [ofDirective, Node.isNamed, Node.allNamed_nil, Bool.and_true]
    exact Directive.isNamed_of_ofTrimmed h

theorem isNamed_merge {o : Opening} (h : o.node.isNamed = true) (pair : AttributePair) :
    (o.merge pair).node.isNamed = true := by
  obtain ⟨node, shorthandClass⟩ := o
  cases node <;> simp_all [merge, Node.isNamed]

theorem isNamed_mergeAll {o : Opening} (h : o.node.isNamed = true) (pairs : List AttributePair) :
    (o.mergeAll pairs).node.isNamed = true := by
  induction pairs generalizing o with
  | nil => exact h
  | cons pair pairs ih => exact ih (isNamed_merge h pair)

theorem isNamed_close {o : Opening} (h : o.node.isNamed = true) (pairs : List AttributePair)
    {nodes : List Node} (hn : Node.allNamed nodes = true) :
    (o.close pairs nodes).isNamed = true := by
  refine Node.isNamed_withChildren (isNamed_mergeAll h pairs) ?_
  rw [Node.allNamed_append, Node.allNamed_children h, hn]
  rfl

end Opening

namespace Outline

theorem allNamed_body (fallbackTag : String) (inElement : Bool) (lines : List Line) :
    Node.allNamed (body fallbackTag inElement lines).2 = true := by
  induction inElement, lines using body.induct fallbackTag with
  | case1 inElement => rw [body, Node.allNamed_nil]
  | case2 inElement line rest pair hp ih =>
    rw [body_of_continuation hp]
    exact ih
  | case3 inElement line rest hp hc ih₁ ih₂ =>
    have hn := Opening.isNamed_close (Opening.isNamed_ofLine fallbackTag line)
      (body fallbackTag (Opening.ofLine fallbackTag line).isElement
        (rest.takeWhile fun l => line.indent < l.indent)).1 ih₁
    rw [body_of_container hp hc]
    dsimp only
    rw [Node.allNamed_cons, hn, ih₂]
    rfl
  | case4 inElement line rest hp hc ih =>
    rw [body_of_leaf hp hc, Node.allNamed_cons, Opening.isNamed_ofLine, ih]
    rfl

theorem allNamed_read (fallbackTag source : String) :
    Node.allNamed (read fallbackTag source) = true := by
  rw [read, ofLines_eq_body]
  exact allNamed_body fallbackTag false _

end Outline

namespace Node

theorem takeBranches_named {nodes : List Node} (h : allNamed nodes = true) :
    branchesNamed (takeBranches nodes).1 = true ∧ allNamed (takeBranches nodes).2 = true := by
  fun_induction takeBranches nodes with
  | case1 condition children rest branches after ht ih =>
    simp only [allNamed_cons, isNamed, Bool.and_eq_true] at h
    rw [ht] at ih
    obtain ⟨hb, ha⟩ := ih h.2
    exact ⟨by rw [branchesNamed, h.1, hb]; rfl, ha⟩
  | case2 children rest =>
    simp only [allNamed_cons, isNamed, Bool.and_eq_true] at h
    exact ⟨by rw [branchesNamed, h.1, branchesNamed]; rfl, h.2⟩
  | case3 nodes => exact ⟨by rw [branchesNamed], h⟩

theorem allNamed_foldRuns {nodes : List Node} (h : allNamed nodes = true) :
    allNamed (foldRuns nodes) = true := by
  fun_induction foldRuns nodes with
  | case1 => exact h
  | case2 condition children rest ih =>
    simp only [allNamed_cons, isNamed, Bool.and_eq_true] at h
    obtain ⟨hb, ha⟩ := takeBranches_named h.2
    rw [allNamed_cons, isNamed, branchesNamed, h.1, hb, ih ha]
    rfl
  | case3 node rest hne ih =>
    rw [allNamed_cons, Bool.and_eq_true] at h
    rw [allNamed_cons, h.1, ih h.2]
    rfl

mutual

theorem isNamed_lower (node : Node) (h : isNamed node = true) : isNamed (lower node) = true := by
  match node with
  | .element tag attributes children =>
    rw [isNamed] at h
    rw [lower, isNamed]
    exact allNamed_foldRuns (allNamed_lowerAll children h)
  | .ifThen condition children =>
    rw [isNamed] at h
    rw [lower, isNamed]
    exact allNamed_foldRuns (allNamed_lowerAll children h)
  | .elseIf condition children =>
    rw [isNamed] at h
    rw [lower, isNamed]
    exact allNamed_foldRuns (allNamed_lowerAll children h)
  | .otherwise children =>
    rw [isNamed] at h
    rw [lower, isNamed]
    exact allNamed_foldRuns (allNamed_lowerAll children h)
  | .loop head children =>
    rw [isNamed, Bool.and_eq_true] at h
    rw [lower, isNamed, h.1, allNamed_foldRuns (allNamed_lowerAll children h.2)]
    rfl
  | .fragment children =>
    rw [isNamed] at h
    rw [lower, isNamed]
    exact allNamed_foldRuns (allNamed_lowerAll children h)
  | .decision branches =>
    rw [isNamed] at h
    rw [lower, isNamed]
    exact branchesNamed_lowerBranches branches h
  | .text value => rw [lower, isNamed]
  | .insertion source raw => rw [lower, isNamed]
  | .statement code => rw [lower, isNamed]

theorem allNamed_lowerAll (nodes : List Node) (h : allNamed nodes = true) :
    allNamed (lowerAll nodes) = true := by
  match nodes with
  | [] => rw [lowerAll, allNamed]
  | node :: rest =>
    rw [allNamed, Bool.and_eq_true] at h
    rw [lowerAll, allNamed, isNamed_lower node h.1, allNamed_lowerAll rest h.2]
    rfl

theorem branchesNamed_lowerBranches (branches : List Branch) (h : branchesNamed branches = true) :
    branchesNamed (lowerBranches branches) = true := by
  match branches with
  | [] => rw [lowerBranches, branchesNamed]
  | .mk guard children :: rest =>
    rw [branchesNamed, Bool.and_eq_true] at h
    rw [lowerBranches, lowerBranch, branchesNamed,
      allNamed_foldRuns (allNamed_lowerAll children h.1), branchesNamed_lowerBranches rest h.2]
    rfl

end

theorem allNamed_lowered {nodes : List Node} (h : allNamed nodes = true) :
    allNamed (lowered nodes) = true :=
  allNamed_foldRuns (allNamed_lowerAll nodes h)

end Node

end IndentMarkup
