import IndentMarkup.Markup.Outline
import Mathlib.Data.List.TakeWhile

/-!
# Bodies of lines

What a run of lines adds to the container that they belong to, by recursion on the lines: the lines
behind a container that are indented deeper than it, up to the first that is not, are its body. The
stack of open containers computes the same. The frames on it are indented more and more from the
outside in, so a line that is indented deeper than the innermost of them never closes one, and
whatever is opened inside a body has been closed again where the body ends.
-/
namespace IndentMarkup

namespace Opening

def mergeAll (o : Opening) (pairs : List AttributePair) : Opening := pairs.foldl merge o

/-- The node with the attributes and nodes that its body adds. -/
def close (o : Opening) (pairs : List AttributePair) (nodes : List Node) : Node :=
  (o.mergeAll pairs).node.withChildren (o.node.children ++ nodes)

theorem mergeAll_element (tag : String) (attributes : Attributes) (children : List Node)
    (shorthand : Option String) (pairs : List AttributePair) :
    mergeAll ⟨.element tag attributes children, shorthand⟩ pairs =
      ⟨.element tag (attributes.mergeAll shorthand pairs) children, shorthand⟩ := by
  induction pairs generalizing attributes with
  | nil => rfl
  | cons pair rest ih => exact ih _

theorem isContainer_of_isElement {o : Opening} (h : o.isElement = true) :
    o.node.isContainer = true := by
  obtain ⟨node, shorthandClass⟩ := o
  cases node with
  | element => rfl
  | _ => cases h

theorem merge_of_not_isElement {o : Opening} (h : o.isElement = false) (pair : AttributePair) :
    o.merge pair = o := by
  obtain ⟨node, shorthandClass⟩ := o
  cases node with
  | element => cases h
  | _ => rfl

theorem mergeAll_of_not_isElement {o : Opening} (h : o.isElement = false)
    (pairs : List AttributePair) : o.mergeAll pairs = o := by
  unfold mergeAll
  induction pairs with
  | nil => rfl
  | cons pair rest ih => rw [List.foldl_cons, merge_of_not_isElement h, ih]

theorem isElement_merge (o : Opening) (pair : AttributePair) :
    (o.merge pair).isElement = o.isElement := by
  obtain ⟨node, shorthandClass⟩ := o
  cases node <;> rfl

theorem isContainer_mergeAll (o : Opening) (pairs : List AttributePair) :
    (o.mergeAll pairs).node.isContainer = o.node.isContainer := by
  unfold mergeAll
  induction pairs generalizing o with
  | nil => rfl
  | cons pair rest ih =>
    rw [List.foldl_cons, ih]
    obtain ⟨node, shorthandClass⟩ := o
    cases node <;> rfl

end Opening

namespace Outline

/-- The attribute that a line consists of, if the line belongs to an element. -/
def continuation? (inElement : Bool) (text : List Char) : Option AttributePair :=
  if inElement then SimpleAttribute.ofLine? text else none

/-- The attributes and the nodes that lines add to the container they belong to. -/
def body (fallbackTag : String) (inElement : Bool) :
    List Line → List AttributePair × List Node
  | [] => ([], [])
  | line :: rest =>
    match continuation? inElement line.text with
    | some pair =>
      let after := body fallbackTag inElement rest
      (pair :: after.1, after.2)
    | none =>
      if (Opening.ofLine fallbackTag line).node.isContainer then
        let inner := body fallbackTag (Opening.ofLine fallbackTag line).isElement
          (rest.takeWhile fun l => line.indent < l.indent)
        let after := body fallbackTag inElement (rest.dropWhile fun l => line.indent < l.indent)
        (after.1, (Opening.ofLine fallbackTag line).close inner.1 inner.2 :: after.2)
      else
        let after := body fallbackTag inElement rest
        (after.1, (Opening.ofLine fallbackTag line).node :: after.2)
termination_by lines => lines.length
decreasing_by
  · exact Nat.lt_succ_self _
  · exact Nat.lt_succ_of_le (List.takeWhile_sublist _).length_le
  · exact Nat.lt_succ_of_le (List.dropWhile_sublist _).length_le
  · exact Nat.lt_succ_self _

section

variable {fallbackTag : String} {inElement : Bool} {line : Line}

theorem body_of_continuation {pair : AttributePair}
    (h : continuation? inElement line.text = some pair) (rest : List Line) :
    body fallbackTag inElement (line :: rest) =
      (pair :: (body fallbackTag inElement rest).1, (body fallbackTag inElement rest).2) := by
  rw [body, h]

variable (h : continuation? inElement line.text = none)
include h

theorem body_of_container (hc : (Opening.ofLine fallbackTag line).node.isContainer = true)
    (rest : List Line) :
    body fallbackTag inElement (line :: rest) =
      let opening := Opening.ofLine fallbackTag line
      let inner := body fallbackTag opening.isElement
        (rest.takeWhile fun l => line.indent < l.indent)
      let after := body fallbackTag inElement (rest.dropWhile fun l => line.indent < l.indent)
      (after.1, opening.close inner.1 inner.2 :: after.2) := by
  rw [body, h]
  exact if_pos hc

theorem body_of_leaf (hc : ¬ (Opening.ofLine fallbackTag line).node.isContainer = true)
    (rest : List Line) :
    body fallbackTag inElement (line :: rest) =
      ((body fallbackTag inElement rest).1,
        (Opening.ofLine fallbackTag line).node :: (body fallbackTag inElement rest).2) := by
  rw [body, h]
  exact if_neg hc

end

/-- The least column that closes no frame. -/
def floor (o : Outline) : Nat :=
  match o.frames with
  | [] => 0
  | frame :: _ => frame.indent + 1

def inElement (o : Outline) : Bool :=
  match o.frames with
  | [] => false
  | frame :: _ => frame.opening.isElement

def extend (o : Outline) (pairs : List AttributePair) (nodes : List Node) : Outline :=
  match o.frames with
  | [] => { o with nodes := o.nodes ++ nodes }
  | frame :: rest =>
    let extended : Frame :=
      ⟨frame.indent, frame.opening.mergeAll pairs, frame.children ++ nodes⟩
    { o with frames := extended :: rest }

theorem close_of_floor_le {indent : Nat} {o : Outline} (h : o.floor ≤ indent) :
    o.close indent = o := by
  rw [close]
  unfold floor at h
  split
  · rfl
  · next frame rest hf =>
    rw [hf] at h
    rw [if_pos (Nat.lt_of_succ_le h)]

theorem close_cons {indent : Nat} {frame : Frame} {rest : List Frame} {nodes : List Node}
    (h : ¬ frame.indent < indent) :
    close indent ⟨frame :: rest, nodes⟩ = close indent (append ⟨rest, nodes⟩ frame.node) := by
  rw [close]
  exact if_neg h

/-- Closing fewer frames first makes no difference. -/
theorem close_close {c d : Nat} (h : c ≤ d) (o : Outline) : close c (close d o) = close c o := by
  fun_induction close d o with
  | case1 o hf => rfl
  | case2 o frame rest hf hlt => rfl
  | case3 o frame rest hf hlt ih =>
    obtain ⟨frames, nodes⟩ := o
    cases hf
    rw [ih, close_cons (by omega)]

theorem floor_append (o : Outline) (node : Node) : (o.append node).floor = o.floor := by
  obtain ⟨frames, nodes⟩ := o
  cases frames <;> rfl

theorem inElement_append (o : Outline) (node : Node) :
    (o.append node).inElement = o.inElement := by
  obtain ⟨frames, nodes⟩ := o
  cases frames <;> rfl

theorem append_extend (o : Outline) (node : Node) (pairs : List AttributePair)
    (nodes : List Node) : (o.append node).extend pairs nodes = o.extend pairs (node :: nodes) := by
  obtain ⟨frames, before⟩ := o
  cases frames with
  | nil => simp [append, extend]
  | cons frame rest => simp [append, extend, Frame.append]

theorem extend_nil (o : Outline) : o.extend [] [] = o := by
  obtain ⟨frames, nodes⟩ := o
  cases frames with
  | nil => simp [extend]
  | cons frame rest => simp [extend, Opening.mergeAll]

theorem absorb?_eq (o : Outline) (text : List Char) :
    o.absorb? text =
      (continuation? o.inElement text).map fun pair => o.extend [pair] [] := by
  obtain ⟨frames, nodes⟩ := o
  cases frames with
  | nil => rfl
  | cons frame rest =>
    simp only [absorb?, Frame.absorb?, inElement, continuation?]
    by_cases he : frame.opening.isElement = true
    · cases SimpleAttribute.ofLine? text <;> simp [he, extend, Opening.mergeAll]
    · simp [he]

theorem floor_extend (o : Outline) (pairs : List AttributePair) (nodes : List Node) :
    (o.extend pairs nodes).floor = o.floor := by
  obtain ⟨frames, before⟩ := o
  cases frames <;> rfl

theorem inElement_extend (o : Outline) (pair : AttributePair) (nodes : List Node) :
    (o.extend [pair] nodes).inElement = o.inElement := by
  obtain ⟨frames, before⟩ := o
  cases frames with
  | nil => rfl
  | cons frame rest => exact Opening.isElement_merge frame.opening pair

theorem extend_extend (o : Outline) (pair : AttributePair) (pairs : List AttributePair)
    (nodes : List Node) :
    (o.extend [pair] []).extend pairs nodes = o.extend (pair :: pairs) nodes := by
  obtain ⟨frames, before⟩ := o
  cases frames with
  | nil => simp [extend]
  | cons frame rest => simp [extend, Opening.mergeAll]

/-- The frames are indented more and more, from the outermost to the innermost. -/
def Increasing (o : Outline) : Prop := (o.frames.map Frame.indent).Pairwise fun c d => d < c

theorem indents_append (o : Outline) (node : Node) :
    (o.append node).frames.map Frame.indent = o.frames.map Frame.indent := by
  obtain ⟨frames, nodes⟩ := o
  cases frames <;> rfl

theorem indents_extend (o : Outline) (pairs : List AttributePair) (nodes : List Node) :
    (o.extend pairs nodes).frames.map Frame.indent = o.frames.map Frame.indent := by
  obtain ⟨frames, before⟩ := o
  cases frames <;> rfl

/-- Closing removes the innermost frames that are not indented less than the column. -/
theorem indents_close (indent : Nat) (o : Outline) :
    (close indent o).frames.map Frame.indent =
      (o.frames.map Frame.indent).dropWhile fun c => ¬ c < indent := by
  fun_induction close indent o with
  | case1 o hf => rw [hf]; rfl
  | case2 o frame rest hf hlt =>
    rw [hf, List.map_cons, List.dropWhile_cons, if_neg (by simpa using hlt)]
  | case3 o frame rest hf hlt ih =>
    rw [ih, indents_append, hf, List.map_cons, List.dropWhile_cons, if_pos (by simpa using hlt)]

theorem Increasing.close {o : Outline} (h : o.Increasing) (indent : Nat) :
    (o.close indent).Increasing := by
  unfold Increasing
  rw [indents_close]
  exact h.sublist (List.dropWhile_sublist _)

theorem floor_close_le (indent : Nat) (o : Outline) : (o.close indent).floor ≤ indent := by
  fun_induction Outline.close indent o with
  | case1 o hf =>
    unfold floor
    rw [hf]
    exact Nat.zero_le _
  | case2 o frame rest hf hlt =>
    unfold floor
    rw [hf]
    exact hlt
  | case3 o frame rest hf hlt ih => exact ih

section

variable (fallbackTag : String)

/-- What a line does depends only on what it leaves open. -/
theorem push_congr {o p : Outline} {line : Line} (h : close line.indent o = close line.indent p) :
    push fallbackTag o line = push fallbackTag p line := by
  unfold push
  rw [h]

theorem push_of_floor_le {o : Outline} {line : Line} (h : o.floor ≤ line.indent) :
    push fallbackTag o line =
      match continuation? o.inElement line.text with
      | some pair => o.extend [pair] []
      | none =>
        let opening := Opening.ofLine fallbackTag line
        if opening.node.isContainer then
          { o with frames := .ofOpening line.indent opening :: o.frames }
        else o.append opening.node := by
  unfold push
  rw [close_of_floor_le h]
  dsimp only
  rw [absorb?_eq]
  cases (continuation? o.inElement line.text) <;> rfl

theorem push_eq_push_close (o : Outline) (line : Line) :
    push fallbackTag o line = push fallbackTag (o.close line.indent) line :=
  push_congr fallbackTag (close_close (Nat.le_refl _) o).symm

theorem Increasing.cons {o : Outline} (h : o.Increasing) {frame : Frame}
    (hf : o.floor ≤ frame.indent) : Increasing { o with frames := frame :: o.frames } := by
  obtain ⟨frames, nodes⟩ := o
  refine List.Pairwise.cons ?_ h
  intro c hc
  cases frames with
  | nil => cases hc
  | cons top rest =>
    have ht : top.indent < frame.indent := hf
    rcases List.mem_cons.1 hc with rfl | hm
    · exact ht
    · exact Nat.lt_trans ((List.pairwise_cons.1 h).1 c hm) ht

/-- A line keeps the frames in order: what it opens is indented deeper than what it leaves open. -/
theorem Increasing.push {o : Outline} (h : o.Increasing) (line : Line) :
    (push fallbackTag o line).Increasing := by
  have hc := h.close line.indent
  have hf := floor_close_le line.indent o
  rw [push_eq_push_close, push_of_floor_le fallbackTag hf]
  split
  · unfold Increasing
    rw [indents_extend]
    exact hc
  · dsimp only
    split
    · exact hc.cons hf
    · unfold Increasing
      rw [indents_append]
      exact hc

theorem increasing_foldl_push (lines : List Line) {o : Outline} (h : o.Increasing) :
    (lines.foldl (Outline.push fallbackTag) o).Increasing := by
  induction lines generalizing o with
  | nil => exact h
  | cons line rest ih =>
    rw [List.foldl_cons]
    exact ih (h.push fallbackTag line)

theorem foldl_push_congr {o p : Outline} {lines : List Line} {c : Nat}
    (hc : close c o = close c p)
    (h : ∀ line ∈ lines.head?, close line.indent o = close line.indent p) :
    close c (lines.foldl (push fallbackTag) o) = close c (lines.foldl (push fallbackTag) p) := by
  cases lines with
  | nil => exact hc
  | cons line rest => rw [List.foldl_cons, List.foldl_cons, push_congr fallbackTag (h line rfl)]

/-- The first line behind the body of a container closes it, whatever the body has left open. -/
theorem close_foldl_push_behind {x : Outline} {frame : Frame} {frames : List Frame}
    {nodes : List Node} (hx : close (frame.indent + 1) x = ⟨frame :: frames, nodes⟩) {c : Nat}
    (hc : c ≤ frame.indent) (outer : List Line)
    (ho : ∀ line ∈ outer.head?, ¬ frame.indent < line.indent) :
    close c (outer.foldl (push fallbackTag) x) =
      close c (outer.foldl (push fallbackTag) (append ⟨frames, nodes⟩ frame.node)) := by
  have he : ∀ d, d ≤ frame.indent → close d x = close d (append ⟨frames, nodes⟩ frame.node) := by
    intro d hd
    rw [← close_close (Nat.le_succ_of_le hd), hx]
    exact close_cons (Nat.not_lt.2 hd)
  apply foldl_push_congr
  · exact he c hc
  · intro line hl
    exact he line.indent (Nat.le_of_not_lt (ho line hl))

theorem indent_lt_of_mem_takeWhile {line l : Line} {rest : List Line}
    (h : l ∈ rest.takeWhile fun l => line.indent < l.indent) : line.indent < l.indent := by
  simpa using List.mem_takeWhile_imp h

theorem not_indent_lt_of_mem_head? {line l : Line} {rest : List Line}
    (h : l ∈ (rest.dropWhile fun l => line.indent < l.indent).head?) :
    ¬ line.indent < l.indent := by
  have hn := List.head?_dropWhile_not (fun l : Line => decide (line.indent < l.indent)) rest
  rw [Option.mem_def.1 h] at hn
  simpa using hn

/-- Lines that close no frame add their body to the innermost open container, and whatever they open
is closed by the first column that closes none of the frames that were open before. -/
theorem close_foldl_push {inElement : Bool} {lines : List Line} {o : Outline}
    (he : o.inElement = inElement) (h : ∀ line ∈ lines, o.floor ≤ line.indent) :
    close o.floor (lines.foldl (push fallbackTag) o) =
      o.extend (body fallbackTag inElement lines).1 (body fallbackTag inElement lines).2 := by
  induction inElement, lines using body.induct fallbackTag generalizing o with
  | case1 inElement =>
    rw [List.foldl_nil, close_of_floor_le (Nat.le_refl _), body, extend_nil]
  | case2 inElement line rest pair hp ih =>
    have hl : o.floor ≤ line.indent := h line List.mem_cons_self
    have hb := ih (o := o.extend [pair] []) (by rw [inElement_extend, he])
      (fun l hm => by rw [floor_extend]; exact h l (List.mem_cons_of_mem _ hm))
    rw [List.foldl_cons, push_of_floor_le fallbackTag hl, he, hp, body_of_continuation hp]
    rw [floor_extend, extend_extend] at hb
    exact hb
  | case3 inElement line rest hp hc ih₁ ih₂ =>
    have hl : o.floor ≤ line.indent := h line List.mem_cons_self
    rw [List.foldl_cons, push_of_floor_le fallbackTag hl, he, hp, body_of_container hp hc]
    dsimp only
    rw [if_pos hc]
    generalize Opening.ofLine fallbackTag line = opening at hc ih₁ ⊢
    have hi := ih₁ (o := ⟨.ofOpening line.indent opening :: o.frames, o.nodes⟩) rfl
      fun l hm => indent_lt_of_mem_takeWhile hm
    generalize body fallbackTag opening.isElement _ = inner at hi ⊢
    let closed : Frame :=
      ⟨line.indent, opening.mergeAll inner.1, opening.node.children ++ inner.2⟩
    have hx : close (closed.indent + 1) _ = ⟨closed :: o.frames, o.nodes⟩ := hi
    have hb := close_foldl_push_behind fallbackTag hx hl
      (rest.dropWhile fun l => line.indent < l.indent) fun l hm => not_indent_lt_of_mem_head? hm
    rw [← List.foldl_append, List.takeWhile_append_dropWhile] at hb
    have hr : ∀ l ∈ rest.dropWhile (fun l => line.indent < l.indent), o.floor ≤ l.indent :=
      fun l hm => h l (List.mem_cons_of_mem _ ((List.dropWhile_sublist _).subset hm))
    have ha := ih₂ (o := o.append closed.node) (by rw [inElement_append, he])
      (by rwa [floor_append])
    rw [floor_append, append_extend] at ha
    exact hb.trans ha
  | case4 inElement line rest hp hc ih =>
    have hl : o.floor ≤ line.indent := h line List.mem_cons_self
    rw [List.foldl_cons, push_of_floor_le fallbackTag hl, he, hp, body_of_leaf hp hc]
    dsimp only
    rw [if_neg hc]
    generalize (Opening.ofLine fallbackTag line).node = node
    have hb := ih (o := o.append node) (by rw [inElement_append, he])
      (fun l hm => by rw [floor_append]; exact h l (List.mem_cons_of_mem _ hm))
    rw [floor_append, append_extend] at hb
    exact hb

end

/-- The stack computes the body of all lines. -/
theorem ofLines_eq_body (fallbackTag : String) (lines : List Line) :
    ofLines fallbackTag lines = (body fallbackTag false lines).2 := by
  have hb := close_foldl_push fallbackTag (o := start) rfl fun l (_ : l ∈ lines) => Nat.zero_le _
  have hf : close 0 (lines.foldl (push fallbackTag) start) = _ := hb
  rw [ofLines, finish, hf]
  exact List.nil_append _

end Outline

end IndentMarkup
