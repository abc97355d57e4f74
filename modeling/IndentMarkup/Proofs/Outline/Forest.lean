import IndentMarkup.Proofs.Outline.Bodies
import IndentMarkup.Proofs.Outline.Lines

/-!
# The nesting that indentation declares

The parent of a line is said without a stack: it is the last container before the line behind which
every line, up to this one, is indented deeper than it. A line is absorbed if its parent is an
element and the line consists of one attribute. The forest puts every line that is not absorbed
below its parent, in the order of the source, and adds the attribute of every line that is absorbed
to its parent. Reading a source gives the forest of its lines, unless it breaks off at one of them.
Read from top to bottom, the forest shows the nodes of its lines in the order of the source.
-/
namespace IndentMarkup

mutual

/-- A node and what stands inside it, from top to bottom, each container without its children. -/
def Node.preorder : Node → List Node
  | .element tag attributes children => .element tag attributes [] :: preorderAll children
  | .ifThen condition children => .ifThen condition [] :: preorderAll children
  | .elseIf condition children => .elseIf condition [] :: preorderAll children
  | .otherwise children => .otherwise [] :: preorderAll children
  | .loop head children => .loop head [] :: preorderAll children
  | node => [node]

def Node.preorderAll : List Node → List Node
  | [] => []
  | node :: rest => node.preorder ++ preorderAll rest

end

theorem Node.preorderAll_append (before behind : List Node) :
    preorderAll (before ++ behind) = preorderAll before ++ preorderAll behind := by
  induction before with
  | nil => rfl
  | cons node rest ih => rw [List.cons_append, preorderAll, preorderAll, ih, List.append_assoc]

namespace Directive

/-- Whether the deeper lines behind a line belong to it. -/
def opens : Directive → Bool
  | .element _ | .ifThen _ | .elseIf _ | .otherwise | .loop _ => true
  | .literal _ | .text _ | .expression _ | .statement _ => false

/-- The node of a line with the attributes and the nodes that the lines below it add. -/
def node (fallbackTag : String) (pairs : List AttributePair) (nested : List Node) :
    Directive → Node
  | .literal t => .text t
  | .text segments => .ofSegments segments
  | .element head =>
    let line := OpenElement.ofHead fallbackTag head
    .element line.tag (line.attributes.mergeAll line.shorthandClass pairs) (line.content ++ nested)
  | .expression source => .ofSource source
  | .statement code => .statement code
  | .ifThen condition => .ifThen condition nested
  | .elseIf condition => .elseIf condition nested
  | .otherwise => .otherwise nested
  | .loop head => .loop head nested

/-- The nodes of the lines below a line stand behind everything on the line itself. -/
theorem preorder_node {fallbackTag : String} {d : Directive} {pairs : List AttributePair}
    {nested : List Node} (h : d.opens = false → nested = []) :
    (d.node fallbackTag pairs nested).preorder =
      (d.node fallbackTag pairs []).preorder ++ Node.preorderAll nested := by
  cases d with
  | element head => simp [node, Node.preorder, Node.preorderAll_append]
  | ifThen | elseIf | otherwise | loop => rfl
  | literal | text | expression | statement =>
    rw [h rfl]
    exact (List.append_nil _).symm

theorem isContainer_ofDirective (fallbackTag : String) (d : Directive) :
    (Opening.ofDirective fallbackTag d).node.isContainer = d.opens := by
  cases d with
  | text segments => exact Node.isContainer_ofSegments segments
  | _ => rfl

theorem isElement_ofDirective (fallbackTag : String) (d : Directive) :
    (Opening.ofDirective fallbackTag d).isElement = true ↔ ∃ head, d = .element head := by
  constructor
  · intro h
    cases d with
    | element head => exact ⟨head, rfl⟩
    | text segments =>
      have hc := Opening.isContainer_of_isElement h
      rw [isContainer_ofDirective] at hc
      cases hc
    | _ => cases h
  · rintro ⟨head, rfl⟩
    rfl

theorem close_ofDirective (fallbackTag : String) (d : Directive) (pairs : List AttributePair)
    {nested : List Node} (h : d.opens = false → nested = []) :
    (Opening.ofDirective fallbackTag d).close pairs nested = d.node fallbackTag pairs nested := by
  by_cases he : ∃ head, d = .element head
  · obtain ⟨head, rfl⟩ := he
    rw [Opening.ofDirective, Opening.close, OpenElement.node, Opening.mergeAll_element]
    rfl
  · rw [← isElement_ofDirective fallbackTag, Bool.not_eq_true] at he
    rw [Opening.close, Opening.mergeAll_of_not_isElement he]
    cases d with
    | element head => cases he
    | text segments =>
      rw [h rfl, List.append_nil]
      exact Node.withChildren_children _
    | _ => rfl

end Directive

/-- The greatest number below a bound that a test accepts. -/
def greatestBelow? (test : Nat → Bool) : Nat → Option Nat
  | 0 => none
  | n + 1 => if test n then some n else greatestBelow? test n

theorem greatestBelow?_eq_none_iff {test : Nat → Bool} {n : Nat} :
    greatestBelow? test n = none ↔ ∀ i, i < n → test i = false := by
  induction n with
  | zero => simp [greatestBelow?]
  | succ n ih =>
    rw [greatestBelow?]
    constructor
    · intro h i hi
      split at h
      · cases h
      · next hn =>
        rcases Nat.lt_succ_iff_lt_or_eq.1 hi with hl | rfl
        · exact ih.1 h i hl
        · simpa using hn
    · intro h
      rw [if_neg (by simp [h n (Nat.lt_succ_self n)])]
      exact ih.2 fun i hi => h i (Nat.lt_succ_of_lt hi)

theorem greatestBelow?_eq_some_iff {test : Nat → Bool} {n m : Nat} :
    greatestBelow? test n = some m ↔
      m < n ∧ test m = true ∧ ∀ i, m < i → i < n → test i = false := by
  induction n with
  | zero => simp [greatestBelow?]
  | succ n ih =>
    rw [greatestBelow?]
    constructor
    · intro h
      split at h
      · next hn =>
        cases h
        exact ⟨Nat.lt_succ_self _, hn, fun i hi hl => by omega⟩
      · next hn =>
        obtain ⟨hm, ht, hg⟩ := ih.1 h
        refine ⟨Nat.lt_succ_of_lt hm, ht, fun i hi hl => ?_⟩
        rcases Nat.lt_succ_iff_lt_or_eq.1 hl with hl | rfl
        · exact hg i hi hl
        · simpa using hn
    · rintro ⟨hm, ht, hg⟩
      rcases Nat.lt_succ_iff_lt_or_eq.1 hm with hl | rfl
      · rw [if_neg (by simp [hg n hl (Nat.lt_succ_self n)])]
        exact ih.2 ⟨hl, ht, fun i hi hn => hg i hi (Nat.lt_succ_of_lt hn)⟩
      · rw [if_pos ht]

namespace Forest

section

variable (fallbackTag : String) (lines : List Line)

/-- The line of a number, counted from zero. -/
def lineAt (j : Nat) : Line := lines.getD j ⟨0, []⟩

def directiveAt (j : Nat) : Directive := .ofTrimmed (lineAt lines j).text

def openingAt (j : Nat) : Opening := Opening.ofLine fallbackTag (lineAt lines j)

/-- The lines behind line `i`, up to line `j`, are indented deeper than line `i`. -/
def Covers (i j : Nat) : Prop := ∀ k ≤ j, i < k → (lineAt lines i).indent < (lineAt lines k).indent

instance (i j : Nat) : Decidable (Covers lines i j) :=
  inferInstanceAs (Decidable (∀ k ≤ j, i < k → (lineAt lines i).indent < (lineAt lines k).indent))

def parent? (j : Nat) : Option Nat :=
  greatestBelow? (fun i => (openingAt fallbackTag lines i).node.isContainer && Covers lines i j) j

def isElementAt (p : Option Nat) : Bool :=
  match p with
  | some i => (openingAt fallbackTag lines i).isElement
  | none => false

/-- The attribute that a line adds to its parent, if it does; such a line is absorbed. -/
def attribute? (j : Nat) : Option AttributePair :=
  Outline.continuation? (isElementAt fallbackTag lines (parent? fallbackTag lines j))
    (lineAt lines j).text

/-- The lines with a given parent, or those without one. -/
def below (p : Option Nat) : List Nat :=
  (List.range lines.length).filter fun j => parent? fallbackTag lines j = p

def attributesBelow (p : Option Nat) : List AttributePair :=
  (below fallbackTag lines p).filterMap fun j => attribute? fallbackTag lines j

/-- The lines with a given parent that are not absorbed. -/
def nodesBelow (p : Option Nat) : List Nat :=
  (below fallbackTag lines p).filter fun j => (attribute? fallbackTag lines j).isNone

theorem parent?_lt {i j : Nat} (h : parent? fallbackTag lines j = some i) : i < j :=
  (greatestBelow?_eq_some_iff.1 h).1

theorem lt_of_mem_below {i j : Nat} (h : j ∈ below fallbackTag lines (some i)) :
    lines.length - j < lines.length - i := by
  simp only [below, List.mem_filter, List.mem_range, decide_eq_true_eq] at h
  have hl := parent?_lt fallbackTag lines h.2
  omega

/-- The node of a line: with the attributes of the lines it absorbs, and with the nodes of the other
lines below it behind the children on its own line. -/
def nodeAt (j : Nat) : Node :=
  (directiveAt lines j).node fallbackTag (attributesBelow fallbackTag lines (some j))
    ((nodesBelow fallbackTag lines (some j)).attach.map fun k => nodeAt k.1)
termination_by lines.length - j
decreasing_by exact lt_of_mem_below fallbackTag lines (List.mem_filter.1 k.2).1

def nodes : List Node := (nodesBelow fallbackTag lines none).map (nodeAt fallbackTag lines)

/-- The numbers of a line and of all lines below it, from the top of the tree to its bottom. -/
def linesFrom (j : Nat) : List Nat :=
  j :: (below fallbackTag lines (some j)).attach.flatMap fun k => linesFrom k.1
termination_by lines.length - j
decreasing_by exact lt_of_mem_below fallbackTag lines k.2

theorem nodeAt_eq_node (j : Nat) :
    nodeAt fallbackTag lines j =
      (directiveAt lines j).node fallbackTag (attributesBelow fallbackTag lines (some j))
        ((nodesBelow fallbackTag lines (some j)).map (nodeAt fallbackTag lines)) := by
  rw [nodeAt, List.attach_map_val (f := nodeAt fallbackTag lines)]

/-- What a line shows by itself: its node without those of the lines below it, from top to bottom.
-/
def shownAt (j : Nat) : List Node :=
  ((directiveAt lines j).node fallbackTag (attributesBelow fallbackTag lines (some j)) []).preorder

theorem linesFrom_eq (j : Nat) :
    linesFrom fallbackTag lines j =
      j :: (below fallbackTag lines (some j)).flatMap (linesFrom fallbackTag lines) := by
  rw [linesFrom, List.flatMap_def, List.attach_map_val (f := linesFrom fallbackTag lines),
    ← List.flatMap_def]

def Opens (i : Nat) : Prop := (openingAt fallbackTag lines i).node.isContainer = true

variable {fallbackTag lines}

theorem opens_iff {i : Nat} :
    Opens fallbackTag lines i ↔ (directiveAt lines i).opens = true := by
  rw [Opens, openingAt, Opening.ofLine, Directive.isContainer_ofDirective]
  rfl

theorem isElementAt_eq_true_iff {p : Option Nat} : isElementAt fallbackTag lines p = true ↔
    ∃ i head, p = some i ∧ directiveAt lines i = .element head := by
  cases p with
  | none => simp [isElementAt]
  | some i =>
    rw [isElementAt, openingAt, Opening.ofLine, Directive.isElement_ofDirective]
    constructor
    · rintro ⟨head, h⟩
      exact ⟨i, head, rfl, h⟩
    · rintro ⟨k, head, h, hd⟩
      cases h
      exact ⟨head, hd⟩

theorem parent?_eq_some_iff {i j : Nat} :
    parent? fallbackTag lines j = some i ↔
      i < j ∧ Opens fallbackTag lines i ∧ Covers lines i j ∧
        ∀ k, i < k → k < j → Opens fallbackTag lines k → ¬ Covers lines k j := by
  unfold parent? Opens
  rw [greatestBelow?_eq_some_iff]
  simp only [Bool.and_eq_true, decide_eq_true_eq, Bool.and_eq_false_imp, decide_eq_false_iff_not,
    and_assoc]

theorem parent?_eq_none_iff {j : Nat} :
    parent? fallbackTag lines j = none ↔
      ∀ i, i < j → Opens fallbackTag lines i → ¬ Covers lines i j := by
  unfold parent? Opens
  rw [greatestBelow?_eq_none_iff]
  simp only [Bool.and_eq_false_imp, decide_eq_false_iff_not]

theorem Covers.of_le {i j k : Nat} (h : Covers lines i k) (hj : j ≤ k) : Covers lines i j :=
  fun m hm hi => h m (Nat.le_trans hm hj) hi

theorem Covers.trans {i j k l : Nat} (h : Covers lines i k) (hi : i < j) (hk : j ≤ k)
    (h' : Covers lines j l) : Covers lines i l := by
  intro m hm him
  by_cases hj : m ≤ j
  · exact h m (Nat.le_trans hj hk) him
  · exact Nat.lt_trans (h j hk hi) (h' m hm (by omega))

/-- The lines behind a line are those that it covers and those behind the first that it does not. -/
theorem exists_body (lines : List Line) (a n : Nat) :
    ∃ m r, n = m + r ∧ Covers lines a (a + m) ∧ (r = 0 ∨ ¬ Covers lines a (a + m + 1)) := by
  induction n with
  | zero => exact ⟨0, 0, rfl, fun k hk hi => by omega, .inl rfl⟩
  | succ n ih =>
    obtain ⟨m, r, rfl, hd, he⟩ := ih
    rcases he with rfl | he
    · by_cases hc : Covers lines a (a + m + 1)
      · exact ⟨m + 1, 0, rfl, hc, .inl rfl⟩
      · exact ⟨m, 1, rfl, hd, .inr hc⟩
    · exact ⟨m, r + 1, rfl, hd, .inr he⟩

variable (fallbackTag lines)

/-- Lines next to each other, some of which belong to `p` and the others to lines among them: every
container between `p` and them ends in front of them, and none of theirs reaches behind them. -/
structure Block (p : Option Nat) (a m : Nat) : Prop where
  bound : a + m ≤ lines.length
  parent : ∀ i, p = some i → i < a ∧ Opens fallbackTag lines i ∧ ∀ j, j < a + m → Covers lines i j
  closed : ∀ i j, (∀ q, p = some q → q < i) → i < a → a ≤ j → j < a + m →
    Opens fallbackTag lines i → ¬ Covers lines i j
  within : ∀ i j, a ≤ i → i < a + m → a + m ≤ j → j < lines.length → ¬ Covers lines i j

variable {fallbackTag lines} {p : Option Nat} {a m : Nat}

variable (fallbackTag lines) in
theorem block_all : Block fallbackTag lines none 0 lines.length where
  bound := by omega
  parent := by
    intro i h
    cases h
  closed := by
    intro i j _ h
    omega
  within := by
    intro i j _ _ h
    omega

/-- A line of a block belongs to what the block belongs to, or to another line of the block. -/
theorem Block.parent?_of_mem (h : Block fallbackTag lines p a m) {j : Nat} (hj : a ≤ j)
    (hm : j < a + m) :
    parent? fallbackTag lines j = p ∨ ∃ i, a ≤ i ∧ parent? fallbackTag lines j = some i := by
  cases hp : parent? fallbackTag lines j with
  | none =>
    left
    cases p with
    | none => rfl
    | some q =>
      obtain ⟨hq, ho, hc⟩ := h.parent q rfl
      exact (parent?_eq_none_iff.1 hp q (by omega) ho (hc j hm)).elim
  | some i =>
    obtain ⟨hi, ho, hc, hg⟩ := parent?_eq_some_iff.1 hp
    by_cases ha : a ≤ i
    · exact .inr ⟨i, ha, rfl⟩
    · left
      cases p with
      | none => exact (h.closed i j (fun q hq => by cases hq) (by omega) hj hm ho hc).elim
      | some q =>
        obtain ⟨hq, hqo, hqc⟩ := h.parent q rfl
        rcases Nat.lt_trichotomy q i with hl | rfl | hl
        · have hb : ∀ r, some q = some r → r < i := by
            intro r hr
            cases hr
            exact hl
          exact (h.closed i j hb (by omega) hj hm ho hc).elim
        · rfl
        · exact (hg q hl (by omega) hqo (hqc j hm)).elim

theorem Block.parent?_first (h : Block fallbackTag lines p a (m + 1)) :
    parent? fallbackTag lines a = p := by
  rcases h.parent?_of_mem (Nat.le_refl a) (by omega) with he | ⟨i, hi, he⟩
  · exact he
  · have hl := parent?_lt fallbackTag lines he
    omega

/-- Behind a line that opens no container the block goes on. -/
theorem Block.tail (h : Block fallbackTag lines p a (m + 1)) (ho : ¬ Opens fallbackTag lines a) :
    Block fallbackTag lines p (a + 1) m where
  bound := by have := h.bound; omega
  parent := by
    intro i hi
    obtain ⟨ha, hc, hs⟩ := h.parent i hi
    exact ⟨by omega, hc, fun j hj => hs j (by omega)⟩
  closed := by
    intro i j hi ha hj hm hc
    rcases Nat.lt_succ_iff_lt_or_eq.1 ha with hl | rfl
    · exact h.closed i j hi hl (by omega) (by omega) hc
    · exact (ho hc).elim
  within := by
    intro i j hi hm hj hn
    exact h.within i j (by omega) (by omega) (by omega) hn

/-- The deeper lines behind a container are a block of their own, up to the first that is not
indented deeper. -/
theorem Block.inner {r : Nat} (h : Block fallbackTag lines p a (m + r + 1))
    (ho : Opens fallbackTag lines a) (hd : Covers lines a (a + m))
    (he : r = 0 ∨ ¬ Covers lines a (a + m + 1)) : Block fallbackTag lines (some a) (a + 1) m where
  bound := by have := h.bound; omega
  parent := by
    intro i hi
    cases hi
    exact ⟨by omega, ho, fun j hj => hd.of_le (by omega)⟩
  closed := by
    intro i j hi ha
    have := hi a rfl
    omega
  within := by
    intro i j hi hm hj hn hv
    by_cases hb : a + (m + r + 1) ≤ j
    · exact h.within i j (by omega) (by omega) hb hn hv
    · -- a line of the body that reaches behind it would take the container with it
      rcases he with hr | he
      · omega
      · exact he (hd.trans (by omega) (by omega) (hv.of_le (by omega)))

/-- The lines behind the body of a container go on with the block. -/
theorem Block.outer {r : Nat} (h : Block fallbackTag lines p a (m + r + 1))
    (ho : Opens fallbackTag lines a) (hd : Covers lines a (a + m))
    (he : r = 0 ∨ ¬ Covers lines a (a + m + 1)) : Block fallbackTag lines p (a + m + 1) r where
  bound := by have := h.bound; omega
  parent := by
    intro i hi
    obtain ⟨ha, hc, hs⟩ := h.parent i hi
    exact ⟨by omega, hc, fun j hj => hs j (by omega)⟩
  closed := by
    intro i j hi ha hj hm hc hv
    have hs : Covers lines i (a + m + 1) := hv.of_le hj
    rcases he with hr | he
    · omega
    rcases Nat.lt_trichotomy i a with hl | rfl | hl
    · exact h.closed i j hi hl (by omega) (by omega) hc hv
    · exact he hs
    · exact he (hd.trans hl (by omega) hs)
  within := by
    intro i j hi hm hj hn
    exact h.within i j (by omega) (by omega) (by omega) hn

/-- Every block is made up of lines that open no container and of containers with their bodies. -/
theorem Block.induct {motive : Option Nat → Nat → Nat → Prop}
    (nil : ∀ p a, motive p a 0)
    (leaf : ∀ p a m, Block fallbackTag lines p a (m + 1) → ¬ Opens fallbackTag lines a →
      motive p (a + 1) m → motive p a (m + 1))
    (container : ∀ p a m r, Block fallbackTag lines p a (m + r + 1) → Opens fallbackTag lines a →
      Covers lines a (a + m) → (r = 0 ∨ ¬ Covers lines a (a + m + 1)) →
      motive (some a) (a + 1) m → motive p (a + m + 1) r → motive p a (m + r + 1))
    (h : Block fallbackTag lines p a m) : motive p a m := by
  induction hn : m using Nat.strong_induction_on generalizing p a m with
  | _ n ih =>
    subst hn
    cases m with
    | zero => exact nil p a
    | succ n =>
      by_cases ho : Opens fallbackTag lines a
      · obtain ⟨m, r, rfl, hd, he⟩ := exists_body lines a n
        exact container p a m r h ho hd he (ih m (by omega) (h.inner ho hd he) rfl)
          (ih r (by omega) (h.outer ho hd he) rfl)
      · exact leaf p a n h ho (ih n (by omega) (h.tail ho) rfl)

variable (fallbackTag lines) in
def belowIn (p : Option Nat) (a m : Nat) : List Nat :=
  (List.range' a m).filter fun j => parent? fallbackTag lines j = p

theorem Block.belowIn_succ (h : Block fallbackTag lines p a (m + 1)) :
    belowIn fallbackTag lines p a (m + 1) = a :: belowIn fallbackTag lines p (a + 1) m := by
  unfold belowIn
  rw [List.range'_succ, List.filter_cons, if_pos (by simpa using h.parent?_first)]

theorem belowIn_add (p : Option Nat) (a m r : Nat) :
    belowIn fallbackTag lines p a (m + r) =
      belowIn fallbackTag lines p a m ++ belowIn fallbackTag lines p (a + m) r := by
  unfold belowIn
  rw [← List.filter_append, List.range'_append_1]

theorem belowIn_eq_nil (h : ∀ j, a ≤ j → j < a + m → parent? fallbackTag lines j ≠ p) :
    belowIn fallbackTag lines p a m = [] := by
  unfold belowIn
  rw [List.filter_eq_nil_iff]
  intro j hj hp
  rw [List.mem_range'_1] at hj
  exact h j hj.1 hj.2 (of_decide_eq_true hp)

/-- No line in the body of a container belongs to what the container belongs to. -/
theorem Block.belowIn_inner {q : Option Nat} (h : Block fallbackTag lines (some a) (a + 1) m)
    (hq : ∀ i, q = some i → i < a) : belowIn fallbackTag lines q (a + 1) m = [] := by
  refine belowIn_eq_nil fun j hj hm hp => ?_
  rcases h.parent?_of_mem hj hm with he | ⟨i, hi, he⟩
  · have := hq a (by rw [← hp, he])
    omega
  · have := hq i (by rw [← hp, he])
    omega

/-- The lines that belong to a container are found in its body. -/
theorem below_eq_belowIn (hm : a + 1 + m ≤ lines.length)
    (hx : ∀ j, a + 1 + m ≤ j → j < lines.length → ¬ Covers lines a j) :
    below fallbackTag lines (some a) = belowIn fallbackTag lines (some a) (a + 1) m := by
  obtain ⟨r, hr⟩ := Nat.exists_eq_add_of_le hm
  have hn : lines.length = a + 1 + (m + r) := by omega
  have hbefore : belowIn fallbackTag lines (some a) 0 (a + 1) = [] := by
    refine belowIn_eq_nil fun j _ hj hp => ?_
    have := parent?_lt fallbackTag lines hp
    omega
  have hbehind : belowIn fallbackTag lines (some a) (a + 1 + m) r = [] :=
    belowIn_eq_nil fun j hj hn hp => hx j hj (by omega) (parent?_eq_some_iff.1 hp).2.2.1
  have hall : below fallbackTag lines (some a) =
      belowIn fallbackTag lines (some a) 0 (a + 1 + (m + r)) := by
    rw [below, belowIn, hn, List.range_eq_range']
  rw [hall, belowIn_add, hbefore, belowIn_add, Nat.zero_add, hbehind, List.nil_append,
    List.append_nil]

theorem below_eq_nil_of_not_opens (h : ¬ Opens fallbackTag lines a) :
    below fallbackTag lines (some a) = [] := by
  unfold below
  rw [List.filter_eq_nil_iff]
  intro j _ hp
  exact h (parent?_eq_some_iff.1 (by simpa using hp)).2.1

theorem Block.below_container {r : Nat} (h : Block fallbackTag lines p a (m + r + 1))
    (he : r = 0 ∨ ¬ Covers lines a (a + m + 1)) :
    below fallbackTag lines (some a) = belowIn fallbackTag lines (some a) (a + 1) m := by
  have hb := h.bound
  refine below_eq_belowIn (by omega) fun j hj hn hv => ?_
  by_cases hl : a + (m + r + 1) ≤ j
  · exact h.within a j (Nat.le_refl a) (by omega) hl hn hv
  · rcases he with rfl | he
    · omega
    · exact he (hv.of_le (by omega))

theorem Block.belowIn_container {r : Nat} (h : Block fallbackTag lines p a (m + r + 1))
    (hi : Block fallbackTag lines (some a) (a + 1) m) :
    belowIn fallbackTag lines p a (m + r + 1) =
      a :: belowIn fallbackTag lines p (a + m + 1) r := by
  have hp : ∀ i, p = some i → i < a := fun i hi => (h.parent i hi).1
  rw [h.belowIn_succ, belowIn_add, hi.belowIn_inner hp, List.nil_append, Nat.add_right_comm]

/-- From the top of the tree to its bottom the lines of a block stand in their order, each once. -/
theorem Block.flatMap_linesFrom (h : Block fallbackTag lines p a m) :
    (belowIn fallbackTag lines p a m).flatMap (linesFrom fallbackTag lines) = List.range' a m := by
  refine Block.induct (motive := fun p a m => (belowIn fallbackTag lines p a m).flatMap
    (linesFrom fallbackTag lines) = List.range' a m) ?_ ?_ ?_ h
  · intro p a
    rfl
  · intro p a m h ho ih
    rw [h.belowIn_succ, List.flatMap_cons, ih, linesFrom_eq, below_eq_nil_of_not_opens ho,
      List.range'_succ]
    rfl
  · intro p a m r h ho hd he ih₁ ih₂
    rw [h.belowIn_container (h.inner ho hd he), List.flatMap_cons, ih₂, linesFrom_eq,
      h.below_container he, ih₁, List.range'_succ, Nat.add_right_comm, ← List.range'_append_1]
    rfl

variable (fallbackTag lines) in
/-- The attributes and the nodes of the lines of a block that belong to what the block belongs to.
-/
def contribution (p : Option Nat) (a m : Nat) : List AttributePair × List Node :=
  ((belowIn fallbackTag lines p a m).filterMap fun j => attribute? fallbackTag lines j,
    ((belowIn fallbackTag lines p a m).filter fun j =>
      (attribute? fallbackTag lines j).isNone).map (nodeAt fallbackTag lines))

theorem contribution_of_attribute {b n : Nat} {pair : AttributePair}
    (h : belowIn fallbackTag lines p a m = a :: belowIn fallbackTag lines p b n)
    (ha : attribute? fallbackTag lines a = some pair) :
    contribution fallbackTag lines p a m =
      (pair :: (contribution fallbackTag lines p b n).1,
        (contribution fallbackTag lines p b n).2) := by
  rw [contribution, contribution, h]
  simp [ha]

theorem contribution_of_node {b n : Nat}
    (h : belowIn fallbackTag lines p a m = a :: belowIn fallbackTag lines p b n)
    (ha : attribute? fallbackTag lines a = none) :
    contribution fallbackTag lines p a m =
      ((contribution fallbackTag lines p b n).1,
        nodeAt fallbackTag lines a :: (contribution fallbackTag lines p b n).2) := by
  rw [contribution, contribution, h]
  simp [ha]

theorem map_lineAt_takeWhile {r : Nat} (hd : Covers lines a (a + m))
    (he : r = 0 ∨ ¬ Covers lines a (a + m + 1)) :
    ((List.range' (a + 1) (m + r)).map (lineAt lines)).takeWhile
        (fun l => (lineAt lines a).indent < l.indent) =
      (List.range' (a + 1) m).map (lineAt lines) ∧
    ((List.range' (a + 1) (m + r)).map (lineAt lines)).dropWhile
        (fun l => (lineAt lines a).indent < l.indent) =
      (List.range' (a + m + 1) r).map (lineAt lines) := by
  have hin : ∀ l ∈ (List.range' (a + 1) m).map (lineAt lines),
      decide ((lineAt lines a).indent < l.indent) = true := by
    intro l hl
    obtain ⟨k, hk, rfl⟩ := List.mem_map.1 hl
    rw [List.mem_range'_1] at hk
    simpa using hd k (by omega) (by omega)
  rw [← List.range'_append_1, List.map_append, List.takeWhile_append_of_pos hin,
    List.dropWhile_append_of_pos hin, Nat.add_right_comm]
  cases r with
  | zero => simp
  | succ r =>
    have hout : ¬ (lineAt lines a).indent < (lineAt lines (a + m + 1)).indent := by
      intro hlt
      rcases he with h0 | he
      · omega
      · refine he fun k hk hi => ?_
        rcases Nat.lt_succ_iff_lt_or_eq.1 (Nat.lt_succ_of_le hk) with hl | rfl
        · exact hd k (by omega) hi
        · exact hlt
    simp [List.range'_succ, hout]

theorem nodesBelow_eq_nil {j : Nat} (h : (directiveAt lines j).opens = false) :
    nodesBelow fallbackTag lines (some j) = [] := by
  have ho : ¬ Opens fallbackTag lines j := by
    rw [opens_iff, h]
    exact Bool.false_ne_true
  rw [nodesBelow, below_eq_nil_of_not_opens ho]
  rfl

/-- The node of a line is what closing its container makes of what the line opens. -/
theorem nodeAt_eq (j : Nat) :
    nodeAt fallbackTag lines j =
      (openingAt fallbackTag lines j).close (attributesBelow fallbackTag lines (some j))
        ((nodesBelow fallbackTag lines (some j)).map (nodeAt fallbackTag lines)) := by
  rw [nodeAt_eq_node, openingAt, Opening.ofLine, ← directiveAt, Directive.close_ofDirective]
  intro h
  rw [nodesBelow_eq_nil h]
  rfl

theorem preorder_nodeAt (j : Nat) :
    (nodeAt fallbackTag lines j).preorder =
      shownAt fallbackTag lines j ++ Node.preorderAll
        ((nodesBelow fallbackTag lines (some j)).map (nodeAt fallbackTag lines)) := by
  rw [nodeAt_eq_node, shownAt, Directive.preorder_node]
  intro h
  rw [nodesBelow_eq_nil h]
  rfl

theorem nodeAt_of_not_opens (h : ¬ Opens fallbackTag lines a) :
    nodeAt fallbackTag lines a = (openingAt fallbackTag lines a).node := by
  rw [nodeAt_eq, attributesBelow, nodesBelow, below_eq_nil_of_not_opens h]
  simp [Opening.close, Opening.mergeAll]

theorem continuation?_of_opens (h : Opens fallbackTag lines a) (inElement : Bool) :
    Outline.continuation? inElement (lineAt lines a).text = none :=
  Outline.continuation?_of_container h inElement

/-- An absorbed line opens nothing. -/
theorem attribute?_of_opens (h : Opens fallbackTag lines a) :
    attribute? fallbackTag lines a = none := continuation?_of_opens h _

theorem Block.contribution_inner {r : Nat} (h : Block fallbackTag lines p a (m + r + 1))
    (he : r = 0 ∨ ¬ Covers lines a (a + m + 1)) :
    contribution fallbackTag lines (some a) (a + 1) m =
      (attributesBelow fallbackTag lines (some a),
        (nodesBelow fallbackTag lines (some a)).map (nodeAt fallbackTag lines)) := by
  rw [attributesBelow, nodesBelow, h.below_container he]
  rfl

/-- What the lines of a block add to the container of the block. -/
theorem Block.body_eq (h : Block fallbackTag lines p a m) :
    Outline.body fallbackTag (isElementAt fallbackTag lines p)
        ((List.range' a m).map (lineAt lines)) =
      contribution fallbackTag lines p a m := by
  refine Block.induct (motive := fun p a m => Outline.body fallbackTag
    (isElementAt fallbackTag lines p) ((List.range' a m).map (lineAt lines)) =
      contribution fallbackTag lines p a m) ?_ ?_ ?_ h
  · intro p a
    simp [Outline.body, contribution, belowIn]
  · intro p a m h ho ih
    have ha : attribute? fallbackTag lines a = Outline.continuation?
        (isElementAt fallbackTag lines p) (lineAt lines a).text := by
      rw [attribute?, h.parent?_first]
    rw [List.range'_succ, List.map_cons]
    cases hk : Outline.continuation? (isElementAt fallbackTag lines p) (lineAt lines a).text with
    | some pair =>
      rw [Outline.body_of_continuation hk, ih,
        contribution_of_attribute h.belowIn_succ (ha.trans hk)]
    | none =>
      rw [Outline.body_of_leaf hk ho, ih, contribution_of_node h.belowIn_succ (ha.trans hk),
        nodeAt_of_not_opens ho]
      rfl
  · intro p a m r h ho hd he ih₁ ih₂
    have hk := continuation?_of_opens ho (isElementAt fallbackTag lines p)
    obtain ⟨hi, hx⟩ := map_lineAt_takeWhile hd he
    rw [List.range'_succ, List.map_cons, Outline.body_of_container hk ho, hi, hx, ih₂]
    change (_, Opening.close (openingAt fallbackTag lines a)
      (Outline.body fallbackTag (isElementAt fallbackTag lines (some a)) _).1
      (Outline.body fallbackTag (isElementAt fallbackTag lines (some a)) _).2 :: _) = _
    rw [ih₁, h.contribution_inner he, ← nodeAt_eq,
      contribution_of_node (h.belowIn_container (h.inner ho hd he)) (attribute?_of_opens ho)]

/-- From the top of the trees to their bottom, the nodes are those of the lines of the block that
are not absorbed. -/
theorem Block.preorder_eq (h : Block fallbackTag lines p a m) :
    Node.preorderAll (contribution fallbackTag lines p a m).2 =
      ((List.range' a m).filter fun j => (attribute? fallbackTag lines j).isNone).flatMap
        (shownAt fallbackTag lines) := by
  refine Block.induct (motive := fun p a m =>
    Node.preorderAll (contribution fallbackTag lines p a m).2 =
      ((List.range' a m).filter fun j => (attribute? fallbackTag lines j).isNone).flatMap
        (shownAt fallbackTag lines)) ?_ ?_ ?_ h
  · intro p a
    simp [contribution, belowIn, Node.preorderAll]
  · intro p a m h ho ih
    rw [List.range'_succ, List.filter_cons]
    cases ha : attribute? fallbackTag lines a with
    | some pair =>
      rw [contribution_of_attribute h.belowIn_succ ha, ih]
      rfl
    | none =>
      rw [opens_iff, Bool.not_eq_true] at ho
      rw [contribution_of_node h.belowIn_succ ha, Node.preorderAll, ih, preorder_nodeAt,
        nodesBelow_eq_nil ho, List.map_nil, Node.preorderAll, List.append_nil]
      rfl
  · intro p a m r h ho hd he ih₁ ih₂
    have ha : attribute? fallbackTag lines a = none := attribute?_of_opens ho
    rw [h.contribution_inner he] at ih₁
    rw [contribution_of_node (h.belowIn_container (h.inner ho hd he)) ha, Node.preorderAll,
      preorder_nodeAt, ih₁, ih₂, List.range'_succ, Nat.add_right_comm, ← List.range'_append_1,
      List.filter_cons, ha, List.filter_append]
    simp

theorem map_lineAt_range : (List.range' 0 lines.length).map (lineAt lines) = lines := by
  apply List.ext_getElem
  · simp
  · intro j h₁ h₂
    simp [lineAt, List.getElem?_eq_getElem h₂]

theorem ofLines_eq_nodes (fallbackTag : String) (lines : List Line) :
    Outline.ofLines fallbackTag lines = nodes fallbackTag lines := by
  have hb := (block_all fallbackTag lines).body_eq
  rw [map_lineAt_range, isElementAt] at hb
  rw [Outline.ofLines_eq_body, hb, contribution, nodes, nodesBelow, below, belowIn,
    List.range_eq_range']

theorem linesFrom_roots (fallbackTag : String) (lines : List Line) :
    (below fallbackTag lines none).flatMap (linesFrom fallbackTag lines) =
      List.range lines.length := by
  have hb := (block_all fallbackTag lines).flatMap_linesFrom
  rw [belowIn, ← List.range_eq_range'] at hb
  exact hb

theorem attribute?_eq_some_iff {j : Nat} {pair : AttributePair} :
    attribute? fallbackTag lines j = some pair ↔
      ∃ i head, parent? fallbackTag lines j = some i ∧ directiveAt lines i = .element head ∧
        SimpleAttribute.ofLine? (lineAt lines j).text = some pair := by
  unfold attribute? Outline.continuation?
  constructor
  · intro h
    split at h
    · next he =>
      obtain ⟨i, head, hp, hd⟩ := isElementAt_eq_true_iff.1 he
      exact ⟨i, head, hp, hd, h⟩
    · cases h
  · rintro ⟨i, head, hp, hd, h⟩
    rw [if_pos (isElementAt_eq_true_iff.2 ⟨i, head, hp, hd⟩), h]

/-- The parent of a line is the last container before it, not absorbed itself, whose body reaches
the line. -/
theorem parent?_eq_some_iff_directiveAt {i j : Nat} :
    parent? fallbackTag lines j = some i ↔
      i < j ∧ (directiveAt lines i).opens = true ∧ attribute? fallbackTag lines i = none ∧
        Covers lines i j ∧
        ∀ k, i < k → k < j → (directiveAt lines k).opens = true →
          attribute? fallbackTag lines k = none → ¬ Covers lines k j := by
  rw [parent?_eq_some_iff]
  simp only [← @opens_iff fallbackTag]
  constructor
  · rintro ⟨hl, ho, hc, hg⟩
    exact ⟨hl, ho, attribute?_of_opens ho, hc, fun k hk hj hok _ => hg k hk hj hok⟩
  · rintro ⟨hl, ho, -, hc, hg⟩
    exact ⟨hl, ho, hc, fun k hk hj hok => hg k hk hj hok (attribute?_of_opens hok)⟩

theorem preorder_nodes (fallbackTag : String) (lines : List Line) :
    Node.preorderAll (nodes fallbackTag lines) =
      ((List.range lines.length).filter fun j => (attribute? fallbackTag lines j).isNone).flatMap
        (shownAt fallbackTag lines) := by
  have hb := (block_all fallbackTag lines).preorder_eq
  rw [contribution, belowIn, ← List.range_eq_range'] at hb
  exact hb

end

end Forest

/-- Reading a source gives the forest of its lines, those of the texts between its line feeds that
are not all blanks, unless the end of an insertion in one of them falls inside a character; then
reading breaks off. In the forest the parent of a line is the last container before the line, not
absorbed itself, whose body reaches the line; a line is absorbed if its parent is an element and the
line is one attribute; and the node of a line has the attributes of the lines it absorbs, and the
nodes of the other lines below it behind the children on the line itself. From top to bottom every
line stands in the forest once, in its order, and the nodes are those that the lines that are not
absorbed show. -/
theorem Outline.read_is_forest (fallbackTag source : String) :
    ∃ (texts : List (List Char)) (lines : List Line),
      ['\n'].intercalate texts = source.toList ∧ (∀ text ∈ texts, '\n' ∉ text) ∧
      lines = (texts.filter fun text => !Text.isAllBlank text).map (fun text =>
        ⟨(text.takeWhile Text.isBlank).length, Text.trim text⟩) ∧
      ((∀ line ∈ lines, ¬ line.CutsCharacter) →
        read? fallbackTag source = some (Forest.nodes fallbackTag lines)) ∧
      ((∃ line ∈ lines, line.CutsCharacter) → read? fallbackTag source = none) ∧
      read fallbackTag source = Forest.nodes fallbackTag lines ∧
      (∀ i j, Forest.parent? fallbackTag lines j = some i ↔
        i < j ∧ (Forest.directiveAt lines i).opens = true ∧
          Forest.attribute? fallbackTag lines i = none ∧ Forest.Covers lines i j ∧
          ∀ k, i < k → k < j → (Forest.directiveAt lines k).opens = true →
            Forest.attribute? fallbackTag lines k = none → ¬ Forest.Covers lines k j) ∧
      (∀ j pair, Forest.attribute? fallbackTag lines j = some pair ↔
        ∃ i head, Forest.parent? fallbackTag lines j = some i ∧
          Forest.directiveAt lines i = .element head ∧
          SimpleAttribute.ofLine? (Forest.lineAt lines j).text = some pair) ∧
      (∀ j, Forest.nodeAt fallbackTag lines j = (Forest.directiveAt lines j).node fallbackTag
        (Forest.attributesBelow fallbackTag lines (some j))
        ((Forest.nodesBelow fallbackTag lines (some j)).map
          (Forest.nodeAt fallbackTag lines))) ∧
      (Forest.below fallbackTag lines none).flatMap (Forest.linesFrom fallbackTag lines) =
        List.range lines.length ∧
      Node.preorderAll (read fallbackTag source) =
        ((List.range lines.length).filter fun j =>
          (Forest.attribute? fallbackTag lines j).isNone).flatMap
            (Forest.shownAt fallbackTag lines) := by
  obtain ⟨texts, hjoin, hfeed, hlines⟩ := Line.exists_ofSource source
  have hread : read fallbackTag source = Forest.nodes fallbackTag (Line.ofSource source) :=
    Forest.ofLines_eq_nodes fallbackTag _
  refine ⟨texts, Line.ofSource source, hjoin, hfeed, hlines, fun h => ?_, read?_eq_none, hread,
    fun i j => Forest.parent?_eq_some_iff_directiveAt,
    fun j pair => Forest.attribute?_eq_some_iff, Forest.nodeAt_eq_node fallbackTag _,
    Forest.linesFrom_roots fallbackTag _, ?_⟩
  · rw [read?_eq_some h, hread]
  · rw [hread]
    exact Forest.preorder_nodes fallbackTag _

/-- A line that is absorbed behind a child, a line that is indented like none before it, and a line
deeper than a text, which belongs where the text belongs. -/
example : Outline.read? "div"
    "%ul\n    %li\n        one\n\n      id='a'\n  - if x\n    two\n      three\n" =
      some [.element "ul" [] [.element "li" [("id", .literal "a")] [.text "one"],
        .ifThen "x" [.text "two", .text "three"]]] := by
  cbv

end IndentMarkup
