import IndentMarkup.Proofs.Program.Translation

/-!
# How deep a program nests

Elements do not nest in a program: their pieces join the concatenation around them, and however long
a concatenation is, it is read as one chain. Only loops and decisions nest. So the depth of a
program is bounded by the depth of the expressions in its nodes and by the loops and decisions
inside one another, and nothing else of the nodes adds to it.
-/
namespace IndentMarkup

namespace Expr

mutual

/-- How deep an expression nests: one more than the deepest of its parts, all operands of a chain
being parts of it. -/
def depth : Expr → Nat
  | .constant _ => 1
  | .number _ => 1
  | .var _ => 1
  | .array items => depthAll items + 1
  | .object entries => depthEntries entries + 1
  | .member target _ => depth target + 1
  | .index target position => max (depth target) (depth position) + 1
  | .call _ args => depthAll args + 1
  | .unary _ operand => depth operand + 1
  | .chain first rest => max (depth first) (depthRest rest) + 1
  | .cond condition whenTrue whenFalse =>
    max (depth condition) (max (depth whenTrue) (depth whenFalse)) + 1
  | .loop _ _ source body => max (depth source) (depth body) + 1

def depthAll : List Expr → Nat
  | [] => 0
  | e :: rest => max (depth e) (depthAll rest)

def depthEntries : List (String × Expr) → Nat
  | [] => 0
  | (_, e) :: rest => max (depth e) (depthEntries rest)

def depthRest : List (BinaryOp × Expr) → Nat
  | [] => 0
  | (_, e) :: rest => max (depth e) (depthRest rest)

end

theorem depth_constant (c : Constant) : (constant c).depth = 1 := by
  rw [depth]

theorem depthAll_le_iff {es : List Expr} {n : Nat} :
    depthAll es ≤ n ↔ ∀ e ∈ es, e.depth ≤ n := by
  induction es with
  | nil => simp [depthAll]
  | cons e es ih => rw [depthAll, Nat.max_le, ih, List.forall_mem_cons]

theorem depthRest_map (op : BinaryOp) (es : List Expr) :
    depthRest (es.map fun e => (op, e)) = depthAll es := by
  induction es with
  | nil => rfl
  | cons e es ih => rw [List.map_cons, depthRest, depthAll, ih]

/-- A chain nests one deeper than its operands, however many they are. -/
theorem depth_ofOperands_le {op : BinaryOp} {first : Expr} {rest : List Expr} {n : Nat}
    (h : ∀ e ∈ first :: rest, e.depth ≤ n) :
    (ofOperands first (rest.map fun e => (op, e))).depth ≤ n + 1 := by
  rw [List.forall_mem_cons] at h
  unfold ofOperands
  split
  · omega
  · rw [depth, depthRest_map]
    have hr := depthAll_le_iff.2 h.2
    omega

theorem one_le_depth (e : Expr) : 1 ≤ e.depth := by
  cases e <;> rw [depth] <;> omega

theorem depth_orElse (e : Expr) (fallback : Constant) :
    (e.orElse fallback).depth = e.depth + 1 := by
  have h := one_le_depth e
  rw [orElse, depth, depthAll, depthAll, depthAll, depth_constant]
  omega

/-- The depth of the deepest expression among some texts, and one if there is none. -/
def deepest (sources : List String) : Nat :=
  (sources.filterMap ofSource?).foldr (fun e d => max e.depth d) 1

theorem one_le_deepest (sources : List String) : 1 ≤ deepest sources := by
  unfold deepest
  induction sources.filterMap ofSource? with
  | nil => exact Nat.le_refl 1
  | cons e es ih =>
    rw [List.foldr_cons]
    omega

theorem deepest_le_iff {sources : List String} {n : Nat} (hn : 1 ≤ n) :
    deepest sources ≤ n ↔ ∀ source ∈ sources, ∀ e, ofSource? source = some e → e.depth ≤ n := by
  induction sources with
  | nil => simpa [deepest] using hn
  | cons source sources ih =>
    rw [List.forall_mem_cons, ← ih]
    unfold deepest
    cases h : ofSource? source with
    | none => simp [h]
    | some e =>
      rw [List.filterMap_cons_some h, List.foldr_cons]
      simp only [Option.some.injEq, forall_eq']
      exact Nat.max_le

theorem depth_le_deepest {source : String} {sources : List String} (h : source ∈ sources) {e : Expr}
    (he : ofSource? source = some e) : e.depth ≤ deepest sources :=
  (deepest_le_iff (one_le_deepest sources)).1 (Nat.le_refl _) source h e he

end Expr

def AttrValue.source? : AttrValue → Option String
  | .literal _ => none
  | .expr source _ => some source

def Attributes.sources (attributes : Attributes) : List String :=
  attributes.filterMap fun a => a.2.source?

def Guard.source? : Guard → Option String
  | .holds condition => some condition
  | .always => none

namespace Node

mutual

def sources : Node → List String
  | .element _ attributes children => Attributes.sources attributes ++ sourcesAll children
  | .text _ => []
  | .insertion source _ => [source]
  | .statement code => [code]
  | .ifThen condition children => condition :: sourcesAll children
  | .elseIf condition children => condition :: sourcesAll children
  | .otherwise children => sourcesAll children
  | .loop head children => head.source :: sourcesAll children
  | .fragment children => sourcesAll children
  | .decision branches => sourcesBranches branches

def sourcesAll : List Node → List String
  | [] => []
  | node :: rest => sources node ++ sourcesAll rest

def sourcesBranches : List Branch → List String
  | [] => []
  | .mk guard children :: rest =>
    guard.source?.toList ++ sourcesAll children ++ sourcesBranches rest

end

mutual

/-- How deep loops and decisions stand inside one another, a decision counting once for each of its
branches. -/
def controlDepth : Node → Nat
  | .element _ _ children => controlDepthAll children
  | .fragment children => controlDepthAll children
  | .loop _ children => controlDepthAll children + 1
  | .decision branches => controlDepthBranches branches + branches.length
  | _ => 0

def controlDepthAll : List Node → Nat
  | [] => 0
  | node :: rest => max (controlDepth node) (controlDepthAll rest)

def controlDepthBranches : List Branch → Nat
  | [] => 0
  | .mk _ children :: rest => max (controlDepthAll children) (controlDepthBranches rest)

end

/-- The depth of the deepest expression in some nodes, and one if there is none. -/
def expressionDepth (nodes : List Node) : Nat := Expr.deepest (sourcesAll nodes)

end Node

namespace Term

def depth : Term → Nat
  | .text _ => 1
  | .expr e => e.depth

theorem depth_literal_le {s : String} {e : Expr} (h : e ∈ literal s) : e.depth = 1 := by
  unfold literal at h
  split at h
  · cases h
  · rw [List.mem_singleton.1 h, Expr.depth_constant]

variable {n : Nat} (hn : 1 ≤ n)
include hn

theorem depth_operands_le (pending : String) {ts : List Term} (h : ∀ t ∈ ts, t.depth ≤ n)
    {e : Expr} (he : e ∈ operands pending ts) : e.depth ≤ n := by
  induction ts generalizing pending with
  | nil =>
    rw [depth_literal_le he]
    exact hn
  | cons t ts ih =>
    rw [List.forall_mem_cons] at h
    cases t with
    | text s => exact ih (pending ++ s) h.2 he
    | expr f =>
      rw [operands, List.mem_append, List.mem_cons] at he
      rcases he with he | rfl | he
      · rw [depth_literal_le he]
        exact hn
      · exact h.1
      · exact ih "" h.2 he

/-- A sum nests one deeper than its terms. -/
theorem depth_sum_le {ts : List Term} (h : ∀ t ∈ ts, t.depth ≤ n) : (sum ts).depth ≤ n + 1 := by
  have ho : ∀ e ∈ operands "" ts, e.depth ≤ n := fun e he => depth_operands_le hn "" h he
  unfold sum
  split
  · rw [Expr.depth_constant]
    omega
  · next first rest hr =>
    rw [hr] at ho
    exact Expr.depth_ofOperands_le ho

end Term

namespace Term

/-- A term that is made from the expression of a text among some, and so is bounded by the deepest
of these. -/
theorem depth_of_source_le {source : String} {all : List String} {f : Expr → Expr} {k : Nat}
    (hs : source ∈ all) (hf : ∀ e, (f e).depth ≤ e.depth + k) :
    ∀ t ∈ (Expr.ofSource? source).toList.map fun e => Term.expr (f e),
      t.depth ≤ Expr.deepest all + k := by
  intro t ht
  obtain ⟨e, he, rfl⟩ := List.mem_map.1 ht
  have hd := Expr.depth_le_deepest hs (Option.mem_toList.1 he)
  have hk := hf e
  rw [depth]
  omega

end Term

/-- The deepest expression of an attribute is that of its call, two above the one written there. -/
theorem Term.depth_ofAttributes_le {attributes : Attributes} {all : List String}
    (h : Attributes.sources attributes ⊆ all) :
    ∀ t ∈ Term.ofAttributes attributes, t.depth ≤ Expr.deepest all + 2 := by
  intro t ht
  obtain ⟨⟨key, value⟩, ha, ht⟩ := List.mem_flatMap.1 ht
  cases value with
  | literal text =>
    rw [ofAttribute, List.mem_singleton] at ht
    rw [ht, depth]
    omega
  | expr source raw =>
    have hs : source ∈ all := h (List.mem_filterMap.2 ⟨_, ha, rfl⟩)
    refine depth_of_source_le hs (fun e => ?_) t ht
    have he := Expr.one_le_depth e
    rw [Expr.depth, Expr.depthAll, Expr.depthAll, Expr.depthAll, Expr.depth_constant,
      Expr.depth_orElse]
    omega

namespace Node

variable {all : List String}

mutual

theorem depth_terms_le (node : Node) (h : sources node ⊆ all) :
    ∀ t ∈ terms node, t.depth ≤ 2 + Expr.deepest all + 2 * controlDepth node := by
  match node with
  | .element tag attributes children =>
    rw [sources, List.append_subset] at h
    have ha := Term.depth_ofAttributes_le h.1
    have hc := depth_termsAll_le children h.2
    intro t ht
    simp only [terms, List.mem_append, List.mem_cons, List.not_mem_nil, or_false] at ht
    rw [controlDepth]
    rcases ht with ((rfl | ht) | rfl | ht) | rfl
    · rw [Term.depth]
      omega
    · have ht := ha t ht
      omega
    · rw [Term.depth]
      omega
    · exact hc t ht
    · rw [Term.depth]
      omega
  | .text value =>
    intro t ht
    rw [terms, List.mem_singleton] at ht
    rw [ht, Term.depth]
    omega
  | .insertion source raw =>
    rw [sources, List.cons_subset] at h
    rw [terms]
    intro t ht
    have hd := Term.depth_of_source_le (k := 2) h.1 (fun e => ?_) t ht
    · omega
    · rw [Expr.depth, Expr.depthAll, Expr.depthAll, Expr.depth_orElse]
      omega
  | .statement code =>
    rw [sources, List.cons_subset] at h
    rw [terms]
    intro t ht
    have hd := Term.depth_of_source_le (k := 1) h.1 (fun e => ?_) t ht
    · omega
    · rw [Expr.depth, Expr.depthAll, Expr.depthAll]
      omega
  | .loop head children =>
    rw [sources, List.cons_subset] at h
    have hb := Term.depth_sum_le (by omega) (depth_termsAll_le children h.2)
    rw [terms, controlDepth]
    intro t ht
    obtain ⟨e, he, rfl⟩ := List.mem_map.1 ht
    have hd := Expr.depth_le_deepest h.1 (Option.mem_toList.1 he)
    rw [Term.depth, Expr.depth, Expr.depth_orElse]
    omega
  | .fragment children =>
    rw [sources] at h
    rw [terms, controlDepth]
    exact depth_termsAll_le children h
  | .decision branches =>
    rw [sources] at h
    have hb := depth_choice_le branches h
    intro t ht
    rw [terms, List.mem_singleton] at ht
    rw [ht, Term.depth, controlDepth]
    exact hb
  | .ifThen _ _ | .elseIf _ _ | .otherwise _ =>
    intro t ht
    rw [terms] at ht
    cases ht

theorem depth_termsAll_le (nodes : List Node) (h : sourcesAll nodes ⊆ all) :
    ∀ t ∈ termsAll nodes, t.depth ≤ 2 + Expr.deepest all + 2 * controlDepthAll nodes := by
  match nodes with
  | [] =>
    intro t ht
    rw [termsAll] at ht
    cases ht
  | node :: rest =>
    rw [sourcesAll, List.append_subset] at h
    have hn := depth_terms_le node h.1
    have hr := depth_termsAll_le rest h.2
    intro t ht
    rw [termsAll, List.mem_append] at ht
    rw [controlDepthAll]
    rcases ht with ht | ht
    · have ht := hn t ht
      omega
    · have ht := hr t ht
      omega

/-- Each branch nests the branches behind it one deeper, and its own nodes two deeper. -/
theorem depth_choice_le (branches : List Branch) (h : sourcesBranches branches ⊆ all) :
    (choice branches).depth ≤
      2 + Expr.deepest all + 2 * (controlDepthBranches branches + branches.length) := by
  match branches with
  | [] =>
    rw [choice, Expr.depth_constant]
    omega
  | .mk .always children :: rest =>
    rw [sourcesBranches, List.append_subset, List.append_subset] at h
    have hc := Term.depth_sum_le (by omega) (depth_termsAll_le children h.1.2)
    rw [choice, controlDepthBranches, List.length_cons]
    omega
  | .mk (.holds condition) children :: rest =>
    rw [sourcesBranches, List.append_subset, List.append_subset] at h
    have hc := Term.depth_sum_le (by omega) (depth_termsAll_le children h.1.2)
    have hr := depth_choice_le rest h.2
    rw [choice, controlDepthBranches, List.length_cons]
    cases hs : Expr.ofSource? condition with
    | none =>
      dsimp only
      omega
    | some e =>
      have hm : condition ∈ all := h.1.1 (List.mem_singleton.2 rfl)
      have hd := Expr.depth_le_deepest hm hs
      dsimp only
      rw [Expr.depth, Expr.depth_orElse]
      omega

end

/-- The program of nodes nests by what is inside its loops and decisions only. -/
theorem depth_translation_le {nodes : List Node} (h : sourcesAll nodes ⊆ all) :
    (translation nodes).depth ≤ 3 + Expr.deepest all + 2 * controlDepthAll nodes := by
  have hs := Term.depth_sum_le (by omega) (depth_termsAll_le nodes h)
  rw [translation]
  omega

theorem controlDepthAll_le_iff {nodes : List Node} {n : Nat} :
    controlDepthAll nodes ≤ n ↔ ∀ node ∈ nodes, node.controlDepth ≤ n := by
  induction nodes with
  | nil => simp [controlDepthAll]
  | cons node nodes ih => rw [controlDepthAll, Nat.max_le, ih, List.forall_mem_cons]

theorem sourcesAll_eq_flatMap (nodes : List Node) : sourcesAll nodes = nodes.flatMap sources := by
  induction nodes with
  | nil => rfl
  | cons node nodes ih => rw [sourcesAll, ih, List.flatMap_cons]

/-- Nodes that are each a text or one of some others, in any order and as often as they like. -/
def Repeats (nodes others : List Node) : Prop :=
  ∀ node ∈ others, node ∈ nodes ∨ ∃ t, node = .text t

namespace Repeats

variable {nodes others : List Node} (h : Repeats nodes others)
include h

theorem allNamed (hn : allNamed nodes = true) : allNamed others = true := by
  rw [allNamed_eq_all, List.all_eq_true] at hn ⊢
  intro node hm
  rcases h node hm with hm | ⟨t, rfl⟩
  · exact hn node hm
  · rw [isNamed]

theorem sourcesAll_subset : sourcesAll others ⊆ sourcesAll nodes := by
  rw [sourcesAll_eq_flatMap, sourcesAll_eq_flatMap]
  intro source hs
  obtain ⟨node, hm, hs⟩ := List.mem_flatMap.1 hs
  rcases h node hm with hm | ⟨t, rfl⟩
  · exact List.mem_flatMap.2 ⟨node, hm, hs⟩
  · rw [sources] at hs
    cases hs

theorem controlDepthAll_le : controlDepthAll others ≤ controlDepthAll nodes := by
  rw [controlDepthAll_le_iff]
  intro node hm
  rcases h node hm with hm | ⟨t, rfl⟩
  · exact controlDepthAll_le_iff.1 (Nat.le_refl _) node hm
  · rw [controlDepth]
    exact Nat.zero_le _
    all_goals nofun

end Repeats

/-- Nodes inside elements with the same tag and attributes, one inside the other. -/
def enclosed (tag : String) (attributes : Attributes) (nodes : List Node) : Nat → List Node
  | 0 => nodes
  | level + 1 => [.element tag attributes (enclosed tag attributes nodes level)]

section

variable (tag : String) {attributes : Attributes} {nodes : List Node}

theorem allNamed_enclosed (h : allNamed nodes = true) (level : Nat) :
    allNamed (enclosed tag attributes nodes level) = true := by
  induction level with
  | zero => exact h
  | succ level ih => rw [enclosed, allNamed, isNamed, ih, allNamed, Bool.and_true]

theorem sourcesAll_enclosed_subset (ha : Attributes.sources attributes ⊆ all)
    (h : sourcesAll nodes ⊆ all) (level : Nat) :
    sourcesAll (enclosed tag attributes nodes level) ⊆ all := by
  induction level with
  | zero => exact h
  | succ level ih =>
    rw [enclosed, sourcesAll, sources, sourcesAll, List.append_nil]
    exact List.append_subset.2 ⟨ha, ih⟩

theorem controlDepthAll_enclosed (level : Nat) :
    controlDepthAll (enclosed tag attributes nodes level) = controlDepthAll nodes := by
  induction level with
  | zero => rfl
  | succ level ih => rw [enclosed, controlDepthAll, controlDepth, ih, controlDepthAll, Nat.max_zero]

end

/-- The program of nodes is read as an expression whose depth is bounded by that of their
expressions and by their loops and decisions. The bound stays the same however often the nodes are
repeated, with whatever texts between them, and however many elements stand around them, with
whatever attributes of no other expressions. -/
theorem depth_program_le :
    (∀ nodes : List Node, allNamed nodes = true →
      ∃ e, Expr.read (program nodes) = .ok e ∧
        e.depth ≤ 3 + expressionDepth nodes + 2 * controlDepthAll nodes) ∧
    (∀ (nodes others : List Node) (tag : String) (attributes : Attributes) (level : Nat),
      allNamed nodes = true → Repeats nodes others →
      Attributes.sources attributes ⊆ sourcesAll nodes →
      ∃ e, Expr.read (program (enclosed tag attributes others level)) = .ok e ∧
        e.depth ≤ 3 + expressionDepth nodes + 2 * controlDepthAll nodes) := by
  constructor
  · intro nodes h
    exact ⟨translation nodes, read_program_of_allNamed h,
      depth_translation_le (List.Subset.refl _)⟩
  · intro nodes others tag attributes level h hr ha
    have hn : allNamed (enclosed tag attributes others level) = true :=
      allNamed_enclosed tag (hr.allNamed h) level
    have hd := depth_translation_le (sourcesAll_enclosed_subset tag ha hr.sourcesAll_subset level)
    rw [controlDepthAll_enclosed] at hd
    have hc := hr.controlDepthAll_le
    refine ⟨_, read_program_of_allNamed hn, ?_⟩
    rw [expressionDepth]
    omega

def itemLoop : Node :=
  .loop ⟨"v", some "i", "xs"⟩ [.element "li" [("id", .expr "v + i" false)] [.text "a"]]

/-- One loop, and thousands of them inside many elements. -/
theorem depth_program_le_loops :
    (∃ e, Expr.read (program [itemLoop]) = .ok e ∧ e.depth ≤ 7) ∧
    (∃ e, Expr.read (program (enclosed "ul" [("class", .expr "xs" true)]
        (.replicate 3000 itemLoop) 120)) = .ok e ∧ e.depth ≤ 7) := by
  have hn : allNamed [itemLoop] = true := by decide
  have hd : expressionDepth [itemLoop] = 2 := by decide +kernel
  have hc : controlDepthAll [itemLoop] = 1 := by decide
  have hr : Repeats [itemLoop] (.replicate 3000 itemLoop) :=
    fun node hm => .inl (List.mem_singleton.2 (List.eq_of_mem_replicate hm))
  have ha : Attributes.sources [("class", .expr "xs" true)] ⊆ sourcesAll [itemLoop] := by decide
  have h := depth_program_le.1 _ hn
  have hw := depth_program_le.2 _ _ "ul" _ 120 hn hr ha
  rw [hd, hc] at h hw
  exact ⟨h, hw⟩

end Node

end IndentMarkup
