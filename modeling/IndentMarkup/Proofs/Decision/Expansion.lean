import IndentMarkup.Proofs.Decision.Folded
import IndentMarkup.Proofs.Decision.Form

/-!
# Expanding decisions

A decision can be expanded into the siblings that it was folded from: a condition, alternatives and
a default. Folding some nodes does not change what they expand to, so nodes in which there were no
decisions are got back from the folded ones, and nothing of them was lost. Nor was anything left
over that could have been folded.
-/
namespace IndentMarkup

namespace Node

/-- The siblings with a condition in place of an alternative at their head. -/
def openRun : List Node → List Node
  | .elseIf condition children :: rest => .ifThen condition children :: rest
  | nodes => nodes

mutual

/-- The siblings that a node stands for when every decision in it is expanded. -/
def expand : Node → List Node
  | .element tag attributes children => [.element tag attributes (expandAll children)]
  | .text value => [.text value]
  | .insertion source raw => [.insertion source raw]
  | .statement code => [.statement code]
  | .ifThen condition children => [.ifThen condition (expandAll children)]
  | .elseIf condition children => [.elseIf condition (expandAll children)]
  | .otherwise children => [.otherwise (expandAll children)]
  | .loop head children => [.loop head (expandAll children)]
  | .fragment children => [.fragment (expandAll children)]
  | .decision branches => openRun (expandBranches branches)

def expandAll : List Node → List Node
  | [] => []
  | node :: rest => expand node ++ expandAll rest

/-- The siblings that branches stand for if they continue a run. -/
def expandBranches : List Branch → List Node
  | [] => []
  | .mk (.holds condition) children :: rest =>
    .elseIf condition (expandAll children) :: expandBranches rest
  | .mk .always children :: rest => .otherwise (expandAll children) :: expandBranches rest

end

def IsUndecided (node : Node) : Prop := ∀ branches, node ≠ .decision branches

theorem IsUndecided.lower {node : Node} (h : node.IsUndecided) : (lower node).IsUndecided := by
  intro branches he
  cases node with
  | decision inner => exact h inner rfl
  | _ => rw [Node.lower] at he; cases he

theorem expand_of_isUndecided {node : Node} (h : node.IsUndecided) :
    expand node = [node.withChildren (expandAll node.children)] := by
  cases node with
  | decision branches => exact (h branches rfl).elim
  | _ =>
    rw [expand]
    rfl

theorem expandAll_nil : expandAll [] = [] := by rw [expandAll]

theorem expandAll_eq_flatMap (nodes : List Node) : expandAll nodes = nodes.flatMap expand := by
  induction nodes with
  | nil => rw [expandAll, List.flatMap_nil]
  | cons node rest ih => rw [expandAll, ih, List.flatMap_cons]

theorem expandAll_eq_self {nodes : List Node} (h : Everywhere IsUndecided nodes) :
    expandAll nodes = nodes := by
  induction nodes using bodies_induction with
  | step nodes ih =>
    have hn : ∀ node ∈ nodes, expand node = [node] := by
      intro node hm
      have hc : expandAll node.children = node.children :=
        children_of_bodies (motive := fun body => expandAll body = body) expandAll_nil
          fun body hb => ih node hm body hb (h.body hm hb)
      rw [expand_of_isUndecided (h.of_mem hm), hc, withChildren_children]
    rw [expandAll_eq_flatMap, List.flatMap_congr hn, List.flatMap_singleton']

/-! ### Folding does not change what nodes expand to -/

theorem expandBranches_takeBranches (nodes : List Node) :
    expandBranches (takeBranches nodes).1 ++ expandAll (takeBranches nodes).2 =
      expandAll nodes := by
  fun_induction takeBranches nodes with
  | case1 condition children rest branches after h ih =>
    rw [h] at ih
    rw [expandBranches, List.cons_append, ih, expandAll, expand]
    rfl
  | case2 children rest =>
    rw [expandBranches, expandBranches, expandAll, expand]
  | case3 nodes => rw [expandBranches, List.nil_append]

theorem expandAll_foldRuns (nodes : List Node) : expandAll (foldRuns nodes) = expandAll nodes := by
  fun_induction foldRuns nodes with
  | case1 => rfl
  | case2 condition children rest ih =>
    rw [expandAll, ih, expand, expandBranches, openRun, List.cons_append,
      expandBranches_takeBranches, expandAll, expand]
    rfl
  | case3 node rest hne ih => rw [expandAll, ih, expandAll]

theorem expandBranches_lowerBranches {branches : List Branch}
    (h : ∀ branch ∈ branches, expandAll (lowered branch.children) = expandAll branch.children) :
    expandBranches (lowerBranches branches) = expandBranches branches := by
  induction branches with
  | nil => rw [lowerBranches]
  | cons branch rest ih =>
    obtain ⟨guard, children⟩ := branch
    have hc : expandAll (foldRuns (lowerAll children)) = expandAll children :=
      h (.mk guard children) List.mem_cons_self
    have hr := ih fun other hm => h other (.tail _ hm)
    cases guard with
    | holds condition =>
      rw [lowerBranches, lowerBranch, expandBranches, expandBranches, hc, hr]
    | always => rw [lowerBranches, lowerBranch, expandBranches, expandBranches, hc, hr]

theorem expand_lower {node : Node}
    (h : ∀ body ∈ node.bodies, expandAll (lowered body) = expandAll body) :
    expand (lower node) = expand node := by
  rcases eq_decision_or_ne node with ⟨branches, rfl⟩ | hne
  · have hb : ∀ branch ∈ branches,
        expandAll (lowered branch.children) = expandAll branch.children :=
      fun branch hm => h branch.children (List.mem_map_of_mem hm)
    have hr := expandBranches_lowerBranches hb
    rw [lower, expand, expand, hr]
  · change node.IsUndecided at hne
    have hc : expandAll (lower node).children = expandAll node.children := by
      rw [children_lower]
      exact children_of_bodies (motive := fun body => expandAll (lowered body) = expandAll body)
        (by rw [lowered_nil]) h
    rw [expand_of_isUndecided hne.lower, expand_of_isUndecided hne, hc, lower_of_ne_decision hne,
      withChildren_withChildren]

theorem expandAll_lowered (nodes : List Node) : expandAll (lowered nodes) = expandAll nodes := by
  induction nodes using bodies_induction with
  | step nodes ih =>
    rw [lowered, expandAll_foldRuns, lowerAll_eq_map, expandAll_eq_flatMap, expandAll_eq_flatMap,
      List.flatMap_map]
    exact List.flatMap_congr fun node hm => expand_lower (ih node hm)

/-- Expanding the decisions of folded nodes gives back the nodes, in which there were none. No
condition is left at any depth, and no alternative and no default stands directly behind a decision
that it could continue. -/
theorem lowered_lossless_maximal {nodes : List Node} (h : Everywhere IsUndecided nodes) :
    expandAll (lowered nodes) = nodes ∧ Everywhere IsFolded (lowered nodes) ∧
      ∀ level, Level (lowered nodes) level →
        level.IsChain fun node next => node.EndsOpen → next.continuesRun = false := by
  refine ⟨?_, everywhere_isFolded_lowered nodes, ?_⟩
  · rw [expandAll_lowered, expandAll_eq_self h]
  · intro level hl
    obtain ⟨raw, hr, rfl⟩ := hl.exists_raw
    apply isChain_foldRuns
    rintro node hm ⟨branches, -, rfl, -⟩
    rw [lowerAll_eq_map] at hm
    obtain ⟨inner, hi, he⟩ := List.mem_map.1 hm
    exact (h raw hr inner hi).lower branches he

/-- A run with another one below its alternative, and a default that continues neither. -/
def nestedRuns : List Node :=
  [.ifThen "a" [.text "A"], .elseIf "b" [.ifThen "c" [], .otherwise []], .otherwise [],
    .otherwise [.statement "d"]]

theorem lowered_lossless_maximal_nestedRuns :
    Everywhere IsUndecided nestedRuns ∧ expandAll (lowered nestedRuns) = nestedRuns ∧
      Everywhere IsFolded (lowered nestedRuns) ∧ ∀ level, Level (lowered nestedRuns) level →
        level.IsChain fun node next => node.EndsOpen → next.continuesRun = false := by
  have h : Everywhere IsUndecided nestedRuns := by
    simp [nestedRuns, everywhere_cons, everywhere_nil, bodies, IsUndecided]
  exact ⟨h, lowered_lossless_maximal h⟩

end Node

end IndentMarkup
