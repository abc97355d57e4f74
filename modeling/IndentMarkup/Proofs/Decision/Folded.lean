import IndentMarkup.Proofs.Decision.Levels

/-!
# Nodes that are folded

Folding leaves no condition outside a decision, at any depth, and it leaves nodes as they are in
which there is none. So its results are exactly the nodes without such conditions, and to fold them
again changes nothing. This holds for all nodes, also for those in which there were decisions before
they were folded, and for alternatives and defaults that continue no run.
-/
namespace IndentMarkup

namespace Node

/-- A node that is no condition left outside a decision. -/
def IsFolded (node : Node) : Prop := ∀ condition children, node ≠ .ifThen condition children

theorem isFolded_of_mem_foldRuns {nodes : List Node} {node : Node} (h : node ∈ foldRuns nodes) :
    node.IsFolded := by
  rcases exists_of_mem_foldRuns h with ⟨-, hne⟩ | ⟨condition, children, rest, -, -, rfl⟩
  · exact hne
  · exact fun condition children he => by cases he

theorem everywhere_isFolded_lowered (nodes : List Node) : Everywhere IsFolded (lowered nodes) := by
  intro level hl node hm
  obtain ⟨raw, -, rfl⟩ := hl.exists_raw
  exact isFolded_of_mem_foldRuns hm

theorem foldRuns_eq_self {nodes : List Node} (h : ∀ node ∈ nodes, node.IsFolded) :
    foldRuns nodes = nodes := by
  induction nodes with
  | nil => exact foldRuns_nil
  | cons node rest ih =>
    have hr := ih fun other hm => h other (List.mem_cons_of_mem node hm)
    rw [foldRuns_of_ne_ifThen (h node List.mem_cons_self), hr]

section

variable {node : Node} (h : ∀ body ∈ node.bodies, lowered body = body)
include h

theorem lowered_children : lowered node.children = node.children :=
  children_of_bodies (motive := fun body => lowered body = body) lowered_nil h

/-- A node stays as it is if what stands directly below it does. -/
theorem lower_eq_self : lower node = node := by
  rcases eq_decision_or_ne node with ⟨branches, rfl⟩ | hne
  · have hb : ∀ branch ∈ branches, lowerBranch branch = branch := by
      rintro ⟨guard, children⟩ hm
      have hc : lowered children = children := h children (List.mem_map_of_mem hm)
      rw [lowerBranch]
      exact congrArg (Branch.mk guard) hc
    rw [lower, lowerBranches_eq_map, List.map_congr_left hb, List.map_id']
  · rw [lower_of_ne_decision hne, lowered_children h, withChildren_children]

end

theorem lowered_eq_self {nodes : List Node} (h : Everywhere IsFolded nodes) :
    lowered nodes = nodes := by
  induction nodes using bodies_induction with
  | step nodes ih =>
    have hn : nodes.map lower = nodes := by
      have hs : ∀ node ∈ nodes, lower node = node := fun node hm =>
        lower_eq_self fun body hb => ih node hm body hb (h.body hm hb)
      rw [List.map_congr_left hs, List.map_id']
    rw [lowered, lowerAll_eq_map, hn]
    exact foldRuns_eq_self fun node hm => h.of_mem hm

/-- The nodes that folding leaves as they are. -/
theorem lowered_eq_self_iff (nodes : List Node) :
    lowered nodes = nodes ↔ Everywhere IsFolded nodes := by
  constructor
  · intro h
    rw [← h]
    exact everywhere_isFolded_lowered nodes
  · exact lowered_eq_self

/-- To fold nodes twice is to fold them once, and no condition is left at any depth, whatever the
nodes are. -/
theorem lowered_lowered (nodes : List Node) :
    lowered (lowered nodes) = lowered nodes ∧ Everywhere IsFolded (lowered nodes) := by
  have h := everywhere_isFolded_lowered nodes
  exact ⟨(lowered_eq_self_iff (lowered nodes)).2 h, h⟩

end Node

end IndentMarkup
