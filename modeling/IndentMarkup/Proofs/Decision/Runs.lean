import IndentMarkup.Markup.Decision

/-!
# Runs of conditions among siblings

A run is a condition with the alternatives and the default that continue it. Folding takes a run off
the siblings behind a condition, and nothing else: in front of a node that continues no run, the
siblings can be cut in two and folded by themselves.
-/
namespace IndentMarkup

namespace Node

/-- Whether a node continues a run that is open in front of it. -/
def continuesRun : Node → Bool
  | .elseIf .. => true
  | .otherwise _ => true
  | _ => false

theorem continuesRun_lower (node : Node) : (lower node).continuesRun = node.continuesRun := by
  cases node <;> simp only [lower, continuesRun]

theorem continuesRun_of_ne {node : Node}
    (he : ∀ condition children, node ≠ .elseIf condition children)
    (ho : ∀ children, node ≠ .otherwise children) : node.continuesRun = false := by
  cases node with
  | elseIf condition children => exact (he condition children rfl).elim
  | otherwise children => exact (ho children rfl).elim
  | _ => rfl

theorem takeBranches_of_continues_false {node : Node} (h : node.continuesRun = false)
    (rest : List Node) : takeBranches (node :: rest) = ([], node :: rest) := by
  cases node with
  | elseIf condition children => cases h
  | otherwise children => cases h
  | _ => rfl

section

variable {after : List Node} (h : ∀ node ∈ after.head?, node.continuesRun = false)
include h

theorem takeBranches_append (nodes : List Node) :
    takeBranches (nodes ++ after) = ((takeBranches nodes).1, (takeBranches nodes).2 ++ after) := by
  fun_induction takeBranches nodes with
  | case1 condition children rest branches behind hr ih =>
    rw [List.cons_append, takeBranches, ih, hr]
  | case2 children rest => rfl
  | case3 nodes he ho =>
    cases nodes with
    | nil =>
      cases after with
      | nil => rfl
      | cons node rest => exact takeBranches_of_continues_false (h node rfl) rest
    | cons node rest =>
      have hn : node.continuesRun = false := by
        apply continuesRun_of_ne
        · rintro condition children rfl
          exact he condition children rest rfl
        · rintro children rfl
          exact ho children rest rfl
      exact takeBranches_of_continues_false hn (rest ++ after)

/-- Siblings are folded in two parts if the second does not continue a run of the first. -/
theorem foldRuns_append (nodes : List Node) :
    foldRuns (nodes ++ after) = foldRuns nodes ++ foldRuns after := by
  fun_induction foldRuns nodes with
  | case1 => rfl
  | case2 condition children rest ih =>
    rw [List.cons_append, foldRuns_ifThen, takeBranches_append h, ih, List.cons_append]
  | case3 node rest hn ih =>
    rw [List.cons_append, foldRuns_of_ne_ifThen hn, ih, List.cons_append]

theorem lowered_append (nodes : List Node) :
    lowered (nodes ++ after) = lowered nodes ++ lowered after := by
  have hl : ∀ node ∈ (after.map lower).head?, node.continuesRun = false := by
    intro node hm
    rw [List.head?_map, Option.mem_def, Option.map_eq_some_iff] at hm
    obtain ⟨raw, hr, rfl⟩ := hm
    rw [continuesRun_lower]
    exact h raw hr
  simp only [lowered, lowerAll_eq_map, List.map_append]
  exact foldRuns_append hl (nodes.map lower)

end

end Node

end IndentMarkup
