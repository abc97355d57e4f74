import IndentMarkup.Markup.Node

/-!
# Decisions

A condition, the alternatives that directly follow it and a default directly behind those are one
decision, at every depth of a template. An alternative or a default that does not continue a
decision stays where it is.
-/
namespace IndentMarkup

namespace Node

/-- The branches that continue a decision at the start of a list of nodes, and the nodes behind
them. A default ends the decision. -/
def takeBranches : List Node → List Branch × List Node
  | .elseIf condition children :: rest =>
    let (branches, after) := takeBranches rest
    (.mk (.holds condition) children :: branches, after)
  | .otherwise children :: rest => ([.mk .always children], rest)
  | nodes => ([], nodes)

theorem length_takeBranches (nodes : List Node) :
    (takeBranches nodes).2.length ≤ nodes.length := by
  fun_induction takeBranches nodes with
  | case1 condition children rest branches after h ih =>
    rw [h] at ih
    exact Nat.le_succ_of_le ih
  | case2 children rest => exact Nat.le_succ _
  | case3 nodes => exact Nat.le_refl _

/-- The nodes with every condition among them folded into a decision. -/
def foldRuns : List Node → List Node
  | [] => []
  | .ifThen condition children :: rest =>
    .decision (.mk (.holds condition) children :: (takeBranches rest).1) ::
      foldRuns (takeBranches rest).2
  | node :: rest => node :: foldRuns rest
termination_by nodes => nodes.length
decreasing_by
  · exact Nat.lt_succ_of_le (length_takeBranches rest)
  · exact Nat.lt_succ_self _

theorem foldRuns_nil : foldRuns [] = [] := by
  rw [foldRuns]

theorem foldRuns_ifThen (condition : String) (children rest : List Node) :
    foldRuns (.ifThen condition children :: rest) =
      .decision (.mk (.holds condition) children :: (takeBranches rest).1) ::
        foldRuns (takeBranches rest).2 := by
  rw [foldRuns]

theorem foldRuns_of_ne_ifThen {node : Node}
    (h : ∀ condition children, node ≠ .ifThen condition children) (rest : List Node) :
    foldRuns (node :: rest) = node :: foldRuns rest := by
  rw [foldRuns]
  exact h

mutual

/-- The node with the conditions below it folded into decisions. -/
def lower : Node → Node
  | .element tag attributes children => .element tag attributes (foldRuns (lowerAll children))
  | .ifThen condition children => .ifThen condition (foldRuns (lowerAll children))
  | .elseIf condition children => .elseIf condition (foldRuns (lowerAll children))
  | .otherwise children => .otherwise (foldRuns (lowerAll children))
  | .loop head children => .loop head (foldRuns (lowerAll children))
  | .fragment children => .fragment (foldRuns (lowerAll children))
  | .decision branches => .decision (lowerBranches branches)
  | .text value => .text value
  | .insertion source raw => .insertion source raw
  | .statement code => .statement code

def lowerAll : List Node → List Node
  | [] => []
  | node :: rest => lower node :: lowerAll rest

def lowerBranch : Branch → Branch
  | .mk guard children => .mk guard (foldRuns (lowerAll children))

def lowerBranches : List Branch → List Branch
  | [] => []
  | branch :: rest => lowerBranch branch :: lowerBranches rest

end

/-- The nodes with every condition, at any depth, folded into a decision. -/
def lowered (nodes : List Node) : List Node := foldRuns (lowerAll nodes)

@[simp] theorem lowerAll_eq_map (nodes : List Node) : lowerAll nodes = nodes.map lower := by
  induction nodes with
  | nil => rfl
  | cons node rest ih => simp [lowerAll, ih]

end Node

end IndentMarkup
