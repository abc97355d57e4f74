import IndentMarkup.Proofs.Decision.Levels
import IndentMarkup.Proofs.Line.Unbroken
import IndentMarkup.Proofs.Program.Translation
import Mathlib.Data.List.Chain

/-!
# The form of folded nodes

Folding takes every run of conditions as far as it goes. No condition is left outside a decision, a
decision begins with a condition and has a default at its end only, and whatever follows a decision
without a default does not continue it. What else holds of each of the raw nodes holds of the folded
ones as well.
-/
namespace IndentMarkup

namespace Node

def isPiece : Node → Bool
  | .text _ => true
  | .insertion .. => true
  | _ => false

/-- The texts that a node carries itself, apart from its tag and the variables of a loop. -/
def texts : Node → List String
  | .element _ attributes _ => attributes.flatMap fun pair => [pair.1, pair.2.content]
  | .text value => [value]
  | .insertion source _ => [source]
  | .statement code => [code]
  | .ifThen condition _ => [condition]
  | .elseIf condition _ => [condition]
  | .otherwise _ => []
  | .loop head _ => [head.source]
  | .fragment _ => []
  | .decision branches => branches.flatMap fun branch =>
    match branch.guard with
    | .holds condition => [condition]
    | .always => []

/-- What every node that a source is read as satisfies for itself. -/
structure Sound (node : Node) : Prop where
  pieces : ∀ children, node = .fragment children → ∀ child ∈ children, child.isPiece = true
  named : ∀ head children, node = .loop head children → head.isNamed = true
  unbroken : ∀ t ∈ node.texts, Text.Unbroken t

/-- A sound node that is no decision, as every node is before it is folded. -/
def IsRaw (node : Node) : Prop := node.Sound ∧ ∀ branches, node ≠ .decision branches

/-- The guards of a decision: the first is a condition, and a default is the last. -/
structure GuardsInOrder (branches : List Branch) : Prop where
  first : ∃ condition children rest, branches = .mk (.holds condition) children :: rest
  default_last : ∀ branch ∈ branches.dropLast, branch.guard ≠ .always

/-- A decision that an alternative or a default could continue, because its last guard is a
condition. -/
def EndsOpen (node : Node) : Prop :=
  ∃ branches branch, node = .decision branches ∧ branches.getLast? = some branch ∧
    branch.guard ≠ .always

structure WellFormedLevel (level : List Node) : Prop where
  folded : ∀ condition children, .ifThen condition children ∉ level
  ordered : ∀ branches, .decision branches ∈ level → GuardsInOrder branches
  maximal : level.IsChain fun node next => node.EndsOpen → next.continuesRun = false
  sound : ∀ node ∈ level, node.Sound

/-- Nodes in which the siblings at every depth are well-formed. -/
def WellFormed (nodes : List Node) : Prop := ∀ level, Level nodes level → WellFormedLevel level

/-! ### Runs are taken as far as they go -/

theorem default_last_takeBranches (nodes : List Node) :
    ∀ branch ∈ (takeBranches nodes).1.dropLast, branch.guard ≠ .always := by
  fun_induction takeBranches nodes with
  | case1 condition children rest branches after h ih =>
    rw [h] at ih
    cases branches with
    | nil => exact fun branch hm => (List.not_mem_nil hm).elim
    | cons next others =>
      intro branch hm
      rcases List.mem_cons.1 hm with rfl | hm
      · exact Guard.noConfusion
      · exact ih branch hm
  | case2 children rest => exact fun branch hm => (List.not_mem_nil hm).elim
  | case3 nodes => exact fun branch hm => (List.not_mem_nil hm).elim

theorem guardsInOrder_takeBranches (condition : String) (children rest : List Node) :
    GuardsInOrder (.mk (.holds condition) children :: (takeBranches rest).1) where
  first := ⟨condition, children, _, rfl⟩
  default_last := default_last_takeBranches (.elseIf condition children :: rest)

/-- A run ends with a default, or in front of a node that does not continue it. -/
theorem takeBranches_maximal (nodes : List Node) :
    (∃ branch, (takeBranches nodes).1.getLast? = some branch ∧ branch.guard = .always) ∨
    ∀ node ∈ (takeBranches nodes).2.head?, node.continuesRun = false := by
  fun_induction takeBranches nodes with
  | case1 condition children rest branches after h ih =>
    rw [h] at ih
    rcases ih with ⟨branch, hl, hg⟩ | hc
    · refine .inl ⟨branch, ?_, hg⟩
      rw [List.getLast?_cons, hl]
      rfl
    · exact .inr hc
  | case2 children rest => exact .inl ⟨.mk .always children, rfl, rfl⟩
  | case3 nodes he ho =>
    refine .inr fun node hm => ?_
    obtain ⟨rest, rfl⟩ := List.head?_eq_some_iff.1 hm
    apply continuesRun_of_ne
    · rintro condition children rfl
      exact he condition children rest rfl
    · rintro children rfl
      exact ho children rest rfl

theorem continuesRun_head_foldRuns {nodes : List Node}
    (h : ∀ node ∈ nodes.head?, node.continuesRun = false) :
    ∀ node ∈ (foldRuns nodes).head?, node.continuesRun = false := by
  fun_cases foldRuns nodes with
  | case1 => exact h
  | case2 condition children rest =>
    intro node hm
    cases hm
    rfl
  | case3 first rest => exact h

theorem isChain_foldRuns {nodes : List Node} (h : ∀ node ∈ nodes, ¬ node.EndsOpen) :
    (foldRuns nodes).IsChain fun node next => node.EndsOpen → next.continuesRun = false := by
  fun_induction foldRuns nodes with
  | case1 => exact List.IsChain.nil
  | case2 condition children rest ih =>
    rw [List.isChain_cons]
    constructor
    · rintro next hn ⟨branches, branch, hd, hl, hg⟩
      cases hd
      rcases takeBranches_maximal rest with ⟨last, ht, ha⟩ | hc
      · -- The run ended with a default, which is the last branch.
        rw [List.getLast?_cons, ht] at hl
        cases hl
        exact (hg ha).elim
      · exact continuesRun_head_foldRuns hc next hn
    · exact ih fun node hm => h node (List.mem_cons_of_mem _ (subset_takeBranches rest hm))
  | case3 first rest hne ih =>
    rw [List.isChain_cons]
    constructor
    · exact fun next hn ho => (h first List.mem_cons_self ho).elim
    · exact ih fun node hm => h node (List.mem_cons_of_mem first hm)

/-! ### Folding keeps what holds of each node -/

theorem isPiece_lower (node : Node) : (lower node).isPiece = node.isPiece := by
  cases node <;> simp only [lower, isPiece]

theorem isPiece_lowered {nodes : List Node} (h : ∀ node ∈ nodes, node.isPiece = true) :
    ∀ node ∈ lowered nodes, node.isPiece = true := by
  have hl : ∀ node ∈ lowerAll nodes, node.isPiece = true := by
    intro node hm
    rw [lowerAll_eq_map] at hm
    obtain ⟨raw, hr, rfl⟩ := List.mem_map.1 hm
    rw [isPiece_lower]
    exact h raw hr
  intro node hm
  rcases exists_of_mem_foldRuns hm with ⟨hn, -⟩ | ⟨condition, children, rest, hc, -, -⟩
  · exact hl node hn
  · cases hl _ hc

theorem texts_lower (node : Node) : (lower node).texts = node.texts := by
  cases node with
  | decision branches =>
    rw [lower, texts, texts, lowerBranches_eq_map, List.flatMap_map]
    congr 1
    funext branch
    cases branch
    rw [lowerBranch]
    rfl
  | _ => simp only [lower, texts]

theorem Sound.lower {node : Node} (h : node.Sound) : (lower node).Sound where
  pieces := by
    intro children he
    cases node with
    | fragment nodes =>
      rw [Node.lower] at he
      cases he
      exact isPiece_lowered (h.pieces nodes rfl)
    | _ => rw [Node.lower] at he; cases he
  named := by
    intro head children he
    cases node with
    | loop head nodes =>
      rw [Node.lower] at he
      cases he
      exact h.named head nodes rfl
    | _ => rw [Node.lower] at he; cases he
  unbroken := by
    rw [texts_lower]
    exact h.unbroken

theorem sound_decision {branches : List Branch}
    (h : ∀ condition children, .mk (.holds condition) children ∈ branches →
      Text.Unbroken condition) : (Node.decision branches).Sound where
  pieces := fun children he => nomatch he
  named := fun head children he => nomatch he
  unbroken := by
    intro t ht
    obtain ⟨⟨guard, children⟩, hm, ht⟩ := List.mem_flatMap.1 ht
    cases guard with
    | holds condition =>
      rw [List.mem_singleton.1 ht]
      exact h condition children hm
    | always => cases ht

theorem sound_of_mem_foldRuns {nodes : List Node} (h : ∀ node ∈ nodes, node.Sound) {node : Node}
    (hm : node ∈ foldRuns nodes) : node.Sound := by
  rcases exists_of_mem_foldRuns hm with ⟨hn, -⟩ | ⟨condition, children, rest, hc, hr, rfl⟩
  · exact h node hn
  · apply sound_decision
    intro guard body hb
    rcases List.mem_cons.1 hb with he | hb
    · cases he
      exact (h _ hc).unbroken condition (List.mem_singleton_self condition)
    · rcases exists_of_mem_takeBranches hb with ⟨c, cs, he, hn⟩ | ⟨cs, he, -⟩
      · cases he
        exact (h _ (hr hn)).unbroken guard (List.mem_singleton_self guard)
      · cases he

theorem IsRaw.lower {node : Node} (h : node.IsRaw) : (lower node).IsRaw := by
  refine ⟨h.1.lower, fun branches he => ?_⟩
  cases node with
  | decision inner => exact h.2 inner rfl
  | _ => rw [Node.lower] at he; cases he

/-- Raw siblings are folded into well-formed ones. -/
theorem wellFormedLevel_lowered {nodes : List Node} (h : ∀ node ∈ nodes, node.IsRaw) :
    WellFormedLevel (lowered nodes) := by
  have hl : ∀ node ∈ lowerAll nodes, node.IsRaw := by
    intro node hm
    rw [lowerAll_eq_map] at hm
    obtain ⟨raw, hr, rfl⟩ := List.mem_map.1 hm
    exact (h raw hr).lower
  constructor
  case folded =>
    intro condition children hm
    rcases exists_of_mem_foldRuns hm with ⟨-, hne⟩ | ⟨c, cs, rest, -, -, he⟩
    · exact hne condition children rfl
    · cases he
  case ordered =>
    intro branches hm
    rcases exists_of_mem_foldRuns hm with ⟨hn, -⟩ | ⟨c, cs, rest, -, -, he⟩
    · exact ((hl _ hn).2 branches rfl).elim
    · cases he
      exact guardsInOrder_takeBranches c cs rest
  case maximal =>
    apply isChain_foldRuns
    rintro node hm ⟨branches, -, rfl, -⟩
    exact (hl _ hm).2 branches rfl
  case sound =>
    exact fun node hm => sound_of_mem_foldRuns (fun raw hr => (hl raw hr).1) hm

/-- Nodes that are raw at every depth are folded into well-formed ones. -/
theorem wellFormed_lowered {nodes : List Node} (h : Everywhere IsRaw nodes) :
    WellFormed (lowered nodes) := by
  intro level hl
  obtain ⟨raw, hr, rfl⟩ := hl.exists_raw
  exact wellFormedLevel_lowered (h raw hr)

end Node

end IndentMarkup
