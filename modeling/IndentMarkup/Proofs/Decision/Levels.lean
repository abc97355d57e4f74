import IndentMarkup.Proofs.Decision.Runs
import Mathlib.Data.List.TakeWhile

/-!
# The levels of a tree

A level of nodes is a list of siblings among them or anywhere below them. Folding conditions into
decisions works on one level after the other: every level of the folded nodes is a level of the raw
nodes, folded for itself. What holds of the folded form of every raw level therefore holds of every
level of a template.
-/
namespace IndentMarkup

namespace Node

/-- The lists of siblings directly below a node: its children, or those of each of its branches. -/
def bodies : Node → List (List Node)
  | .element _ _ children => [children]
  | .text _ => []
  | .insertion _ _ => []
  | .statement _ => []
  | .ifThen _ children => [children]
  | .elseIf _ children => [children]
  | .otherwise children => [children]
  | .loop _ children => [children]
  | .fragment children => [children]
  | .decision branches => branches.map Branch.children

theorem mem_bodies_withChildren {node : Node} (h : node.isContainer = true)
    (children : List Node) : children ∈ (node.withChildren children).bodies := by
  cases node <;> first | exact List.mem_singleton.2 rfl | cases h

/-- The lists of siblings among some nodes at every depth. -/
inductive Level (nodes : List Node) : List Node → Prop
  | top : Level nodes nodes
  | inside {level body : List Node} {node : Node} :
      Level nodes level → node ∈ level → body ∈ node.bodies → Level nodes body

/-- A level of some siblings is all of them, or a level of what stands directly below one of them.
-/
theorem Level.eq_or_below {nodes level : List Node} (h : Level nodes level) :
    level = nodes ∨ ∃ node ∈ nodes, ∃ body ∈ node.bodies, Level body level := by
  induction h with
  | top => exact .inl rfl
  | inside _ hm hb ih =>
    rcases ih with rfl | ⟨node, hn, body, hbody, hl⟩
    · exact .inr ⟨_, hm, _, hb, .top⟩
    · exact .inr ⟨node, hn, body, hbody, .inside hl hm hb⟩

/-- What holds of no nodes and of all that stands directly below a node holds of its children. -/
theorem children_of_bodies {motive : List Node → Prop} {node : Node} (hn : motive [])
    (h : ∀ body ∈ node.bodies, motive body) : motive node.children := by
  cases node with
  | text value => exact hn
  | insertion source raw => exact hn
  | statement code => exact hn
  | decision branches => exact hn
  | _ => exact h _ List.mem_cons_self

theorem withChildren_withChildren (node : Node) (first second : List Node) :
    (node.withChildren first).withChildren second = node.withChildren second := by
  cases node <;> rfl

theorem sizeOf_lt_of_mem_bodies {node : Node} {body : List Node} (h : body ∈ node.bodies) :
    sizeOf body < sizeOf node := by
  cases node with
  | decision branches =>
    obtain ⟨⟨guard, children⟩, hm, rfl⟩ := List.mem_map.1 h
    have hs := List.sizeOf_lt_of_mem hm
    simp only [Branch.mk.sizeOf_spec] at hs
    simp only [Branch.children, decision.sizeOf_spec]
    omega
  | text value => cases h
  | insertion source raw => cases h
  | statement code => cases h
  | _ =>
    rw [List.mem_singleton.1 h]
    simp +arith

/-- What holds of siblings whenever it holds of all that stands directly below them holds of all
nodes. -/
theorem bodies_induction {motive : List Node → Prop}
    (step : ∀ nodes, (∀ node ∈ nodes, ∀ body ∈ node.bodies, motive body) → motive nodes)
    (nodes : List Node) : motive nodes := by
  refine step nodes fun node hm body hb => ?_
  have hn := List.sizeOf_lt_of_mem hm
  have hs := sizeOf_lt_of_mem_bodies hb
  exact bodies_induction step body
termination_by sizeOf nodes

def Everywhere (p : Node → Prop) (nodes : List Node) : Prop :=
  ∀ level, Level nodes level → ∀ node ∈ level, p node

section

variable {p : Node → Prop}

theorem Everywhere.of_mem {nodes : List Node} {node : Node} (h : Everywhere p nodes)
    (hm : node ∈ nodes) : p node := h nodes .top node hm

theorem Everywhere.body {nodes body : List Node} {node : Node} (h : Everywhere p nodes)
    (hm : node ∈ nodes) (hb : body ∈ node.bodies) : Everywhere p body := by
  intro level hl
  have hn : Level nodes level := by
    induction hl with
    | top => exact .inside .top hm hb
    | inside _ hm hb ih => exact .inside ih hm hb
  exact h level hn

theorem everywhere_iff {nodes : List Node} : Everywhere p nodes ↔
    ∀ node ∈ nodes, p node ∧ ∀ body ∈ node.bodies, Everywhere p body := by
  constructor
  · exact fun h node hm => ⟨h.of_mem hm, fun body hb => h.body hm hb⟩
  · intro h level hl other hm
    rcases hl.eq_or_below with rfl | ⟨node, hn, body, hb, hl⟩
    · exact (h other hm).1
    · exact (h node hn).2 body hb level hl other hm

/-- Nodes with nothing below them have a property everywhere if each of them has it. -/
theorem Everywhere.of_leaves {nodes : List Node} (h : ∀ node ∈ nodes, p node ∧ node.bodies = []) :
    Everywhere p nodes := by
  refine everywhere_iff.2 fun node hm => ⟨(h node hm).1, ?_⟩
  rw [(h node hm).2]
  exact fun body hb => (List.not_mem_nil hb).elim

theorem everywhere_nil : Everywhere p [] := .of_leaves fun _ hm => (List.not_mem_nil hm).elim

theorem Everywhere.append {nodes after : List Node} (h : Everywhere p nodes)
    (ha : Everywhere p after) : Everywhere p (nodes ++ after) :=
  everywhere_iff.2 (List.forall_mem_append.2 ⟨everywhere_iff.1 h, everywhere_iff.1 ha⟩)

theorem everywhere_cons {node : Node} {rest : List Node} : Everywhere p (node :: rest) ↔
    (p node ∧ ∀ body ∈ node.bodies, Everywhere p body) ∧ Everywhere p rest := by
  rw [everywhere_iff, List.forall_mem_cons, ← everywhere_iff]

theorem Everywhere.singleton {node : Node} (h : p node)
    (hb : ∀ body ∈ node.bodies, Everywhere p body) : Everywhere p [node] :=
  everywhere_cons.2 ⟨⟨h, hb⟩, everywhere_nil⟩

end

/-! ### Folding level by level -/

theorem subset_takeBranches (nodes : List Node) : (takeBranches nodes).2 ⊆ nodes := by
  fun_induction takeBranches nodes with
  | case1 condition children rest branches after h ih =>
    rw [h] at ih
    exact List.subset_cons_of_subset _ ih
  | case2 children rest => exact List.subset_cons_self _ rest
  | case3 nodes => exact List.Subset.refl nodes

/-- Each branch that continues a decision was a node with the same guard and the same children. -/
theorem exists_of_mem_takeBranches {nodes : List Node} {branch : Branch}
    (h : branch ∈ (takeBranches nodes).1) :
    (∃ condition children, branch = .mk (.holds condition) children ∧
      Node.elseIf condition children ∈ nodes) ∨
    ∃ children, branch = .mk .always children ∧ Node.otherwise children ∈ nodes := by
  fun_induction takeBranches nodes with
  | case1 condition children rest branches after hr ih =>
    rw [hr] at ih
    rcases List.mem_cons.1 h with rfl | hm
    · exact .inl ⟨condition, children, rfl, List.mem_cons_self⟩
    · rcases ih hm with ⟨c, cs, hb, hn⟩ | ⟨cs, hb, hn⟩
      · exact .inl ⟨c, cs, hb, List.mem_cons_of_mem _ hn⟩
      · exact .inr ⟨cs, hb, List.mem_cons_of_mem _ hn⟩
  | case2 children rest =>
    rw [List.mem_singleton.1 h]
    exact .inr ⟨children, rfl, List.mem_cons_self⟩
  | case3 nodes => cases h

/-- A folded node was there before, or is the decision of a condition and what continues it. -/
theorem exists_of_mem_foldRuns {nodes : List Node} {node : Node} (h : node ∈ foldRuns nodes) :
    (node ∈ nodes ∧ ∀ condition children, node ≠ .ifThen condition children) ∨
    ∃ condition children rest, Node.ifThen condition children ∈ nodes ∧ rest ⊆ nodes ∧
      node = .decision (.mk (.holds condition) children :: (takeBranches rest).1) := by
  fun_induction foldRuns nodes with
  | case1 => cases h
  | case2 condition children rest ih =>
    rcases List.mem_cons.1 h with rfl | hm
    · exact .inr ⟨condition, children, rest, List.mem_cons_self, List.subset_cons_self _ rest, rfl⟩
    · have hs : (takeBranches rest).2 ⊆ .ifThen condition children :: rest :=
        List.subset_cons_of_subset _ (subset_takeBranches rest)
      rcases ih hm with ⟨hn, hne⟩ | ⟨c, cs, after, hc, ha, hd⟩
      · exact .inl ⟨hs hn, hne⟩
      · exact .inr ⟨c, cs, after, hs hc, List.Subset.trans ha hs, hd⟩
  | case3 first rest hne ih =>
    rcases List.mem_cons.1 h with rfl | hm
    · exact .inl ⟨List.mem_cons_self, fun condition children => hne condition children⟩
    · rcases ih hm with ⟨hn, hne⟩ | ⟨c, cs, after, hc, ha, hd⟩
      · exact .inl ⟨List.mem_cons_of_mem _ hn, hne⟩
      · exact .inr ⟨c, cs, after, List.mem_cons_of_mem _ hc, List.subset_cons_of_subset _ ha, hd⟩

theorem exists_bodies_of_mem_foldRuns {nodes body : List Node} {node : Node}
    (h : node ∈ foldRuns nodes) (hb : body ∈ node.bodies) :
    ∃ raw ∈ nodes, body ∈ raw.bodies := by
  rcases exists_of_mem_foldRuns h with ⟨hn, -⟩ | ⟨condition, children, rest, hc, hr, rfl⟩
  · exact ⟨node, hn, hb⟩
  · obtain ⟨branch, hm, rfl⟩ := List.mem_map.1 hb
    rcases List.mem_cons.1 hm with rfl | hm
    · exact ⟨_, hc, List.mem_singleton_self children⟩
    · rcases exists_of_mem_takeBranches hm with ⟨c, cs, rfl, hn⟩ | ⟨cs, rfl, hn⟩
      · exact ⟨_, hr hn, List.mem_singleton_self cs⟩
      · exact ⟨_, hr hn, List.mem_singleton_self cs⟩

theorem lowerBranches_eq_map (branches : List Branch) :
    lowerBranches branches = branches.map lowerBranch := by
  induction branches with
  | nil => rw [lowerBranches, List.map_nil]
  | cons branch rest ih => rw [lowerBranches, ih, List.map_cons]

theorem eq_decision_or_ne (node : Node) :
    (∃ branches, node = .decision branches) ∨ ∀ branches, node ≠ .decision branches := by
  cases node with
  | decision branches => exact .inl ⟨branches, rfl⟩
  | _ => exact .inr fun branches he => by cases he

/-- Folding goes on with the children of a node that is no decision. -/
theorem lower_of_ne_decision {node : Node} (h : ∀ branches, node ≠ .decision branches) :
    lower node = node.withChildren (lowered node.children) := by
  cases node with
  | decision branches => exact (h branches rfl).elim
  | _ =>
    rw [lower]
    rfl

theorem lowered_nil : lowered [] = [] := by
  rw [lowered, lowerAll, foldRuns_nil]

theorem children_lower (node : Node) : (lower node).children = lowered node.children := by
  cases node with
  | text value =>
    rw [lower]
    exact lowered_nil.symm
  | insertion source raw =>
    rw [lower]
    exact lowered_nil.symm
  | statement code =>
    rw [lower]
    exact lowered_nil.symm
  | decision branches =>
    rw [lower]
    exact lowered_nil.symm
  | _ =>
    rw [lower]
    rfl

theorem bodies_lower (node : Node) : (lower node).bodies = node.bodies.map lowered := by
  cases node with
  | decision branches =>
    rw [lower, bodies, bodies, lowerBranches_eq_map, List.map_map, List.map_map]
    apply List.map_congr_left
    rintro ⟨guard, children⟩ -
    rw [Function.comp_apply, lowerBranch]
    rfl
  | _ =>
    rw [lower]
    rfl

/-- Every level of the folded nodes is a level of the raw nodes, folded for itself. -/
theorem Level.exists_raw {nodes level : List Node} (h : Level (lowered nodes) level) :
    ∃ raw, Level nodes raw ∧ level = lowered raw := by
  induction h with
  | top => exact ⟨nodes, .top, rfl⟩
  | inside _ hm hb ih =>
    obtain ⟨raw, hr, rfl⟩ := ih
    obtain ⟨folded, hf, hbody⟩ := exists_bodies_of_mem_foldRuns hm hb
    rw [lowerAll_eq_map] at hf
    obtain ⟨node, hn, rfl⟩ := List.mem_map.1 hf
    rw [bodies_lower] at hbody
    obtain ⟨inner, hi, rfl⟩ := List.mem_map.1 hbody
    exact ⟨inner, .inside hr hn hi, rfl⟩

end Node

end IndentMarkup
