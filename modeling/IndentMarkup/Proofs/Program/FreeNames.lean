import IndentMarkup.Proofs.Expr.FreeNames
import IndentMarkup.Proofs.Program.Generation

/-!
# The names that an output depends on

The output of nodes depends on a scope only through the names that are free in the expressions of
the nodes, where a loop binds its variables in its children. All of these expressions end up in the
translation of the nodes, which has no other free names, and the value of which is the output. The
program of nodes is read as their translation only if the variables of loops are identifiers: any
other variable is spelled out in the program too, and may bring names of its own.
-/
namespace IndentMarkup

/-- The names that are free in the expression of a text. A text that is no expression has none. -/
def Expr.sourceNames (source : String) : List String := (ofSource? source).toList.flatMap freeNames

def AttrValue.freeNames : AttrValue → List String
  | .literal _ => []
  | .expr source _ => Expr.sourceNames source

def Attributes.freeNames (attributes : Attributes) : List String :=
  attributes.flatMap fun a => a.2.freeNames

def Guard.freeNames : Guard → List String
  | .holds condition => Expr.sourceNames condition
  | .always => []

namespace Node

mutual

/-- The names that are free in the expressions of a node. A loop binds its variables in its children
only. -/
def freeNames : Node → List String
  | .element _ attributes children => attributes.freeNames ++ freeNamesAll children
  | .text _ => []
  | .insertion source _ => Expr.sourceNames source
  | .statement code => Expr.sourceNames code
  | .ifThen condition children => Expr.sourceNames condition ++ freeNamesAll children
  | .elseIf condition children => Expr.sourceNames condition ++ freeNamesAll children
  | .otherwise children => freeNamesAll children
  | .loop head children =>
    Expr.sourceNames head.source ++
      (freeNamesAll children).filter fun name => !bindsName head.item head.index name
  | .fragment children => freeNamesAll children
  | .decision branches => freeNamesBranches branches

def freeNamesAll : List Node → List String
  | [] => []
  | node :: rest => freeNames node ++ freeNamesAll rest

def freeNamesBranches : List Branch → List String
  | [] => []
  | .mk guard children :: rest =>
    (guard.freeNames ++ freeNamesAll children) ++ freeNamesBranches rest

end

end Node

namespace Expr

theorem freeNamesAll_eq_flatMap (es : List Expr) : freeNamesAll es = es.flatMap freeNames := by
  induction es with
  | nil => rfl
  | cons e es ih => rw [freeNamesAll, ih, List.flatMap_cons]

theorem freeNamesRest_map (op : BinaryOp) (es : List Expr) :
    freeNamesRest (es.map fun e => (op, e)) = es.flatMap freeNames := by
  induction es with
  | nil => rfl
  | cons e es ih => rw [List.map_cons, freeNamesRest, ih, List.flatMap_cons]

theorem freeNames_call (name : String) (args : List Expr) :
    (call name args).freeNames = args.flatMap freeNames := by
  rw [freeNames, freeNamesAll_eq_flatMap]

theorem freeNames_constant (c : Constant) : (constant c).freeNames = [] := by
  rw [freeNames]

theorem freeNames_orElse (e : Expr) (fallback : Constant) :
    (e.orElse fallback).freeNames = e.freeNames := by
  simp [orElse, freeNames_call, freeNames_constant]

theorem freeNames_ofOperands (first : Expr) (rest : List (BinaryOp × Expr)) :
    (ofOperands first rest).freeNames = first.freeNames ++ freeNamesRest rest := by
  unfold ofOperands
  split
  · next h =>
    rw [List.isEmpty_iff.1 h, freeNamesRest, List.append_nil]
  · rw [freeNames]

end Expr

namespace Term

def freeNames : Term → List String
  | .text _ => []
  | .expr e => e.freeNames

theorem freeNames_literal (t : String) : (literal t).flatMap Expr.freeNames = [] := by
  unfold literal
  split
  · rfl
  · simp [Expr.freeNames_constant]

theorem freeNames_operands (pending : String) (ts : List Term) :
    (operands pending ts).flatMap Expr.freeNames = ts.flatMap freeNames := by
  induction ts generalizing pending with
  | nil => exact freeNames_literal pending
  | cons t ts ih =>
    cases t with
    | text s => exact ih (pending ++ s)
    | expr e =>
      rw [operands, List.flatMap_append, freeNames_literal, List.flatMap_cons, ih ""]
      rfl

/-- A sum has the free names of its terms. -/
theorem freeNames_sum (ts : List Term) : (sum ts).freeNames = ts.flatMap freeNames := by
  rw [← freeNames_operands "" ts]
  unfold sum
  split
  · next h => rw [h, Expr.freeNames_constant, List.flatMap_nil]
  · next first rest h =>
    rw [h, Expr.freeNames_ofOperands, Expr.freeNamesRest_map, List.flatMap_cons]

/-- A term that is made from the expression of a text and has its free names only. -/
theorem freeNames_of_source {source : String} {f : Expr → Expr}
    (hf : ∀ e, (f e).freeNames = e.freeNames) :
    ((Expr.ofSource? source).toList.map fun e => Term.expr (f e)).flatMap freeNames =
      Expr.sourceNames source := by
  rw [List.flatMap_map, Expr.sourceNames]
  exact List.flatMap_congr fun e _ => hf e

theorem freeNames_ofAttribute (key : String) (value : AttrValue) :
    (ofAttribute key value).flatMap freeNames = value.freeNames := by
  cases value with
  | literal text => rfl
  | expr source raw =>
    refine freeNames_of_source fun e => ?_
    simp [Expr.freeNames_call, Expr.freeNames_constant, Expr.freeNames_orElse]

theorem freeNames_ofAttributes (attributes : Attributes) :
    (ofAttributes attributes).flatMap freeNames = attributes.freeNames := by
  rw [ofAttributes, List.flatMap_assoc, Attributes.freeNames]
  exact List.flatMap_congr fun a _ => freeNames_ofAttribute a.1 a.2

end Term

theorem append_subset_append {α : Type} {a b c d : List α} (h : a ⊆ b) (k : c ⊆ d) :
    a ++ c ⊆ b ++ d :=
  List.append_subset.2
    ⟨List.subset_append_of_subset_left d h, List.subset_append_of_subset_right b k⟩

namespace Node

/-- What the children of a loop leave free, the loop binds or leaves free. -/
theorem subset_freeNames_loop (head : LoopHead) {children : List Node}
    (h : (termsAll children).flatMap Term.freeNames ⊆ freeNamesAll children) :
    (terms (.loop head children)).flatMap Term.freeNames ⊆ freeNames (.loop head children) := by
  rw [terms, freeNames, Expr.sourceNames]
  cases Expr.ofSource? head.source with
  | none => exact List.nil_subset _
  | some e =>
    have hb := List.filter_subset (fun name => !bindsName head.item head.index name) h
    simpa [Term.freeNames, Expr.freeNames, Expr.freeNames_orElse, Term.freeNames_sum] using
      append_subset_append (List.Subset.refl e.freeNames) hb

mutual

/-- The terms of a node have no free names but those of the node. -/
theorem subset_freeNames (node : Node) :
    (terms node).flatMap Term.freeNames ⊆ freeNames node := by
  match node with
  | .element tag attributes children =>
    have hc := append_subset_append (List.Subset.refl attributes.freeNames)
      (subset_freeNamesAll children)
    rw [terms, freeNames]
    simpa [Term.freeNames, Term.freeNames_ofAttributes] using hc
  | .text value =>
    rw [terms]
    exact List.nil_subset _
  | .insertion source raw =>
    have hs : (terms (.insertion source raw)).flatMap Term.freeNames = Expr.sourceNames source := by
      rw [terms]
      refine Term.freeNames_of_source fun e => ?_
      simp [Expr.freeNames_call, Expr.freeNames_orElse]
    rw [hs, freeNames]
    exact List.Subset.refl _
  | .statement code =>
    have hs : (terms (.statement code)).flatMap Term.freeNames = Expr.sourceNames code := by
      rw [terms]
      refine Term.freeNames_of_source fun e => ?_
      simp [Expr.freeNames_call]
    rw [hs, freeNames]
    exact List.Subset.refl _
  | .loop head children => exact subset_freeNames_loop head (subset_freeNamesAll children)
  | .fragment children =>
    rw [terms, freeNames]
    exact subset_freeNamesAll children
  | .decision branches =>
    rw [terms, freeNames, List.flatMap_singleton]
    exact subset_freeNamesBranches branches
  | .ifThen _ _ =>
    rw [terms]
    exact List.nil_subset _
  | .elseIf _ _ =>
    rw [terms]
    exact List.nil_subset _
  | .otherwise _ =>
    rw [terms]
    exact List.nil_subset _

theorem subset_freeNamesAll (nodes : List Node) :
    (termsAll nodes).flatMap Term.freeNames ⊆ freeNamesAll nodes := by
  match nodes with
  | [] =>
    rw [termsAll]
    exact List.nil_subset _
  | node :: rest =>
    rw [termsAll, List.flatMap_append, freeNamesAll]
    exact append_subset_append (subset_freeNames node) (subset_freeNamesAll rest)

theorem subset_freeNamesBranches (branches : List Branch) :
    (choice branches).freeNames ⊆ freeNamesBranches branches := by
  match branches with
  | [] =>
    rw [choice, Expr.freeNames_constant]
    exact List.nil_subset _
  | .mk .always children :: rest =>
    rw [choice, Term.freeNames_sum, freeNamesBranches]
    exact List.subset_append_of_subset_left _ (subset_freeNamesAll children)
  | .mk (.holds condition) children :: rest =>
    have hr := subset_freeNamesBranches rest
    rw [choice, freeNamesBranches]
    cases hs : Expr.ofSource? condition with
    | none => exact List.subset_append_of_subset_right _ hr
    | some e =>
      have hc : e.freeNames ⊆ (Guard.holds condition).freeNames := by
        rw [Guard.freeNames, Expr.sourceNames, hs, Option.toList_some, List.flatMap_singleton]
        exact List.Subset.refl _
      have hb := append_subset_append hc (subset_freeNamesAll children)
      simpa [Expr.freeNames, Expr.freeNames_orElse, Term.freeNames_sum] using
        append_subset_append hb hr

end

end Node

/-- The output of nodes is the same in scopes that agree on their free names. -/
theorem Engine.render_congr (engine : Engine) {nodes : List Node} {s t : Scope}
    (h : Scope.Agree (Node.freeNamesAll nodes) s t) :
    engine.render nodes s = engine.render nodes t := by
  have hs : (Node.translation nodes).freeNames ⊆ Node.freeNamesAll nodes := by
    rw [Node.translation, Term.freeNames_sum]
    exact Node.subset_freeNamesAll nodes
  have he := engine.eval_congr (Node.translation nodes) (h.of_subset hs)
  rw [Node.eval_translation, Node.eval_translation] at he
  exact Value.string.inj (Except.ok.inj he)

theorem Program.render_congr {nodes : List Node} (hn : Node.allNamed nodes = true)
    (engine : Engine) {s t : Scope} (h : Scope.Agree (Node.freeNamesAll nodes) s t) :
    (ofNodes nodes engine).render s = (ofNodes nodes engine).render t := by
  rw [render_ofNodes hn, render_ofNodes hn, engine.render_congr h]

theorem Template.renderOn_congr {fallbackTag source : String} (backend : Backend) (engine : Engine)
    {s t : Scope} (h : Scope.Agree (Node.freeNamesAll (compile fallbackTag source).nodes) s t) :
    (compile fallbackTag source).renderOn backend engine s =
      (compile fallbackTag source).renderOn backend engine t := by
  cases backend with
  | treeWalk => exact engine.render_congr h
  | generated => exact Program.render_congr (allNamed_compile fallbackTag source) engine h

/-- Scopes that agree on free names cannot be told apart: an expression has the same value or the
same error in both, nodes are walked to the same output, their program gives the same output if
their loops are named properly, and so do both back ends for the template of any source. -/
theorem Engine.results_of_free_names (engine : Engine) :
    (∀ (e : Expr) (s t : Scope), Scope.Agree e.freeNames s t →
      engine.eval e s = engine.eval e t) ∧
    (∀ (nodes : List Node) (s t : Scope), Scope.Agree (Node.freeNamesAll nodes) s t →
      engine.render nodes s = engine.render nodes t ∧
      (Node.allNamed nodes = true →
        (Program.ofNodes nodes engine).render s = (Program.ofNodes nodes engine).render t)) ∧
    (∀ (fallbackTag source : String) (backend : Backend) (s t : Scope),
      Scope.Agree (Node.freeNamesAll (Template.compile fallbackTag source).nodes) s t →
      (Template.compile fallbackTag source).renderOn backend engine s =
        (Template.compile fallbackTag source).renderOn backend engine t) := by
  refine ⟨?_, ?_, ?_⟩
  · intro e s t h
    exact engine.eval_congr e h
  · intro nodes s t h
    exact ⟨engine.render_congr h, fun hn => Program.render_congr hn engine h⟩
  · intro fallbackTag source backend s t h
    exact Template.renderOn_congr backend engine h

/-- A loop whose variables hide names of the scopes around it. -/
theorem Engine.results_of_free_names_shadowed :
    (Program.ofNodes [.loop ⟨"v", some "i", "xs"⟩ [.insertion "v + i" false]] empty).render
        (.ofValue (.object [("v", .null), ("xs", .array [.string "a"])])) =
      (Program.ofNodes [.loop ⟨"v", some "i", "xs"⟩ [.insertion "v + i" false]] empty).render
        (.child (.ofValue (.object [("i", .string "b"), ("xs", .array [.string "a"])]))) := by
  have hn : Node.freeNamesAll [.loop ⟨"v", some "i", "xs"⟩ [.insertion "v + i" false]] =
      ["xs"] := by decide +kernel
  refine ((results_of_free_names empty).2.1 _ _ _ ?_).2 (by decide)
  rw [hn]
  intro name hm
  rw [List.mem_singleton.1 hm]
  rfl

/-- A loop over no items with a variable that closes the loop in a program and begins another. -/
def Node.spillingLoop : Node :=
  .loop ⟨"v in xs) \x7b v \x7d + for (v", none, "[]"⟩ [.text "b"]

theorem Node.read_program_spillingLoop :
    Expr.read (program [spillingLoop]) =
      .ok (.ofOperands (.loop "v" none (.var "xs") (.var "v"))
        [(.add, .loop "v" none (.orElse (.array []) .null) (.constant (.string "b")))]) := by
  have hv : Expr.read "v" = .ok (.var "v") := by with_unfolding_all rfl
  have hxs : Expr.read "xs" = .ok (.var "xs") := by with_unfolding_all rfl
  have hi : Expr.read "[]" = .ok (.array []) := by with_unfolding_all rfl
  have hb : Expr.read "\"b\"" = .ok (.constant (.string "b")) := (Expr.isOperand_quote "b").read
  have hn : LoopHead.isNamed ⟨"v", none, "[]"⟩ = true := by decide
  have hfirst := Expr.isOperand_loop (Lexer.Spells.word (w := "v".toList) (by decide)) (.one .ident)
    hxs hv
  have hsecond := Expr.isOperand_loop_of_isNamed hn hi hb
  have hr := Expr.read_sum hfirst (.cons hsecond .nil)
  have hp : program [spillingLoop] = String.intercalate " + "
      ["for (" ++ "v" ++ " in " ++ "xs" ++ ") \x7b " ++ "v" ++ " \x7d",
        "for (" ++ "v" ++ " in try((" ++ "[]" ++ "), null)) \x7b " ++ "\"b\"" ++ " \x7d"] := by
    decide +kernel
  rw [hp]
  exact hr

/-- The nodes have no free names, but their program reads a name of the scope. -/
theorem Program.render_of_spilling_name :
    ¬ ∀ (engine : Engine) (nodes : List Node) (s t : Scope),
      Scope.Agree (Node.freeNamesAll (Node.lowered nodes)) s t →
      engine.render (Node.lowered nodes) s = engine.render (Node.lowered nodes) t ∧
        (ofNodes (Node.lowered nodes) engine).render s =
          (ofNodes (Node.lowered nodes) engine).render t := by
  intro h
  have hl : Node.lowered [Node.spillingLoop] = [Node.spillingLoop] := by with_unfolding_all rfl
  have hn : Node.freeNamesAll [Node.spillingLoop] = [] := by decide +kernel
  have ha : Scope.Agree (Node.freeNamesAll (Node.lowered [Node.spillingLoop]))
      (.ofValue (.object [("xs", .array [.string "a"])])) .empty := by
    rw [hl, hn]
    intro name hm
    cases hm
  have hr := (h Engine.empty _ _ _ ha).2
  rw [hl] at hr
  unfold ofNodes ofSource render at hr
  rw [Node.read_program_spillingLoop] at hr
  exact absurd hr (by decide)

end IndentMarkup
