import IndentMarkup.Pipeline
import IndentMarkup.Proofs.Outline.Names
import IndentMarkup.Proofs.Program.Evaluation

/-!
# Generated programs

The program of nodes is read as their translation, and the translation has the text of the nodes as
its value, so writing a program and evaluating it gives what walking the nodes gives. The nodes of a
source name their loops properly, before and after their conditions are folded into decisions, so
their program can always be generated.
-/
namespace IndentMarkup

theorem Program.render_ofNodes {nodes : List Node} (h : Node.allNamed nodes = true)
    (engine : Engine) (s : Scope) : (ofNodes nodes engine).render s = engine.render nodes s := by
  have hr : (Expr.read (Node.program nodes)).toOption = some (Node.translation nodes) := by
    rw [Node.read_program_of_allNamed h]
    rfl
  unfold Program.render ofNodes ofSource
  rw [hr]
  dsimp only
  rw [Node.eval_translation]
  rfl

theorem Template.allNamed_compile (fallbackTag source : String) :
    Node.allNamed (compile fallbackTag source).nodes = true :=
  Node.allNamed_lowered (Outline.allNamed_read fallbackTag source)

/-- Both back ends give the same output, for the template of any source and for any nodes whose
loops are named properly. -/
theorem Template.backends_agree :
    (∀ (fallbackTag source : String) (engine : Engine) (s : Scope),
      (compile fallbackTag source).renderOn .treeWalk engine s =
        (compile fallbackTag source).renderOn .generated engine s) ∧
    (∀ (nodes : List Node) (engine : Engine) (s : Scope), Node.allNamed nodes = true →
      engine.render nodes s = (Program.ofNodes nodes engine).render s) := by
  constructor
  · intro fallbackTag source engine s
    exact (Program.render_ofNodes (allNamed_compile fallbackTag source) engine s).symm
  · intro nodes engine s h
    exact (Program.render_ofNodes h engine s).symm

/-- A loop over no array, in an element with a computed attribute. -/
theorem Template.backends_agree_loop :
    Engine.empty.render
        [.element "p" [("id", .expr "a ? b" true)] [.loop ⟨"for", some "$", "x"⟩ [.text "\""]]]
        Scope.empty =
      (Program.ofNodes
        [.element "p" [("id", .expr "a ? b" true)] [.loop ⟨"for", some "$", "x"⟩ [.text "\""]]]
        Engine.empty).render Scope.empty :=
  Template.backends_agree.2 _ _ _ (by decide)

theorem Stage.generation_of_allNamed {nodes : List Node} (h : Node.allNamed nodes = true) :
    generation nodes = .ok (Node.program nodes) := by
  unfold generation
  dsimp only
  rw [Node.read_program_of_allNamed h]

/-- A program is read as the translation of its nodes, which always has a text as its value, the
output of the nodes, and the program of a source can always be generated. -/
theorem Node.program_is_translation :
    (∀ nodes : List Node, allNamed nodes = true →
      Expr.read (program nodes) = .ok (translation nodes)) ∧
    (∀ (nodes : List Node) (engine : Engine) (s : Scope),
      engine.eval (translation nodes) s = .ok (.string (engine.render nodes s))) ∧
    (∀ fallbackTag source : String,
      Stage.generation (Outline.read fallbackTag source) =
        .ok (program (Outline.read fallbackTag source)) ∧
      Stage.generation (lowered (Outline.read fallbackTag source)) =
        .ok (program (lowered (Outline.read fallbackTag source)))) := by
  refine ⟨fun nodes h => read_program_of_allNamed h, ?_, ?_⟩
  · intro nodes engine s
    exact eval_translation engine nodes s
  · intro fallbackTag source
    have h := Outline.allNamed_read fallbackTag source
    exact ⟨Stage.generation_of_allNamed h, Stage.generation_of_allNamed (allNamed_lowered h)⟩

/-- Texts on both sides of a decision whose second guard is no expression. -/
theorem Node.program_is_translation_decision :
    Expr.read (program [.text "a\n", .decision [.mk (.holds "x") [.text "b"],
        .mk (.holds "(") [], .mk .always []], .text "c", .text "d"]) =
      .ok (translation [.text "a\n", .decision [.mk (.holds "x") [.text "b"],
        .mk (.holds "(") [], .mk .always []], .text "c", .text "d"]) :=
  Node.program_is_translation.1 _ (by decide)

end IndentMarkup
