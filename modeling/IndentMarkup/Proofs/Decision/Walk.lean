import IndentMarkup.Proofs.Decision.Runs
import IndentMarkup.Render

/-!
# Walking conditions without decisions

Nodes can be rendered as they were read, without their conditions being folded into decisions. A
walk over the siblings only has to remember how far a run has come, that is a condition, the
alternatives directly behind it and perhaps a default: there is no run, nothing in it is taken yet,
or something is. Folding the conditions first and rendering the decisions gives the same, with the
same conditions evaluated in the same order, whatever effects an evaluator has.
-/
namespace IndentMarkup

/-- How far a run of a condition, its alternatives and its default has come. -/
inductive Run where
  | none
  | pending
  | taken
  deriving Repr, DecidableEq

namespace Node

section

variable {m : Type → Type} [Monad m]

def leaving (text : m String) : m (String × Run) := do
  let t ← text
  pure (t, .none)

/-- The text of a branch if its condition holds, and how far that brings the run. -/
def attempt (evaluator : Evaluator m) (condition : String) (s : Scope) (text : m String) :
    m (String × Run) := do
  let v ← evaluator.valueOr (.bool false) condition s
  if v.isTruthy then do
    let t ← text
    pure (t, .taken)
  else pure ("", .pending)

mutual

/-- What a node gives at some point of a run, and how far the run has come behind it. -/
def step (evaluator : Evaluator m) : Node → Run → Scope → m (String × Run)
  | .ifThen condition children, _, s =>
    attempt evaluator condition s (walk evaluator children .none s)
  | .elseIf condition children, .pending, s =>
    attempt evaluator condition s (walk evaluator children .none s)
  | .elseIf _ _, .taken, _ => pure ("", .taken)
  | .elseIf _ _, .none, _ => pure ("", .none)
  | .otherwise children, .pending, s => leaving (walk evaluator children .none s)
  | .otherwise _, .taken, _ => pure ("", .none)
  | .otherwise _, .none, _ => pure ("", .none)
  | .element tag attributes children, _, s => leaving do
    let head ← attributes.render evaluator s
    let content ← walk evaluator children .none s
    pure ("<" ++ tag ++ head ++ ">" ++ content ++ "</" ++ tag ++ ">")
  | .text value, _, _ => pure (value, .none)
  | .insertion source raw, _, s => leaving do
    let v ← evaluator.valueOr .null source s
    pure (if raw then v.text else v.escapedText)
  | .statement code, _, s => leaving do
    let _ ← evaluator.valueOr .null code s
    pure ""
  | .loop head children, _, s => leaving do
    let v ← evaluator.valueOr .null head.source s
    match v with
    | .array items => do
      let texts ← (s.rounds head.item head.index items).mapM fun inner =>
        walk evaluator children .none inner
      pure (String.join texts)
    | _ => pure ""
  | .fragment children, _, s => leaving (walk evaluator children .none s)
  | .decision branches, _, s => leaving (walkFirst evaluator branches s)

/-- What nodes give from some point of a run on. -/
def walk (evaluator : Evaluator m) : List Node → Run → Scope → m String
  | [], _, _ => pure ""
  | node :: rest, run, s => do
    let first ← step evaluator node run s
    let others ← walk evaluator rest first.2 s
    pure (first.1 ++ others)

def walkFirst (evaluator : Evaluator m) : List Branch → Scope → m String
  | [], _ => pure ""
  | .mk .always children :: _, s => walk evaluator children .none s
  | .mk (.holds condition) children :: rest, s => do
    let v ← evaluator.valueOr (.bool false) condition s
    if v.isTruthy then walk evaluator children .none s else walkFirst evaluator rest s

end

/-- What a node whose conditions are folded gives at some point of a run. -/
def renderStep (evaluator : Evaluator m) : Node → Run → Scope → m (String × Run)
  | .ifThen condition children, _, s =>
    attempt evaluator condition s (renderAll evaluator children s)
  | .elseIf condition children, .pending, s =>
    attempt evaluator condition s (renderAll evaluator children s)
  | .elseIf _ _, .taken, _ => pure ("", .taken)
  | .otherwise children, .pending, s => leaving (renderAll evaluator children s)
  | node, _, s => leaving (render evaluator node s)

/-- What nodes give from some point of a run on, if what is left of the run is taken off first. -/
def renderFrom (evaluator : Evaluator m) (nodes : List Node) (run : Run) (s : Scope) : m String :=
  match run with
  | .none => renderAll evaluator (foldRuns nodes) s
  | .pending => do
    let first ← renderFirst evaluator (takeBranches nodes).1 s
    let others ← renderAll evaluator (foldRuns (takeBranches nodes).2) s
    pure (first ++ others)
  | .taken => renderAll evaluator (foldRuns (takeBranches nodes).2) s

section Lawful

variable [LawfulMonad m] (evaluator : Evaluator m)

@[simp] theorem map_append_empty (text : m String) : HAppend.hAppend "" <$> text = text := by
  have h : (HAppend.hAppend "" : String → String) = id := by
    funext t
    exact String.empty_append
  rw [h, id_map]

theorem renderFrom_nil (run : Run) (s : Scope) : renderFrom evaluator [] run s = pure "" := by
  cases run <;> simp [renderFrom, takeBranches, foldRuns_nil, renderAll, renderFirst]

/-- A node that continues no run ends the one in front of it. -/
theorem renderFrom_of_continues_false {node : Node} (h : node.continuesRun = false)
    (rest : List Node) (run : Run) (s : Scope) :
    renderFrom evaluator (node :: rest) run s = renderFrom evaluator (node :: rest) .none s := by
  have ht := takeBranches_of_continues_false h rest
  cases run with
  | none => rfl
  | pending => simp [renderFrom, ht, renderFirst]
  | taken => simp [renderFrom, ht]

/-- A branch with a condition is attempted, and what is left of its run is rendered behind it. -/
theorem renderFirst_holds (condition : String) (children rest : List Node) (s : Scope) :
    (do
      let first ← renderFirst evaluator (.mk (.holds condition) children :: (takeBranches rest).1) s
      let others ← renderAll evaluator (foldRuns (takeBranches rest).2) s
      pure (first ++ others)) = (do
      let p ← attempt evaluator condition s (renderAll evaluator children s)
      let others ← renderFrom evaluator rest p.2 s
      pure (p.1 ++ others)) := by
  rw [renderFirst, attempt]
  simp only [bind_assoc]
  congr 1
  funext v
  by_cases hv : v.isTruthy = true
  · simp [hv, renderFrom]
  · simp [hv, renderFrom]

theorem renderFrom_plain {node : Node} (h : node.continuesRun = false)
    (hi : ∀ condition children, node ≠ .ifThen condition children) (rest : List Node) (run : Run)
    (s : Scope) :
    renderFrom evaluator (node :: rest) run s = (do
      let p ← leaving (render evaluator node s)
      let others ← renderFrom evaluator rest p.2 s
      pure (p.1 ++ others)) := by
  rw [renderFrom_of_continues_false evaluator h, renderFrom, foldRuns_of_ne_ifThen hi, renderAll]
  simp [leaving, renderFrom]

/-- Taking a run off first or going through it node by node gives the same. -/
theorem renderFrom_cons (node : Node) (rest : List Node) (run : Run) (s : Scope) :
    renderFrom evaluator (node :: rest) run s = (do
      let p ← renderStep evaluator node run s
      let others ← renderFrom evaluator rest p.2 s
      pure (p.1 ++ others)) := by
  cases node with
  | ifThen condition children =>
    rw [renderFrom_of_continues_false evaluator rfl, renderFrom, foldRuns_ifThen, renderAll, render]
    exact renderFirst_holds evaluator condition children rest s
  | elseIf condition children =>
    cases run with
    | none => simp [renderFrom, renderStep, render, leaving, foldRuns_of_ne_ifThen, renderAll]
    | pending => exact renderFirst_holds evaluator condition children rest s
    | taken => simp [renderFrom, renderStep, takeBranches]
  | otherwise children =>
    cases run with
    | none => simp [renderFrom, renderStep, render, leaving, foldRuns_of_ne_ifThen, renderAll]
    | pending => simp [renderFrom, renderStep, leaving, takeBranches, renderFirst]
    | taken => simp [renderFrom, renderStep, render, leaving, takeBranches]
  | _ => exact renderFrom_plain evaluator rfl (fun _ _ h => by cases h) rest run s

end Lawful

mutual

theorem step_eq_renderStep [LawfulMonad m] (evaluator : Evaluator m)
    (node : Node) (run : Run) (s : Scope) :
    step evaluator node run s = renderStep evaluator (lower node) run s := by
  match node, run with
  | .ifThen condition children, run =>
    rw [step, lower, renderStep, walk_eq_renderFrom]
    rfl
  | .elseIf condition children, .pending =>
    rw [step, lower, renderStep, walk_eq_renderFrom]
    rfl
  | .elseIf condition children, .taken => rw [step, lower, renderStep]
  | .elseIf condition children, .none => simp [step, lower, renderStep, render, leaving]
  | .otherwise children, .pending =>
    rw [step, lower, renderStep, walk_eq_renderFrom]
    rfl
  | .otherwise children, .taken => simp [step, lower, renderStep, render, leaving]
  | .otherwise children, .none => simp [step, lower, renderStep, render, leaving]
  | .element tag attributes children, run =>
    simp only [step, lower, renderStep, render]
    rw [walk_eq_renderFrom]
    rfl
  | .text value, run => simp [step, lower, renderStep, render, leaving]
  | .insertion source raw, run => simp only [step, lower, renderStep, render]
  | .statement code, run => simp only [step, lower, renderStep, render]
  | .loop head children, run =>
    have hc : (fun inner => walk evaluator children .none inner) =
        fun inner => renderAll evaluator (foldRuns (lowerAll children)) inner := by
      funext inner
      exact walk_eq_renderFrom evaluator children .none inner
    rw [step, lower, hc]
    simp only [renderStep]
    rfl
  | .fragment children, run =>
    simp only [step, lower, renderStep, render]
    rw [walk_eq_renderFrom]
    rfl
  | .decision branches, run =>
    simp only [step, lower, renderStep, render]
    rw [walkFirst_eq_renderFirst]

theorem walk_eq_renderFrom [LawfulMonad m] (evaluator : Evaluator m)
    (nodes : List Node) (run : Run) (s : Scope) :
    walk evaluator nodes run s = renderFrom evaluator (lowerAll nodes) run s := by
  match nodes with
  | [] => rw [walk, lowerAll, renderFrom_nil]
  | node :: rest =>
    rw [walk, lowerAll, renderFrom_cons, step_eq_renderStep]
    congr 1
    funext p
    rw [walk_eq_renderFrom]

theorem walkFirst_eq_renderFirst [LawfulMonad m] (evaluator : Evaluator m)
    (branches : List Branch) (s : Scope) :
    walkFirst evaluator branches s = renderFirst evaluator (lowerBranches branches) s := by
  match branches with
  | [] => rw [walkFirst, lowerBranches, renderFirst]
  | .mk .always children :: rest =>
    rw [walkFirst, lowerBranches, lowerBranch, renderFirst, walk_eq_renderFrom]
    rfl
  | .mk (.holds condition) children :: rest =>
    rw [walkFirst, lowerBranches, lowerBranch, renderFirst, walk_eq_renderFrom,
      walkFirst_eq_renderFirst]
    rfl

end

/-- Nodes whose conditions were folded into decisions are rendered as the walk over the nodes goes,
with any evaluator and in any scope. -/
theorem renderAll_lowered [LawfulMonad m] (evaluator : Evaluator m) (nodes : List Node)
    (s : Scope) : renderAll evaluator (lowered nodes) s = walk evaluator nodes .none s := by
  rw [walk_eq_renderFrom]
  rfl

end

/-- An evaluator that keeps the texts it is given and to which only one of them is true. -/
def recording (holding : String) : Evaluator (StateM (List String)) := fun source _ => do
  modify fun sources => sources ++ [source]
  pure (.ok (.bool (source == holding)))

/-- Behind the alternative that is taken no condition is evaluated, and a second default gives
nothing. -/
theorem renderAll_lowered_run :
    (renderAll (recording "b") (lowered [.ifThen "a" [.text "A"], .elseIf "b" [.text "B",
        .elseIf "d" [.text "D"]], .elseIf "c" [.text "C"], .otherwise [], .otherwise [.text "E"]])
      Scope.empty).run [] = ("B", ["a", "b"]) := by
  rw [renderAll_lowered]
  rfl

end Node

end IndentMarkup
