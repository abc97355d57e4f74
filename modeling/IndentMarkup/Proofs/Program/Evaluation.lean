import IndentMarkup.Proofs.Program.Translation
import IndentMarkup.Render

/-!
# The value of a translation

The translation of nodes always has a value, which is the text that the nodes are rendered as. This
holds of all nodes, whatever their loops are called: names matter only where a program is spelled.
Each term of a translation is a text of its own, so a sum of terms is their concatenation.
-/
namespace IndentMarkup

namespace Engine

def valueOr (engine : Engine) (fallback : Value) (source : String) (s : Scope) : Value :=
  match engine.evaluate source s with
  | .ok v => v
  | .error _ => fallback

section

variable (engine : Engine) (s : Scope)

theorem run_valueOr (fallback : Value) (source : String) :
    Id.run (engine.evaluator.valueOr fallback source s) = engine.valueOr fallback source s := by
  unfold Evaluator.valueOr evaluator valueOr
  cases engine.evaluate source s <;> rfl

theorem valueOr_of_ofSource?_eq_none {source : String} (h : Expr.ofSource? source = none)
    (fallback : Value) : engine.valueOr fallback source s = fallback := by
  unfold Expr.ofSource? at h
  unfold valueOr evaluate
  cases hr : Expr.read source with
  | error fault => rfl
  | ok e =>
    rw [hr] at h
    cases h

theorem eval_orElse {source : String} {e : Expr} (h : Expr.ofSource? source = some e)
    (fallback : Constant) :
    engine.eval (e.orElse fallback) s = .ok (engine.valueOr fallback.value source s) := by
  have hf : engine.eval (.constant fallback) s = .ok fallback.value := by rw [eval]
  rw [Expr.orElse, eval, evalAll_eq_map, List.map_cons, List.map_singleton, hf, valueOr, evaluate,
    Expr.ofSource?_eq_some_iff.1 h]
  dsimp only
  cases engine.eval e s <;> rfl

/-- The value of an expression decides what is written for an attribute. -/
theorem run_render_expr (key source : String) (raw : Bool) :
    Id.run ((AttrValue.expr source raw).render engine.evaluator key s) =
      (engine.valueOr (.bool false) source s).asAttribute key raw := by
  rw [← engine.run_valueOr]
  rfl

end

end Engine

namespace Term

/-- The value of an expression is a text. -/
def Gives (engine : Engine) (s : Scope) (e : Expr) (out : String) : Prop :=
  engine.eval e s = .ok (.string out)

/-- The texts that terms give in a scope, one behind the other. -/
inductive Yields (engine : Engine) (s : Scope) : List Term → String → Prop
  | nil : Yields engine s [] ""
  | text {t out : String} {rest : List Term} (h : Yields engine s rest out) :
      Yields engine s (.text t :: rest) (t ++ out)
  | expr {e : Expr} {t out : String} {rest : List Term} (he : Gives engine s e t)
      (h : Yields engine s rest out) : Yields engine s (.expr e :: rest) (t ++ out)

variable {engine : Engine} {s : Scope}

theorem Yields.append {ts us : List Term} {x y : String} (h : Yields engine s ts x)
    (h' : Yields engine s us y) : Yields engine s (ts ++ us) (x ++ y) := by
  induction h with
  | nil => rwa [String.empty_append]
  | text _ ih =>
    rw [String.append_assoc]
    exact .text ih
  | expr he _ ih =>
    rw [String.append_assoc]
    exact .expr he ih

theorem Yields.single_text (t : String) : Yields engine s [.text t] t := by
  have h : Yields engine s [.text t] (t ++ "") := .text .nil
  rwa [String.append_empty] at h

theorem Yields.single {e : Expr} {t : String} (h : Gives engine s e t) :
    Yields engine s [.expr e] t := by
  have h' : Yields engine s [.expr e] (t ++ "") := .expr h .nil
  rwa [String.append_empty] at h'

/-- A term with an expression that cannot be read is left out, and what it would have to give is
nothing. -/
theorem Yields.of_source {source : String} {f : Expr → Expr} {out : String}
    (hn : Expr.ofSource? source = none → out = "")
    (hs : ∀ e, Expr.ofSource? source = some e → Gives engine s (f e) out) :
    Yields engine s ((Expr.ofSource? source).toList.map fun e => .expr (f e)) out := by
  cases h : Expr.ofSource? source with
  | none =>
    rw [hn h]
    exact .nil
  | some e => exact .single (hs e h)

theorem gives_literal (t : String) : Gives engine s (.constant (.string t)) t := by
  rw [Gives, Engine.eval]
  rfl

theorem evalRest_add {es : List Expr} {xs : List String}
    (h : List.Forall₂ (Gives engine s) es xs) (left : String) :
    engine.evalRest (.string left) (es.map fun e => (.add, e)) s =
      .ok (.string (left ++ String.join xs)) := by
  induction h generalizing left with
  | nil =>
    rw [List.map_nil, Engine.evalRest, String.join_nil, String.append_empty]
  | cons he _ ih =>
    rw [List.map_cons, Engine.evalRest, String.join_cons, ← String.append_assoc, ← ih]
    rw [Gives] at he
    rw [he]
    rfl

theorem literal_gives (engine : Engine) (s : Scope) (t : String) :
    ∃ xs, List.Forall₂ (Gives engine s) (literal t) xs ∧ String.join xs = t := by
  unfold literal
  split
  · next h => exact ⟨[], .nil, by rw [h, String.join_nil]⟩
  · exact ⟨[t], .cons (gives_literal t) .nil, by
      rw [String.join_cons, String.join_nil, String.append_empty]⟩

theorem operands_give {ts : List Term} {out : String} (h : Yields engine s ts out)
    (pending : String) :
    ∃ xs, List.Forall₂ (Gives engine s) (operands pending ts) xs ∧
      String.join xs = pending ++ out := by
  induction h generalizing pending with
  | nil =>
    rw [String.append_empty]
    exact literal_gives engine s pending
  | text _ ih =>
    rw [← String.append_assoc]
    exact ih _
  | @expr e t out rest he _ ih =>
    obtain ⟨xs, hx, hj⟩ := literal_gives engine s pending
    obtain ⟨ys, hy, hk⟩ := ih ""
    refine ⟨xs ++ t :: ys, List.rel_append hx (.cons he hy), ?_⟩
    rw [String.join_append, String.join_cons, hj, hk, String.empty_append]

theorem ofOperands_gives {e : Expr} {x : String} {es : List Expr} {xs : List String}
    (he : Gives engine s e x) (h : List.Forall₂ (Gives engine s) es xs) :
    Gives engine s (.ofOperands e (es.map fun f => (.add, f))) (x ++ String.join xs) := by
  cases h with
  | nil =>
    rw [String.join_nil, String.append_empty]
    exact he
  | cons hf hr =>
    have hc := evalRest_add (.cons hf hr) x
    rw [Gives] at he ⊢
    rw [Expr.ofOperands, if_neg (by simp), Engine.eval, he]
    exact hc

/-- The value of a sum is the concatenation of what its terms give. -/
theorem sum_gives {ts : List Term} {out : String} (h : Yields engine s ts out) :
    Gives engine s (sum ts) out := by
  obtain ⟨xs, hx, hj⟩ := operands_give h ""
  rw [String.empty_append] at hj
  rw [← hj]
  unfold sum
  generalize operands "" ts = es at hx ⊢
  cases hx with
  | nil => exact gives_literal ""
  | cons he hr =>
    rw [String.join_cons]
    exact ofOperands_gives he hr

theorem attribute_yields (key : String) (value : AttrValue) :
    Yields engine s (ofAttribute key value) (Id.run (value.render engine.evaluator key s)) := by
  cases value with
  | literal text => exact .single_text _
  | expr source raw =>
    rw [Engine.run_render_expr, ofAttribute]
    refine .of_source (fun hn => ?_) fun e he => ?_
    · rw [Engine.valueOr_of_ofSource?_eq_none engine s hn]
      rfl
    · have hk : engine.eval (.constant (.string key)) s = .ok (.string key) := by
        rw [Engine.eval]
        rfl
      rw [Gives, Engine.eval, Engine.evalAll_eq_map, List.map_cons, List.map_singleton, hk,
        Engine.eval_orElse engine s he]
      cases raw <;> rfl

theorem attributes_yield (engine : Engine) (s : Scope) (attributes : Attributes) :
    Yields engine s (ofAttributes attributes)
      (Id.run (Attributes.render engine.evaluator s attributes)) := by
  induction attributes with
  | nil => exact .nil
  | cons a attributes ih => exact .append (attribute_yields a.1 a.2) ih

end Term

namespace Node

open Term

variable (engine : Engine)

theorem insertion_yields (source : String) (raw : Bool) (s : Scope) :
    Yields engine s (terms (.insertion source raw))
      (Id.run (render engine.evaluator (.insertion source raw) s)) := by
  have hr : Id.run (render engine.evaluator (.insertion source raw) s) =
      if raw then (engine.valueOr .null source s).text
      else (engine.valueOr .null source s).escapedText := by
    rw [← Engine.run_valueOr, render]
    rfl
  rw [hr, terms]
  refine .of_source (fun hn => ?_) fun e he => ?_
  · rw [Engine.valueOr_of_ofSource?_eq_none engine s hn]
    cases raw <;> rfl
  · rw [Gives, Engine.eval, Engine.evalAll_eq_map, List.map_singleton,
      Engine.eval_orElse engine s he]
    cases raw <;> rfl

theorem statement_yields (code : String) (s : Scope) :
    Yields engine s (terms (.statement code))
      (Id.run (render engine.evaluator (.statement code) s)) := by
  have hr : Id.run (render engine.evaluator (.statement code) s) = "" := by
    rw [render]
    rfl
  rw [hr, terms]
  refine .of_source (fun _ => rfl) fun e _ => ?_
  rw [Gives, Engine.eval, Engine.evalAll_eq_map, List.map_singleton]
  rfl

theorem run_render_loop (head : LoopHead) (children : List Node) (s : Scope) :
    Id.run (render engine.evaluator (.loop head children) s) =
      match engine.valueOr .null head.source s with
      | .array items => String.join ((s.rounds head.item head.index items).map fun inner =>
          Id.run (renderAll engine.evaluator children inner))
      | _ => "" := by
  rw [render, ← Engine.run_valueOr]
  change Id.run (match Id.run (engine.evaluator.valueOr .null head.source s) with
    | .array items => _
    | _ => _) = _
  cases Id.run (engine.evaluator.valueOr .null head.source s) with
  | array items =>
    exact congrArg String.join List.idRun_mapM
  | _ => rfl

theorem allValues_map_ok {α : Type} (f : α → Value) (l : List α) :
    Engine.allValues (l.map fun x => .ok (f x)) = .ok (l.map f) := by
  induction l with
  | nil => rfl
  | cons x l ih =>
    rw [List.map_cons, Engine.allValues, ih]
    rfl

/-- A loop gives what its body gives, round by round. -/
theorem loop_yields (head : LoopHead) (children : List Node) (s : Scope)
    (h : ∀ inner, Yields engine inner (termsAll children)
      (Id.run (renderAll engine.evaluator children inner))) :
    Yields engine s (terms (.loop head children))
      (Id.run (render engine.evaluator (.loop head children) s)) := by
  rw [run_render_loop, terms]
  refine .of_source (fun hn => ?_) fun e he => ?_
  · rw [Engine.valueOr_of_ofSource?_eq_none engine s hn]
  · have hb : ∀ inner, engine.eval (Term.sum (termsAll children)) inner =
        .ok (.string (Id.run (renderAll engine.evaluator children inner))) :=
      fun inner => sum_gives (h inner)
    rw [Gives, Engine.eval, Engine.eval_orElse engine s he]
    simp only [hb, Constant.value]
    cases engine.valueOr .null head.source s with
    | array items =>
      have hv := allValues_map_ok (fun inner => Value.string
        (Id.run (renderAll engine.evaluator children inner)))
        (s.rounds head.item head.index items)
      rw [Parser.ok_bind]
      dsimp only
      rw [hv, Parser.ok_bind, List.map_map]
      rfl
    | _ => rfl

theorem run_renderFirst_holds (condition : String) (children : List Node) (rest : List Branch)
    (s : Scope) :
    Id.run (renderFirst engine.evaluator (.mk (.holds condition) children :: rest) s) =
      if (engine.valueOr (.bool false) condition s).isTruthy then
        Id.run (renderAll engine.evaluator children s)
      else Id.run (renderFirst engine.evaluator rest s) := by
  rw [renderFirst, ← Engine.run_valueOr]
  change Id.run (if (Id.run (engine.evaluator.valueOr (.bool false) condition s)).isTruthy then _
    else _) = _
  split <;> rfl

mutual

/-- The terms of a node give what the node is rendered as. -/
theorem terms_yield (node : Node) (s : Scope) :
    Yields engine s (terms node) (Id.run (render engine.evaluator node s)) := by
  match node with
  | .element tag attributes children =>
    have ha := attributes_yield engine s attributes
    have hc := termsAll_yield children s
    have ht : Yields engine s [.text ("<" ++ tag)] ("<" ++ tag) := .single_text _
    have hh := ht.append ha
    have hb := hh.append ((Yields.single_text ">").append hc)
    have he := hb.append (Yields.single_text ("</" ++ tag ++ ">"))
    rw [terms, render]
    simpa [String.append_assoc] using he
  | .text value =>
    rw [terms, render]
    exact .single_text value
  | .insertion source raw => exact insertion_yields engine source raw s
  | .statement code => exact statement_yields engine code s
  | .loop head children => exact loop_yields engine head children s (termsAll_yield children)
  | .fragment children =>
    rw [terms, render]
    exact termsAll_yield children s
  | .decision branches =>
    rw [terms, render]
    exact .single (choice_gives branches s)
  | .ifThen _ _ =>
    rw [terms, render]
    exact .nil
  | .elseIf _ _ =>
    rw [terms, render]
    exact .nil
  | .otherwise _ =>
    rw [terms, render]
    exact .nil

theorem termsAll_yield (nodes : List Node) (s : Scope) :
    Yields engine s (termsAll nodes) (Id.run (renderAll engine.evaluator nodes s)) := by
  match nodes with
  | [] =>
    rw [termsAll, renderAll]
    exact .nil
  | node :: rest =>
    rw [termsAll, renderAll]
    exact .append (terms_yield node s) (termsAll_yield rest s)

theorem choice_gives (branches : List Branch) (s : Scope) :
    Gives engine s (choice branches) (Id.run (renderFirst engine.evaluator branches s)) := by
  match branches with
  | [] =>
    rw [choice, renderFirst]
    exact gives_literal ""
  | .mk .always children :: rest =>
    rw [choice, renderFirst]
    exact sum_gives (termsAll_yield children s)
  | .mk (.holds condition) children :: rest =>
    have hc := sum_gives (termsAll_yield children s)
    have hr := choice_gives rest s
    rw [choice, run_renderFirst_holds]
    cases hs : Expr.ofSource? condition with
    | none =>
      rw [Engine.valueOr_of_ofSource?_eq_none engine s hs]
      exact hr
    | some e =>
      rw [Gives] at hc hr ⊢
      rw [Engine.eval, Engine.eval_orElse engine s hs, Parser.ok_bind, Constant.value]
      split
      · exact hc
      · exact hr

end

/-- The translation of nodes always has a value, the text that the nodes are rendered as. -/
theorem eval_translation (nodes : List Node) (s : Scope) :
    engine.eval (translation nodes) s = .ok (.string (engine.render nodes s)) :=
  sum_gives (termsAll_yield engine nodes s)

end Node

end IndentMarkup
