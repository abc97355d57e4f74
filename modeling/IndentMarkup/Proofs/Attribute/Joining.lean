import IndentMarkup.Markup.Element
import IndentMarkup.Proofs.Program.Evaluation

/-!
# Joined expressions

The expressions that the reader of a line writes itself, for a text with insertions and for a class
behind the classes of a head, mean what the line says. An insertion stands between parentheses, so
whatever it holds is one operand, and a text comes first, so from the first operand on the sum is a
concatenation for values of every kind.
-/
namespace IndentMarkup

theorem isExpression_iff {source : String} :
    isExpression source = true ↔ ∃ e, Expr.read source = .ok e := by
  unfold isExpression
  cases Expr.read source with
  | error fault => exact ⟨fun h => Bool.noConfusion h, fun ⟨_, h⟩ => by cases h⟩
  | ok e => exact ⟨fun _ => ⟨e, rfl⟩, fun _ => rfl⟩

theorem Engine.evaluate_of_read (engine : Engine) {source : String} {e : Expr}
    (h : Expr.read source = .ok e) (s : Scope) : engine.evaluate source s = engine.eval e s := by
  rw [evaluate, h]

theorem Engine.eval_ofOperands (engine : Engine) (first : Expr) (rest : List (BinaryOp × Expr))
    (s : Scope) :
    engine.eval (.ofOperands first rest) s =
      engine.eval first s >>= fun v => engine.evalRest v rest s := by
  cases rest with
  | nil =>
    rw [Expr.ofOperands, List.isEmpty_nil, if_pos rfl]
    simp only [evalRest]
    cases engine.eval first s <;> rfl
  | cons operand rest => rw [Expr.ofOperands, List.isEmpty_cons, if_neg (by decide), eval]

/-- Behind a text, an addition appends the text of any value. -/
theorem Engine.evalRest_text (engine : Engine) (left : String) (e : Expr)
    (rest : List (BinaryOp × Expr)) (s : Scope) :
    engine.evalRest (.string left) ((.add, e) :: rest) s =
      engine.eval e s >>= fun v => engine.evalRest (.string (left ++ v.text)) rest s := by
  rw [evalRest]
  rfl

theorem Engine.eval_text (engine : Engine) (text : String) (s : Scope) :
    engine.eval (.constant (.string text)) s = .ok (.string text) := Term.gives_literal text

theorem Engine.eval_text_add (engine : Engine) (text : String) (e : Expr) (s : Scope) :
    engine.eval (.chain (.constant (.string text)) [(.add, e)]) s =
      (engine.eval e s).map fun v => .string (text ++ v.text) := by
  rw [eval, engine.eval_text, Parser.ok_bind, engine.evalRest_text]
  cases engine.eval e s with
  | error fault => rfl
  | ok v =>
    rw [Parser.ok_bind, evalRest]
    rfl

namespace Segment

def operand : Segment → String
  | .literal text => Text.quote text
  | .expr source => "(" ++ source ++ ")"

/-- The text that segments begin with, perhaps an empty one, and the segments behind it. -/
def lead : List Segment → String × List Segment
  | .literal text :: rest => (text, rest)
  | segments => ("", segments)

/-- The text of segments in a scope, or the error of the first insertion that has no value. -/
def joinedText (engine : Engine) (s : Scope) : List Segment → Except EvalError String
  | [] => .ok ""
  | .literal text :: rest => do
    let out ← joinedText engine s rest
    .ok (text ++ out)
  | .expr source :: rest => do
    let v ← engine.evaluate source s
    let out ← joinedText engine s rest
    .ok (v.text ++ out)

inductive Means : Segment → Expr → Prop
  | literal {text : String} : Means (.literal text) (.constant (.string text))
  | expr {source : String} {e : Expr} (h : Expr.read source = .ok e) : Means (.expr source) e

theorem Means.isOperand {g : Segment} {e : Expr} (h : Means g e) :
    Expr.IsOperand g.operand e := by
  cases h with
  | literal => exact Expr.isOperand_quote _
  | expr h => exact Expr.isOperand_parens h

theorem exists_means {segments : List Segment}
    (h : ∀ source, .expr source ∈ segments → isExpression source = true) :
    ∃ es, List.Forall₂ Means segments es := by
  induction segments with
  | nil => exact ⟨[], .nil⟩
  | cons g rest ih =>
    obtain ⟨es, hes⟩ := ih fun source hs => h source (List.mem_cons_of_mem g hs)
    cases g with
    | literal text => exact ⟨_, .cons .literal hes⟩
    | expr source =>
      obtain ⟨e, he⟩ := isExpression_iff.1 (h source List.mem_cons_self)
      exact ⟨_, .cons (.expr he) hes⟩

theorem mem_of_mem_lead {segments : List Segment} {g : Segment} (h : g ∈ (lead segments).2) :
    g ∈ segments := by
  unfold lead at h
  split at h
  · exact List.mem_cons_of_mem _ h
  · exact h

/-- A text stands first in the sum of some segments, whether they begin with one or not. -/
theorem concatenation_eq {segments : List Segment} (h : segments ≠ []) :
    concatenation segments = String.intercalate " + "
      (Text.quote (lead segments).1 :: (lead segments).2.map operand) := by
  have ho : ∀ rest : List Segment, rest.map operand = rest.map fun
      | .literal text => Text.quote text
      | .expr source => "(" ++ source ++ ")" :=
    fun rest => List.map_congr_left fun g _ => by cases g <;> rfl
  match segments with
  | [] => exact (h rfl).elim
  | .literal text :: rest =>
    rw [lead, ho]
    rfl
  | .expr source :: rest =>
    rw [lead, ho]
    · rfl
    · intro text rest' e
      cases e

theorem joinedText_lead (engine : Engine) (s : Scope) (segments : List Segment) :
    joinedText engine s segments =
      (joinedText engine s (lead segments).2).map ((lead segments).1 ++ ·) := by
  unfold lead
  split
  · rw [joinedText]
    cases joinedText engine s _ <;> rfl
  · cases joinedText engine s segments with
    | error e => rfl
    | ok out => rw [Except.map, String.empty_append]

/-- Behind a text, the operands of some segments are appended to it one by one. -/
theorem evalRest_of_means {segments : List Segment} {es : List Expr}
    (h : List.Forall₂ Means segments es) (engine : Engine) (s : Scope) (left : String) :
    engine.evalRest (.string left) (es.map fun e => (.add, e)) s =
      (joinedText engine s segments).map fun out => .string (left ++ out) := by
  induction h generalizing left with
  | nil =>
    rw [List.map_nil, Engine.evalRest, joinedText, Except.map, String.append_empty]
  | @cons g e rest es hg _ ih =>
    rw [List.map_cons, engine.evalRest_text]
    have hjoin : ∀ t : String,
        ((joinedText engine s rest).map fun out => Value.string (left ++ t ++ out)) =
          ((joinedText engine s rest).map fun out => Value.string (left ++ (t ++ out))) := by
      intro t
      simp only [String.append_assoc]
    cases hg with
    | @literal text =>
      rw [engine.eval_text, Parser.ok_bind, ih, Value.text, hjoin, joinedText]
      cases joinedText engine s rest <;> rfl
    | @expr source e he =>
      rw [joinedText, engine.evaluate_of_read he]
      cases engine.eval e s with
      | error fault => rfl
      | ok v =>
        rw [Parser.ok_bind, ih, hjoin]
        cases joinedText engine s rest <;> rfl

/-- The sum of some segments is read as the sum of what they mean. -/
theorem read_concatenation {segments : List Segment} (hne : segments ≠ []) {es : List Expr}
    (h : List.Forall₂ Means (lead segments).2 es) :
    Expr.read (concatenation segments) =
      .ok (.ofOperands (.constant (.string (lead segments).1)) (es.map fun e => (.add, e))) := by
  rw [concatenation_eq hne]
  refine Expr.read_sum (Expr.isOperand_quote _) ?_
  rw [List.forall₂_map_left_iff]
  exact h.imp fun _ _ hg => hg.isOperand

theorem concatenation_means {segments : List Segment} (hne : segments ≠ [])
    (h : ∀ source, .expr source ∈ segments → isExpression source = true) :
    isExpression (concatenation segments) = true ∧
      ∀ (engine : Engine) (s : Scope), engine.evaluate (concatenation segments) s =
        (joinedText engine s segments).map .string := by
  obtain ⟨es, hes⟩ := exists_means fun source hs => h source (mem_of_mem_lead hs)
  have hr := read_concatenation hne hes
  refine ⟨isExpression_iff.2 ⟨_, hr⟩, fun engine s => ?_⟩
  rw [engine.evaluate_of_read hr, engine.eval_ofOperands, engine.eval_text, Parser.ok_bind,
    evalRest_of_means hes, joinedText_lead engine s segments]
  cases joinedText engine s (lead segments).2 <;> rfl

end Segment

namespace AttrValue

/-- The text of the expression that joins the value of an expression to the classes of a head. -/
def joinedClass (shorthand source : String) : String :=
  Text.quote shorthand ++ " + ((" ++ source ++ ") ? \" \" + (" ++ source ++ ") : \"\")"

theorem combineClass_expr (shorthand source : String) (raw : Bool) :
    combineClass shorthand (.expr source raw) = .expr (joinedClass shorthand source) raw := rfl

/-- The classes of a head with a value behind them, if it is true. -/
def withClass (shorthand : String) (v : Value) : String :=
  if v.isTruthy then shorthand ++ " " ++ v.text else shorthand

def classExpr (shorthand : String) (e : Expr) : Expr :=
  .chain (.constant (.string shorthand))
    [(.add, .cond e (.chain (.constant (.string " ")) [(.add, e)]) (.constant (.string "")))]

theorem read_joinedClass (shorthand : String) {source : String} {e : Expr}
    (h : Expr.read source = .ok e) :
    Expr.read (joinedClass shorthand source) = .ok (classExpr shorthand e) := by
  have hp := Expr.isOperand_parens h
  have hspace : Expr.IsOperand "\" \"" (.constant (.string " ")) := Expr.isOperand_quote " "
  have hempty : Expr.IsOperand "\"\"" (.constant (.string "")) := Expr.isOperand_quote ""
  have hjoined := Expr.read_sum hspace (.cons hp .nil)
  have hchoice := Expr.isOperand_parens (Expr.read_choice hp hjoined hempty.read)
  have hsum := Expr.read_sum (Expr.isOperand_quote shorthand) (.cons hchoice .nil)
  have ht : joinedClass shorthand source = String.intercalate " + " [Text.quote shorthand,
      "(" ++ ("(" ++ source ++ ")" ++ " ? " ++ String.intercalate " + "
        ["\" \"", "(" ++ source ++ ")"] ++ " : " ++ "\"\"") ++ ")"] := by
    simp only [String.intercalate_cons_cons, String.intercalate_singleton, joinedClass]
    apply String.toList_injective
    simp
  rw [ht]
  exact hsum

theorem eval_classExpr (engine : Engine) (s : Scope) (shorthand : String) (e : Expr) :
    engine.eval (classExpr shorthand e) s =
      (engine.eval e s).map fun v => .string (withClass shorthand v) := by
  rw [classExpr, engine.eval_text_add, Engine.eval.eq_def]
  dsimp only
  rw [engine.eval_text_add, engine.eval_text]
  cases engine.eval e s with
  | error fault => rfl
  | ok v =>
    rw [Parser.ok_bind]
    by_cases hv : v.isTruthy = true
    · simp [withClass, hv, Except.map, Value.text, String.append_assoc]
    · simp [withClass, hv, Except.map, Value.text]

theorem joinedClass_means (shorthand : String) {source : String}
    (h : isExpression source = true) :
    isExpression (joinedClass shorthand source) = true ∧
      ∀ (engine : Engine) (s : Scope), engine.evaluate (joinedClass shorthand source) s =
        (engine.evaluate source s).map fun v => .string (withClass shorthand v) := by
  obtain ⟨e, he⟩ := isExpression_iff.1 h
  have hr := read_joinedClass shorthand he
  refine ⟨isExpression_iff.2 ⟨_, hr⟩, fun engine s => ?_⟩
  rw [engine.evaluate_of_read hr, engine.evaluate_of_read he, eval_classExpr]

end AttrValue

open AttrValue in
/-- A sum of segments whose insertions can all be read is read, and its value is the joined text of
the segments; a class that can be read is read behind the classes of a head too, and its value is
those classes with the text of the class behind them if the class is true. What has no value in the
line has none in the joined expression, for the same reason. -/
theorem Engine.evaluate_joined :
    (∀ segments : List Segment, segments.any Segment.isExpr = true →
      (∀ source, .expr source ∈ segments → isExpression source = true) →
      isExpression (concatenation segments) = true ∧
      ∀ (engine : Engine) (s : Scope), engine.evaluate (concatenation segments) s =
        (Segment.joinedText engine s segments).map .string) ∧
    (∀ (shorthand source : String) (raw : Bool), isExpression source = true →
      combineClass shorthand (.expr source raw) = .expr (joinedClass shorthand source) raw ∧
      isExpression (joinedClass shorthand source) = true ∧
      ∀ (engine : Engine) (s : Scope), engine.evaluate (joinedClass shorthand source) s =
        (engine.evaluate source s).map fun v =>
          .string (if v.isTruthy then shorthand ++ " " ++ v.text else shorthand)) ∧
    (∀ (shorthand : String) (segments : List Segment), segments.any Segment.isExpr = true →
      (∀ source, .expr source ∈ segments → isExpression source = true) →
      isExpression (joinedClass shorthand (concatenation segments)) = true ∧
      ∀ (engine : Engine) (s : Scope),
        engine.evaluate (joinedClass shorthand (concatenation segments)) s =
          (Segment.joinedText engine s segments).map fun text =>
            .string (if text = "" then shorthand else shorthand ++ " " ++ text)) := by
  have hne : ∀ segments : List Segment, segments.any Segment.isExpr = true → segments ≠ [] := by
    rintro segments h rfl
    cases h
  refine ⟨fun segments he hs => Segment.concatenation_means (hne segments he) hs,
    fun shorthand source raw h =>
      ⟨combineClass_expr shorthand source raw, joinedClass_means shorthand h⟩,
    fun shorthand segments he hs => ?_⟩
  obtain ⟨hr, hv⟩ := Segment.concatenation_means (hne segments he) hs
  obtain ⟨hr', hv'⟩ := joinedClass_means shorthand hr
  refine ⟨hr', fun engine s => ?_⟩
  rw [hv', hv]
  cases Segment.joinedText engine s segments with
  | error fault => rfl
  | ok text =>
    by_cases h : text = "" <;> simp [Except.map, withClass, Value.isTruthy, Value.text, h]

/-- A greeting in a title and in a class. -/
theorem Engine.evaluate_joined_greeting :
    isExpression "name" = true ∧
      Engine.empty.evaluate (concatenation [.literal "Hi ", .expr "name"])
        (Scope.empty.bind "name" (.string "Ada")) = .ok (.string "Hi Ada") ∧
      Engine.empty.evaluate (AttrValue.joinedClass "user" "name")
        (Scope.empty.bind "name" (.string "Ada")) = .ok (.string "user Ada") ∧
      Engine.empty.evaluate
        (AttrValue.joinedClass "user" (concatenation [.literal "Hi ", .expr "name"])) Scope.empty =
          .error (.undefined "name") := by
  have hr : Expr.read "name" = .ok (.var "name") := by with_unfolding_all rfl
  have h : isExpression "name" = true := isExpression_iff.2 ⟨_, hr⟩
  have hs : ∀ source, Segment.expr source ∈ [Segment.literal "Hi ", .expr "name"] →
      isExpression source = true := by
    intro source hm
    simp only [List.mem_cons, List.not_mem_nil, or_false, reduceCtorEq, false_or,
      Segment.expr.injEq] at hm
    rw [hm, h]
  refine ⟨h, ?_, ?_, ?_⟩
  · rw [(evaluate_joined.1 _ rfl hs).2]
    simp only [Segment.joinedText, Engine.evaluate, hr, Engine.eval]
    rfl
  · rw [(evaluate_joined.2.1 "user" "name" false h).2.2]
    simp only [Engine.evaluate, hr, Engine.eval]
    rfl
  · rw [(evaluate_joined.2.2 "user" _ rfl hs).2]
    simp only [Segment.joinedText, Engine.evaluate, hr, Engine.eval]
    rfl

end IndentMarkup
