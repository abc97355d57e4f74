import IndentMarkup.Proofs.Expr.Steps
import IndentMarkup.Expr.Engine

/-!
# Chains and brackets

A chain of one operator is evaluated from left to right. Brackets around parts of the chain turn it
into nested operations, in which whole parts may be skipped, and errors come up in other places.
Where an operator associates on values and on errors, all of this makes no difference: a chain and
every nesting of its operands have the same value or the same error. Conjunctions and disjunctions
associate on all values, and sums on texts.
-/
namespace IndentMarkup

/-- Operands of one operator with brackets around every operation. -/
inductive Bracketing where
  | operand (e : Expr)
  | group (left right : Bracketing)

namespace Bracketing

def operands : Bracketing → List Expr
  | operand e => [e]
  | group left right => left.operands ++ right.operands

def nested (op : BinaryOp) : Bracketing → Expr
  | operand e => e
  | group left right => .chain (left.nested op) [(op, right.nested op)]

theorem exists_cons_operands (b : Bracketing) : ∃ e es, b.operands = e :: es := by
  induction b with
  | operand e => exact ⟨e, [], rfl⟩
  | group left right ihl _ =>
    obtain ⟨e, es, h⟩ := ihl
    exact ⟨e, es ++ right.operands, by rw [operands, h, List.cons_append]⟩

end Bracketing

def Expr.flat (op : BinaryOp) (first : Expr) (rest : List Expr) : Expr :=
  .chain first (rest.map fun e => (op, e))

def Value.IsText (v : Value) : Prop := ∃ t, v = .string t

/-- An outcome is one of the given values or an error. -/
def Within (P : Value → Prop) (x : Except EvalError Value) : Prop := ∀ v, x = .ok v → P v

theorem Within.bind {P : Value → Prop} {x : Except EvalError Value}
    {f : Value → Except EvalError Value} (hx : Within P x) (hf : ∀ v, P v → Within P (f v)) :
    Within P (x >>= f) := by
  cases x with
  | error e =>
    intro v h
    cases h
  | ok v => exact hf v (hx v rfl)

/-- What happens behind an outcome matters only for the values that it may be. -/
theorem Within.bind_congr {P : Value → Prop} {x : Except EvalError Value}
    {f g : Value → Except EvalError Value} (hx : Within P x) (h : ∀ v, P v → f v = g v) :
    x >>= f = x >>= g := by
  cases x with
  | error e => rfl
  | ok v => exact h v (hx v rfl)

namespace BinaryOp

/-- The outcome of an operation on a value and on the outcome of its right operand, which counts for
nothing if the left one decides alone. -/
def operate (op : BinaryOp) (left : Value) (right : Except EvalError Value) :
    Except EvalError Value :=
  match op.shortcut? left with
  | some v => .ok v
  | none => right >>= op.apply left

/-- An operator stays inside some values and associates on them, whichever operands fail. -/
structure AssociatesOn (op : BinaryOp) (P : Value → Prop) : Prop where
  within {u : Value} {x : Except EvalError Value} (hu : P u) (hx : Within P x) :
    Within P (op.operate u x)
  assoc {u : Value} {x y : Except EvalError Value} (hu : P u) (hx : Within P x)
    (hy : Within P y) :
    op.operate u (x >>= fun v => op.operate v y) = op.operate u x >>= fun v => op.operate v y

/-- An operator that gives one of its operands, and the left one if it looks at no other. -/
theorem associatesOn_of_choice {op : BinaryOp} (hs : ∀ u v, op.shortcut? u = some v → v = u)
    (ha : ∀ u, op.apply u = .ok) : AssociatesOn op fun _ => True where
  within _ _ := fun _ _ => trivial
  assoc {u x y} _ _ _ := by
    cases h : op.shortcut? u with
    | some v =>
      have hu : ∀ z, op.operate u z = .ok u := by
        intro z
        rw [operate, h, hs u v h]
      rw [hu, hu, Parser.ok_bind, hu]
    | none =>
      have hu : ∀ z, op.operate u z = z := by
        intro z
        rw [operate, h, ha]
        exact bind_pure z
      rw [hu, hu]

theorem associatesOn_and : AssociatesOn .and fun _ => True := by
  refine associatesOn_of_choice (fun u v h => ?_) fun _ => rfl
  rw [shortcut?] at h
  split at h
  · cases h
  · exact (Option.some.inj h).symm

theorem associatesOn_or : AssociatesOn .or fun _ => True := by
  refine associatesOn_of_choice (fun u v h => ?_) fun _ => rfl
  rw [shortcut?] at h
  split at h
  · exact (Option.some.inj h).symm
  · cases h

theorem operate_add_text (s t : String) :
    BinaryOp.add.operate (.string s) (.ok (.string t)) = .ok (.string (s ++ t)) := rfl

theorem associatesOn_add : AssociatesOn .add Value.IsText where
  within {u x} hu hx := by
    obtain ⟨s, rfl⟩ := hu
    cases x with
    | error e =>
      intro w h
      cases h
    | ok v =>
      obtain ⟨t, rfl⟩ := hx v rfl
      intro w h
      cases h
      exact ⟨s ++ t, rfl⟩
  assoc {u x y} hu hx hy := by
    obtain ⟨s, rfl⟩ := hu
    cases x with
    | error e => rfl
    | ok v =>
      obtain ⟨t, rfl⟩ := hx v rfl
      cases y with
      | error e => rfl
      | ok w =>
        obtain ⟨r, rfl⟩ := hy w rfl
        rw [operate_add_text, Parser.ok_bind, Parser.ok_bind, operate_add_text, operate_add_text,
          operate_add_text, String.append_assoc]

end BinaryOp

namespace Engine

variable (engine : Engine) (op : BinaryOp) (s : Scope)

theorem evalRest_cons (left : Value) (e : Expr) (rest : List (BinaryOp × Expr)) :
    engine.evalRest left ((op, e) :: rest) s =
      op.operate left (engine.eval e s) >>= fun v => engine.evalRest v rest s := by
  rw [evalRest, BinaryOp.operate]
  cases op.shortcut? left with
  | some v => rfl
  | none => exact (bind_assoc _ _ _).symm

theorem evalRest_append (left : Value) (rest more : List (BinaryOp × Expr)) :
    engine.evalRest left (rest ++ more) s =
      engine.evalRest left rest s >>= fun v => engine.evalRest v more s := by
  induction rest generalizing left with
  | nil =>
    rw [List.nil_append, evalRest]
    rfl
  | cons p rest ih =>
    obtain ⟨op, e⟩ := p
    rw [List.cons_append, evalRest_cons, evalRest_cons, bind_assoc]
    simp only [ih]

theorem eval_chain (first : Expr) (rest : List (BinaryOp × Expr)) :
    engine.eval (.chain first rest) s =
      engine.eval first s >>= fun v => engine.evalRest v rest s := by
  rw [eval]

theorem eval_group (left right : Expr) :
    engine.eval (.chain left [(op, right)]) s =
      engine.eval left s >>= fun v => op.operate v (engine.eval right s) := by
  rw [eval_chain]
  refine congrArg _ (funext fun v => ?_)
  rw [evalRest_cons]
  simp only [evalRest]
  exact bind_pure _

variable {engine op s} {P : Value → Prop} (h : op.AssociatesOn P)
include h

/-- An operator moves into the outcome of a chain of its own. -/
theorem operate_evalRest {rest : List Expr} (hr : ∀ e ∈ rest, Within P (engine.eval e s))
    {u : Value} (hu : P u) {x : Except EvalError Value} (hx : Within P x) :
    op.operate u (x >>= fun v => engine.evalRest v (rest.map fun e => (op, e)) s) =
      op.operate u x >>= fun v => engine.evalRest v (rest.map fun e => (op, e)) s := by
  induction rest generalizing x with
  | nil =>
    simp only [List.map_nil, evalRest]
    exact (congrArg _ (bind_pure x)).trans (bind_pure _).symm
  | cons e rest ih =>
    rw [List.forall_mem_cons] at hr
    simp only [List.map_cons, evalRest_cons]
    rw [← bind_assoc, ih hr.2 (hx.bind fun v hv => h.within hv hr.1), h.assoc hu hx hr.1,
      bind_assoc]

/-- The chain of the operands has the outcome of the nested operations, inside the same values. -/
theorem eval_nested (b : Bracketing) {first : Expr} {rest : List Expr}
    (hb : b.operands = first :: rest)
    (ho : ∀ e ∈ b.operands, Within P (engine.eval e s)) :
    engine.eval (.flat op first rest) s = engine.eval (b.nested op) s ∧
      Within P (engine.eval (b.nested op) s) := by
  induction b generalizing first rest with
  | operand e =>
    obtain ⟨rfl, rfl⟩ := List.cons.inj hb
    refine ⟨?_, ho e (List.mem_singleton.2 rfl)⟩
    rw [Expr.flat, eval_chain]
    simp only [List.map_nil, evalRest]
    exact bind_pure _
  | group left right ihl ihr =>
    obtain ⟨e, es, hl⟩ := left.exists_cons_operands
    obtain ⟨f, fs, hr⟩ := right.exists_cons_operands
    rw [Bracketing.operands] at hb ho
    rw [List.forall_mem_append] at ho
    obtain ⟨el, wl⟩ := ihl hl ho.1
    obtain ⟨er, wr⟩ := ihr hr ho.2
    rw [hl, hr, List.cons_append] at hb
    obtain ⟨rfl, rfl⟩ := List.cons.inj hb
    have hf : ∀ g ∈ f :: fs, Within P (engine.eval g s) := hr ▸ ho.2
    rw [List.forall_mem_cons] at hf
    rw [Bracketing.nested, eval_group]
    refine ⟨?_, wl.bind fun u hu => h.within hu wr⟩
    rw [Expr.flat, eval_chain, List.map_append, List.map_cons]
    simp only [evalRest_append, evalRest_cons]
    rw [← bind_assoc, ← eval_chain]
    change engine.eval (.flat op e es) s >>= _ = _
    rw [el]
    refine wl.bind_congr fun u hu => ?_
    rw [← operate_evalRest h hf.2 hu hf.1, ← eval_chain]
    change op.operate u (engine.eval (.flat op f fs) s) = _
    rw [er]

end Engine

/-- Brackets make no difference to a chain of conjunctions or of disjunctions, whatever its operands
are, nor to a sum of operands that each are a text or fail: the value is the same, or the first
error. -/
theorem Engine.eval_flat_bracketed (engine : Engine) (s : Scope) {first : Expr} {rest : List Expr}
    (b : Bracketing) (hb : b.operands = first :: rest) :
    engine.eval (.flat .and first rest) s = engine.eval (b.nested .and) s ∧
    engine.eval (.flat .or first rest) s = engine.eval (b.nested .or) s ∧
    ((∀ e ∈ first :: rest, Within Value.IsText (engine.eval e s)) →
      engine.eval (.flat .add first rest) s = engine.eval (b.nested .add) s) := by
  refine ⟨?_, ?_, fun ht => ?_⟩
  · exact (eval_nested BinaryOp.associatesOn_and b hb fun _ _ _ _ => trivial).1
  · exact (eval_nested BinaryOp.associatesOn_or b hb fun _ _ _ _ => trivial).1
  · rw [← hb] at ht
    exact (eval_nested BinaryOp.associatesOn_add b hb ht).1

/-- Brackets around the last two of three operands, the second of which fails. -/
theorem Engine.eval_flat_bracketed_failing :
    empty.eval (.flat .and (.constant (.string "a")) [.var "x", .constant (.string "b")]) .empty =
        empty.eval (.chain (.constant (.string "a"))
          [(.and, .chain (.var "x") [(.and, .constant (.string "b"))])]) .empty ∧
      empty.eval (.flat .add (.constant (.string "a")) [.var "x", .constant (.string "b")]) .empty =
        empty.eval (.chain (.constant (.string "a"))
          [(.add, .chain (.var "x") [(.add, .constant (.string "b"))])]) .empty := by
  have h := eval_flat_bracketed empty .empty
    (.group (.operand (.constant (.string "a")))
      (.group (.operand (.var "x")) (.operand (.constant (.string "b"))))) rfl
  refine ⟨h.1, h.2.2 ?_⟩
  have ht (t : String) : Within Value.IsText (empty.eval (.constant (.string t)) .empty) := by
    intro v hv
    rw [eval] at hv
    cases hv
    exact ⟨t, rfl⟩
  have hx : Within Value.IsText (empty.eval (.var "x") .empty) := by
    intro v hv
    rw [eval] at hv
    cases hv
  intro e he
  rcases List.mem_cons.1 he with rfl | he
  · exact ht "a"
  · rcases List.mem_cons.1 he with rfl | he
    · exact hx
    · rw [List.mem_singleton.1 he]
      exact ht "b"

end IndentMarkup
