import IndentMarkup.Expr.Reading
import IndentMarkup.Value.Attribute
import IndentMarkup.Value.Comparison
import IndentMarkup.Value.Scope

/-!
# Values of expressions

An engine holds the host functions that expressions may call, besides the functions that are built
in:

    escape(v)        the text of v with the reserved characters of HTML escaped
    str(v)           the text of v
    attr(k, v)       the attribute k of the value v
    raw_attr(k, v)   the same without escaping
    try(v, w)        v, or w if v has no value
    discard(v)       the empty text, whether v has a value or not

Built-in functions go before host functions of the same name. An expression has no effect, so the
order of evaluation shows in nothing but which of several errors is reported, the leftmost one.
-/
namespace IndentMarkup

/-- The value of an arithmetic result, which has to be finite. -/
def Value.ofResult (x : Float) : Except EvalError Value :=
  match Value.ofFloat? x with
  | some v => .ok v
  | none => .error (.notFinite x)

def Value.numeric (v : Value) : Except EvalError Float :=
  match v.toNumber? with
  | some x => .ok x
  | none => .error (.notNumeric v.kind)

def Value.arithmetic (op : Float → Float → Float) (v w : Value) : Except EvalError Value := do
  let x ← v.numeric
  let y ← w.numeric
  Value.ofResult (op x y)

/-- Whether the order of two values is one of those given. -/
def Value.inOrder (orders : List Ordering) (v w : Value) : Bool :=
  match v.order w with
  | some o => orders.contains o
  | none => false

namespace BinaryOp

/-- The result that the left operand of a conjunction or a disjunction decides alone. -/
def shortcut? : BinaryOp → Value → Option Value
  | .and, v => if v.isTruthy then none else some v
  | .or, v => if v.isTruthy then some v else none
  | _, _ => none

/-- The value of an operation. The left operand of a conjunction or a disjunction has not decided
it. -/
def apply : BinaryOp → Value → Value → Except EvalError Value
  | .add, v, w =>
    if v.concatenates w then .ok (.string (v.text ++ w.text)) else Value.arithmetic Float.add v w
  | .sub, v, w => Value.arithmetic Float.sub v w
  | .mul, v, w => Value.arithmetic Float.mul v w
  | .div, v, w => Value.arithmetic Float.div v w
  | .rem, v, w => Value.arithmetic Number.remainder v w
  | .lt, v, w => .ok (.bool (v.inOrder [.lt] w))
  | .le, v, w => .ok (.bool (v.inOrder [.lt, .eq] w))
  | .gt, v, w => .ok (.bool (v.inOrder [.gt] w))
  | .ge, v, w => .ok (.bool (v.inOrder [.gt, .eq] w))
  | .eq, v, w => .ok (.bool (v.looseEquals w))
  | .ne, v, w => .ok (.bool (!v.looseEquals w))
  | .strictEq, v, w => .ok (.bool (v.strictEquals w))
  | .strictNe, v, w => .ok (.bool (!v.strictEquals w))
  | .and, _, w => .ok w
  | .or, _, w => .ok w

end BinaryOp

def UnaryOp.apply : UnaryOp → Value → Except EvalError Value
  | .not, v => .ok (.bool (!v.isTruthy))
  | .neg, v => do
    let x ← v.numeric
    Value.ofResult (-x)

def Constant.value : Constant → Value
  | .null => .null
  | .bool b => .bool b
  | .string s => .string s

namespace Value

/-- The member of a value. Arrays and texts have a length, and a member that is not there is null;
null itself has no members. -/
def member (name : String) : Value → Except EvalError Value
  | .null => .error (.memberOfNull name)
  | .object fields => .ok ((Keyed.get? fields name).getD .null)
  | .array items => .ok (if name = "length" then .int items.length else .null)
  | .string s => .ok (if name = "length" then .int s.length else .null)
  | _ => .ok .null

/-- The item at a place, which has to be stored as an integer. -/
def itemAt (items : List Value) : Number → Value
  | .int n => if 0 ≤ n then items[n.toNat]?.getD .null else .null
  | .float _ => .null

/-- The element of a value: an item of an array or a character of a text by its place, and otherwise
the member of that name. -/
def element : Value → Value → Except EvalError Value
  | .null, position => .error (.elementOfNull position.text)
  | .array items, .number n => .ok (itemAt items n)
  | .string s, .number n => .ok (itemAt (s.toList.map fun c => .string (String.singleton c)) n)
  | target, position => target.member position.text

end Value

/-- A function of the host: it gives a value for its arguments, or says why it gives none. -/
abbrev HostFunction := List Value → Except String Value

/-- The host functions that expressions may call, each name once. -/
structure Engine where
  functions : Keyed HostFunction

namespace Engine

def empty : Engine := ⟨[]⟩

/-- Adds a host function, in place of one with the same name. -/
def define (engine : Engine) (name : String) (f : HostFunction) : Engine :=
  ⟨engine.functions.set name f⟩

def description (engine : Engine) : String :=
  "Engine \x7b functions: \"<" ++ engine.functions.length.repr ++ " functions>\" \x7d"

def callHost (engine : Engine) (name : String) (args : List Value) : Except EvalError Value :=
  match engine.functions.get? name with
  | none => .error (.unknownFunction name)
  | some f =>
    match f args with
    | .ok v => .ok v
    | .error reason => .error (.failed name reason)

def builtIns : List String := ["escape", "str", "attr", "raw_attr", "try", "discard"]

/-- The value of a call whose arguments all have a value. -/
def callWith (engine : Engine) (name : String) (args : List Value) : Except EvalError Value :=
  match name, args with
  | "escape", [v] => .ok (.string v.escapedText)
  | "str", [v] => .ok (.string v.text)
  | "attr", [k, v] => .ok (.string (v.asAttribute k.text false))
  | "raw_attr", [k, v] => .ok (.string (v.asAttribute k.text true))
  | _, _ =>
    if builtIns.contains name then .error (.wrongArgumentCount name)
    else engine.callHost name args

/-- The values of some outcomes, or the first error among them. -/
def allValues : List (Except EvalError Value) → Except EvalError (List Value)
  | [] => .ok []
  | outcome :: rest => do
    let v ← outcome
    let vs ← allValues rest
    .ok (v :: vs)

/-- The value of a call, given what each argument evaluates to. -/
def call (engine : Engine) (name : String) (outcomes : List (Except EvalError Value)) :
    Except EvalError Value :=
  match name, outcomes with
  | "try", [.ok v, _] => .ok v
  | "try", [.error _, fallback] => fallback
  | "discard", [_] => .ok (.string "")
  | _, _ => do
    let args ← allValues outcomes
    engine.callWith name args

mutual

def eval (engine : Engine) : Expr → Scope → Except EvalError Value
  | .constant c, _ => .ok c.value
  | .number x, _ => Value.ofResult x
  | .var name, s =>
    match s.lookup name with
    | some v => .ok v
    | none => .error (.undefined name)
  | .array items, s => do
    let vs ← allValues (evalAll engine items s)
    .ok (.array vs)
  | .object entries, s => do
    let pairs ← evalEntries engine entries s
    .ok (.object (Fields.ofPairs pairs))
  | .member target name, s => do
    let v ← eval engine target s
    v.member name
  | .index target position, s => do
    let v ← eval engine target s
    let p ← eval engine position s
    v.element p
  | .call name args, s => engine.call name (evalAll engine args s)
  | .unary op operand, s => do
    let v ← eval engine operand s
    op.apply v
  | .chain first rest, s => do
    let v ← eval engine first s
    evalRest engine v rest s
  | .cond condition whenTrue whenFalse, s => do
    let v ← eval engine condition s
    if v.isTruthy then eval engine whenTrue s else eval engine whenFalse s
  | .loop item position source body, s => do
    let v ← eval engine source s
    match v with
    | .array items => do
      let vs ← allValues ((s.rounds item position items).map fun inner => eval engine body inner)
      .ok (.string (String.join (vs.map Value.text)))
    | _ => .ok (.string "")

def evalAll (engine : Engine) : List Expr → Scope → List (Except EvalError Value)
  | [], _ => []
  | e :: rest, s => eval engine e s :: evalAll engine rest s

/-- The fields of an object, in the order in which they are written. -/
def evalEntries (engine : Engine) :
    List (String × Expr) → Scope → Except EvalError (List (String × Value))
  | [], _ => .ok []
  | (k, e) :: rest, s => do
    let v ← eval engine e s
    let vs ← evalEntries engine rest s
    .ok ((k, v) :: vs)

/-- The value of a chain behind the value of its operands so far. -/
def evalRest (engine : Engine) (left : Value) :
    List (BinaryOp × Expr) → Scope → Except EvalError Value
  | [], _ => .ok left
  | (op, e) :: rest, s =>
    match op.shortcut? left with
    | some v => evalRest engine v rest s
    | none => do
      let right ← eval engine e s
      let v ← op.apply left right
      evalRest engine v rest s

end

def evaluate (engine : Engine) (source : String) (s : Scope) : Except EvalError Value :=
  match Expr.read source with
  | .ok e => engine.eval e s
  | .error fault => .error (.malformed source fault)

@[simp] theorem evalAll_eq_map (engine : Engine) (es : List Expr) (s : Scope) :
    engine.evalAll es s = es.map fun e => engine.eval e s := by
  induction es with
  | nil => simp [evalAll]
  | cons e es ih => simp [evalAll, ih]

end Engine

end IndentMarkup
