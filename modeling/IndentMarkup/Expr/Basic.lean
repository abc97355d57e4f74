/-!
# Expressions

The tree of an expression. A run of operators of the same strength is one flat chain, applied from
left to right, so that a long concatenation does not nest. A loop yields the joined texts of its
body, one for each item of an array.
-/
namespace IndentMarkup

/-- The operators in front of an operand. -/
inductive UnaryOp where
  | not
  | neg
  deriving Repr, DecidableEq

/-- The operators between two operands. -/
inductive BinaryOp where
  | mul | div | rem
  | add | sub
  | lt | le | gt | ge
  | eq | ne | strictEq | strictNe
  | and
  | or
  deriving Repr, DecidableEq

/-- The constants that are no numbers. -/
inductive Constant where
  | null
  | bool (b : Bool)
  | string (s : String)
  deriving Repr, DecidableEq

inductive Expr where
  | constant (c : Constant)
  | number (x : Float)
  | var (name : String)
  | array (items : List Expr)
  | object (entries : List (String × Expr))
  | member (target : Expr) (name : String)
  | index (target : Expr) (position : Expr)
  | call (name : String) (args : List Expr)
  | unary (op : UnaryOp) (operand : Expr)
  | chain (first : Expr) (rest : List (BinaryOp × Expr))
  | cond (condition : Expr) (whenTrue : Expr) (whenFalse : Expr)
  | loop (item : String) (position : Option String) (source : Expr) (body : Expr)

/-- How tightly an operator binds, from `1` for products up to `6` for disjunctions. -/
def BinaryOp.level : BinaryOp → Nat
  | .mul => 1
  | .div => 1
  | .rem => 1
  | .add => 2
  | .sub => 2
  | .lt => 3
  | .le => 3
  | .gt => 3
  | .ge => 3
  | .eq => 4
  | .ne => 4
  | .strictEq => 4
  | .strictNe => 4
  | .and => 5
  | .or => 6

theorem BinaryOp.level_le (op : BinaryOp) : op.level ≤ 6 := by
  cases op <;> decide

/-- The chain of an operand and those behind it; an operand alone is no chain. -/
def Expr.ofOperands (first : Expr) (rest : List (BinaryOp × Expr)) : Expr :=
  if rest.isEmpty then first else .chain first rest

end IndentMarkup
