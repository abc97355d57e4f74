import IndentMarkup.Expr.Token
import IndentMarkup.Number.Reading
import IndentMarkup.Reading

/-!
# Reading expressions

Loosest first, an expression is a condition with two alternatives, a disjunction, a conjunction, an
equality, a comparison, a sum, a product, an operand with signs in front, and an operand with
members and indices behind it:

    condition   disjunction, or disjunction ? condition : condition
    level k + 1 one or more of level k with operators of that strength between them
    level 0     any number of ! and -, then an operand with .name and [condition] behind it
    operand     a constant, a name, name(...), [...], {key: ...}, (condition),
                for (item, index in condition) { condition }

One token decides at each place how to go on, so reading fails at the first token that cannot
continue an expression, with one exception: arguments that cannot be read leave a name with a
parenthesis behind it, and reading fails at the parenthesis. A failure is the list of the tokens
from there on.
-/
namespace IndentMarkup

namespace Parser

def symbol (s : Symbol) : (ts : List Token) → Except (List Token) (Reading Unit ts)
  | [] => .error []
  | t :: r => if t = .symbol s then .ok ⟨(), r, Nat.lt_succ_self _⟩ else .error (t :: r)

def keyword (k : Keyword) : (ts : List Token) → Except (List Token) (Reading Unit ts)
  | [] => .error []
  | t :: r => if t = .keyword k then .ok ⟨(), r, Nat.lt_succ_self _⟩ else .error (t :: r)

/-- Reads a name, which may be spelled like a keyword. -/
def name : (ts : List Token) → Except (List Token) (Reading String ts)
  | [] => .error []
  | t :: r =>
    match t.name? with
    | some n => .ok ⟨n, r, Nat.lt_succ_self _⟩
    | none => .error (t :: r)

def key : (ts : List Token) → Except (List Token) (Reading String ts)
  | [] => .error []
  | t :: r =>
    match t.key? with
    | some n => .ok ⟨n, r, Nat.lt_succ_self _⟩
    | none => .error (t :: r)

/-- Reads the second variable of a loop, if there is a comma in front of it. -/
def indexName (ts : List Token) : Except (List Token) (Trailing (Option String) ts) :=
  match ts with
  | .symbol .comma :: r => do
    let ⟨n, r', h⟩ ← name r
    .ok ⟨some n, r', by simp only [List.length_cons]; omega⟩
  | ts => .ok ⟨none, ts, Nat.le_refl _⟩

/-- The float that a number token stands for. -/
def numberValue (spelling : String) : Float :=
  (Number.readUnsigned? spelling.toList).getD Number.notNumber

/-- The operator of a strength that some tokens begin with. -/
def operator? (level : Nat) : List Token → Option (BinaryOp × List Token)
  | .symbol s :: r =>
    match s.binaryOp? with
    | some op => if op.level = level then some (op, r) else none
    | none => none
  | _ => none

theorem length_operator? {level : Nat} {ts r : List Token} {op : BinaryOp}
    (h : operator? level ts = some (op, r)) : r.length < ts.length ∧ level ≤ 6 := by
  unfold operator? at h
  split at h
  · split at h
    · split at h
      · next hl =>
        cases h
        exact ⟨Nat.lt_succ_self _, hl ▸ BinaryOp.level_le op⟩
      · cases h
    · cases h
  · cases h

mutual

def condition (ts : List Token) : Except (List Token) (Reading Expr ts) := do
  let ⟨test, r, h⟩ ← level 6 ts
  match r, h with
  | .symbol .question :: r₁, h => do
    let ⟨whenTrue, r₂, h₂⟩ ← condition r₁
    let ⟨_, r₃, h₃⟩ ← symbol .colon r₂
    let ⟨whenFalse, r₄, h₄⟩ ← condition r₃
    .ok ⟨.cond test whenTrue whenFalse, r₄, by simp only [List.length_cons] at h; omega⟩
  | r, h => .ok ⟨test, r, h⟩
termination_by 16 * ts.length + 12
decreasing_by all_goals (try simp only [List.length_cons] at *); omega

/-- Reads a chain of operators of one strength, or a single operand of the next tighter one. -/
def level (k : Nat) (ts : List Token) : Except (List Token) (Reading Expr ts) :=
  match k with
  | 0 => signed ts
  | k + 1 => do
    let ⟨first, r, h⟩ ← level k ts
    let ⟨rest, r', h'⟩ ← operands k r
    .ok ⟨.ofOperands first rest, r', by omega⟩
termination_by 16 * ts.length + 2 + k
decreasing_by all_goals omega

/-- Reads the operators of one strength behind an operand, each with the operand behind it. -/
def operands (k : Nat) (ts : List Token) :
    Except (List Token) (Trailing (List (BinaryOp × Expr)) ts) :=
  match h₀ : operator? (k + 1) ts with
  | none => .ok ⟨[], ts, Nat.le_refl _⟩
  | some (op, r) => do
    have h₁ := length_operator? h₀
    let ⟨operand, r₂, h₂⟩ ← level k r
    let ⟨rest, r₃, h₃⟩ ← operands k r₂
    .ok ⟨(op, operand) :: rest, r₃, by omega⟩
termination_by 16 * ts.length
decreasing_by all_goals omega

def signed (ts : List Token) : Except (List Token) (Reading Expr ts) :=
  match ts with
  | .symbol .bang :: r => do
    let ⟨operand, r', h⟩ ← signed r
    .ok ⟨.unary .not operand, r', Nat.lt_succ_of_lt h⟩
  | .symbol .minus :: r => do
    let ⟨operand, r', h⟩ ← signed r
    .ok ⟨.unary .neg operand, r', Nat.lt_succ_of_lt h⟩
  | ts => do
    let ⟨target, r, h⟩ ← operand ts
    let ⟨e, r', h'⟩ ← accesses target r
    .ok ⟨e, r', by omega⟩
termination_by 16 * ts.length + 1
decreasing_by all_goals (try simp only [List.length_cons] at *); omega

/-- Reads the members and indices behind an operand. -/
def accesses (target : Expr) (ts : List Token) : Except (List Token) (Trailing Expr ts) :=
  match ts with
  | .symbol .dot :: r => do
    let ⟨n, r₁, h₁⟩ ← name r
    let ⟨e, r₂, h₂⟩ ← accesses (.member target n) r₁
    .ok ⟨e, r₂, by simp only [List.length_cons]; omega⟩
  | .symbol .lBracket :: r => do
    let ⟨position, r₁, h₁⟩ ← condition r
    let ⟨_, r₂, h₂⟩ ← symbol .rBracket r₁
    let ⟨e, r₃, h₃⟩ ← accesses (.index target position) r₂
    .ok ⟨e, r₃, by simp only [List.length_cons]; omega⟩
  | ts => .ok ⟨target, ts, Nat.le_refl _⟩
termination_by 16 * ts.length
decreasing_by all_goals (try simp only [List.length_cons] at *); omega

def operand (ts : List Token) : Except (List Token) (Reading Expr ts) :=
  match ts with
  | .number spelling :: r => .ok ⟨.number (numberValue spelling), r, Nat.lt_succ_self _⟩
  | .str text :: r => .ok ⟨.constant (.string text), r, Nat.lt_succ_self _⟩
  | .keyword .true :: r => .ok ⟨.constant (.bool true), r, Nat.lt_succ_self _⟩
  | .keyword .false :: r => .ok ⟨.constant (.bool false), r, Nat.lt_succ_self _⟩
  | .keyword .null :: r => .ok ⟨.constant .null, r, Nat.lt_succ_self _⟩
  | .keyword .undefined :: r => .ok ⟨.constant .null, r, Nat.lt_succ_self _⟩
  | .keyword .loop :: r => do
    let ⟨_, r₁, h₁⟩ ← symbol .lParen r
    let ⟨item, r₂, h₂⟩ ← name r₁
    let ⟨position, r₃, h₃⟩ ← indexName r₂
    let ⟨_, r₄, h₄⟩ ← keyword .within r₃
    let ⟨source, r₅, h₅⟩ ← condition r₄
    let ⟨_, r₆, h₆⟩ ← symbol .rParen r₅
    let ⟨_, r₇, h₇⟩ ← symbol .lBrace r₆
    let ⟨body, r₈, h₈⟩ ← condition r₇
    let ⟨_, r₉, h₉⟩ ← symbol .rBrace r₈
    .ok ⟨.loop item position source body, r₉, by simp only [List.length_cons]; omega⟩
  | .ident n :: .symbol .lParen :: r =>
    match items .rParen r with
    | .ok ⟨args, r₁, h₁⟩ => .ok ⟨.call n args, r₁, by simp only [List.length_cons]; omega⟩
    | .error _ => .error (.symbol .lParen :: r)
  | .ident n :: r => .ok ⟨.var n, r, Nat.lt_succ_self _⟩
  | .symbol .lBracket :: r => do
    let ⟨elements, r₁, h₁⟩ ← items .rBracket r
    .ok ⟨.array elements, r₁, Nat.lt_succ_of_lt h₁⟩
  | .symbol .lBrace :: r => do
    let ⟨fields, r₁, h₁⟩ ← entries r
    .ok ⟨.object fields, r₁, Nat.lt_succ_of_lt h₁⟩
  | .symbol .lParen :: r => do
    let ⟨e, r₁, h₁⟩ ← condition r
    let ⟨_, r₂, h₂⟩ ← symbol .rParen r₁
    .ok ⟨e, r₂, by simp only [List.length_cons]; omega⟩
  | ts => .error ts
termination_by 16 * ts.length
decreasing_by all_goals (try simp only [List.length_cons] at *); omega

/-- Reads expressions with commas between them up to a closing symbol, in front of which a comma may
stand too. -/
def items (close : Symbol) (ts : List Token) : Except (List Token) (Reading (List Expr) ts) :=
  match symbol close ts with
  | .ok ⟨_, r, h⟩ => .ok ⟨[], r, h⟩
  | .error _ => do
    let ⟨e, r, h⟩ ← condition ts
    match r, h with
    | .symbol .comma :: r₁, h => do
      let ⟨rest, r₂, h₂⟩ ← items close r₁
      .ok ⟨e :: rest, r₂, by simp only [List.length_cons] at h; omega⟩
    | r, h => do
      let ⟨_, r₁, h₁⟩ ← symbol close r
      .ok ⟨[e], r₁, by omega⟩
termination_by 16 * ts.length + 13
decreasing_by all_goals (try simp only [List.length_cons] at *); omega

/-- Reads keys with their expressions up to the closing brace. -/
def entries (ts : List Token) : Except (List Token) (Reading (List (String × Expr)) ts) :=
  match symbol .rBrace ts with
  | .ok ⟨_, r, h⟩ => .ok ⟨[], r, h⟩
  | .error _ => do
    let ⟨k, r₁, h₁⟩ ← key ts
    let ⟨_, r₂, h₂⟩ ← symbol .colon r₁
    let ⟨e, r₃, h₃⟩ ← condition r₂
    match r₃, h₃ with
    | .symbol .comma :: r₄, h₃ => do
      let ⟨rest, r₅, h₅⟩ ← entries r₄
      .ok ⟨(k, e) :: rest, r₅, by simp only [List.length_cons] at h₃; omega⟩
    | r₃, h₃ => do
      let ⟨_, r₄, h₄⟩ ← symbol .rBrace r₃
      .ok ⟨[(k, e)], r₄, by omega⟩
termination_by 16 * ts.length
decreasing_by all_goals (try simp only [List.length_cons] at *); omega

end

/-- Reads tokens that are one expression as a whole. -/
def whole (ts : List Token) : Except (List Token) Expr := do
  let r ← condition ts
  if r.rest.isEmpty then .ok r.value else .error r.rest

end Parser

end IndentMarkup
