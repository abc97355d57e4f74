import IndentMarkup.Expr.Parser

/-!
# The grammar of expressions

Which tokens spell which expression, stated without a reader. Every form of an expression is a
relation between tokens and what they spell; a form contains others exactly where its own tokens
leave room for them, so the relations say nothing about what stands before or behind. A run of
operators of one strength is a single chain, and lists may end with a comma behind an item. The
grammar has tables of its own for the operators of each strength, the signs and the words that may
be names; that the reader classifies tokens in the same way is proved beside each table.
-/
namespace IndentMarkup

/-- The expression that a token is by itself, unless it is a name. -/
def Token.constant? : Token → Option Expr
  | .number spelling => some (.number (Parser.numberValue spelling))
  | .str text => some (.constant (.string text))
  | .keyword .true => some (.constant (.bool true))
  | .keyword .false => some (.constant (.bool false))
  | .keyword .null => some (.constant .null)
  | .keyword .undefined => some (.constant .null)
  | _ => none

namespace Grammar

/-- The operators of each strength with their symbols. The first strength binds tightest. -/
def operators : Nat → List (Symbol × BinaryOp)
  | 1 => [(.star, .mul), (.slash, .div), (.percent, .rem)]
  | 2 => [(.plus, .add), (.minus, .sub)]
  | 3 => [(.lt, .lt), (.le, .le), (.gt, .gt), (.ge, .ge)]
  | 4 => [(.eq, .eq), (.ne, .ne), (.strictEq, .strictEq), (.strictNe, .strictNe)]
  | 5 => [(.and, .and)]
  | 6 => [(.or, .or)]
  | _ => []

theorem mem_operators_iff {k : Nat} {s : Symbol} {op : BinaryOp} :
    (s, op) ∈ operators k ↔ s.binaryOp? = some op ∧ op.level = k := by
  constructor
  · have hall : ∀ p ∈ operators k, p.1.binaryOp? = some p.2 ∧ p.2.level = k := by
      unfold operators
      split <;> first | decide | nofun
    exact hall (s, op)
  · rintro ⟨hs, rfl⟩
    cases s <;> cases hs <;> decide

def signs : List (Symbol × UnaryOp) := [(.bang, .not), (.minus, .neg)]

theorem mem_signs {s : Symbol} {op : UnaryOp} (h : (s, op) ∈ signs) :
    s = .bang ∧ op = .not ∨ s = .minus ∧ op = .neg := by
  simpa [signs] using h

theorem mem_signs_iff {s : Symbol} {op : UnaryOp} :
    (s, op) ∈ signs ↔ s.unaryOp? = some op := by
  cases s <;> cases op <;> decide

/-- The words of the language that are names where only a name may stand. -/
def words : List (Keyword × String) :=
  [(.true, "true"), (.false, "false"), (.null, "null"), (.undefined, "undefined"),
    (.loop, "for"), (.within, "in")]

/-- The names of variables, members and keys. -/
inductive Name : Token → String → Prop
  | ident {n : String} : Name (.ident n) n
  | word {k : Keyword} {n : String} (h : (k, n) ∈ words) : Name (.keyword k) n

theorem name_iff {t : Token} {n : String} : Name t n ↔ t.name? = some n := by
  constructor
  · intro h
    cases h with
    | ident => rfl
    | @word k _ h =>
      have hall : ∀ p ∈ words, p.1.text = p.2 := by decide
      exact congrArg some (hall (k, n) h)
  · intro h
    cases t with
    | ident m =>
      cases h
      exact .ident
    | keyword k =>
      cases h
      refine .word ?_
      cases k <;> decide
    | number | str | symbol => cases h

/-- The keys of objects: names, texts, and numbers as they are spelled. -/
inductive Key : Token → String → Prop
  | name {t : Token} {n : String} (h : Name t n) : Key t n
  | number {n : String} : Key (.number n) n
  | text {n : String} : Key (.str n) n

theorem key_iff {t : Token} {k : String} : Key t k ↔ t.key? = some k := by
  constructor
  · intro h
    cases h with
    | name h =>
      cases h with
      | ident => rfl
      | word h => exact name_iff.1 (.word h)
    | number => rfl
    | text => rfl
  · intro h
    cases t with
    | ident | keyword => exact .name (name_iff.2 h)
    | number n =>
      cases h
      exact .number
    | str n =>
      cases h
      exact .text
    | symbol => cases h

inductive Bindings : List Token → String → Option String → Prop
  | one {t : Token} {item : String} (h : Name t item) : Bindings [t] item none
  | two {t u : Token} {item position : String} (h : Name t item) (h' : Name u position) :
      Bindings [t, .symbol .comma, u] item (some position)

mutual

/-- A disjunction, perhaps with two alternatives behind it. -/
inductive Condition : List Token → Expr → Prop
  | plain {ts : List Token} {e : Expr} (h : Level 6 ts e) : Condition ts e
  | choice {ts us vs : List Token} {test whenTrue whenFalse : Expr} (h : Level 6 ts test)
      (h₁ : Condition us whenTrue) (h₂ : Condition vs whenFalse) :
      Condition (ts ++ .symbol .question :: (us ++ .symbol .colon :: vs))
        (.cond test whenTrue whenFalse)

/-- An operand of the given strength: with signs and accesses at the lowest, and above it one of the
next lower, alone or as the first of a chain. -/
inductive Level : Nat → List Token → Expr → Prop
  | signed {ts : List Token} {e : Expr} (h : Signed ts e) : Level 0 ts e
  | single {k : Nat} {ts : List Token} {e : Expr} (h : Level k ts e) : Level (k + 1) ts e
  | chain {k : Nat} {ts us : List Token} {first : Expr} {next : BinaryOp × Expr}
      {rest : List (BinaryOp × Expr)} (h : Level k ts first) (hr : Operands k us (next :: rest)) :
      Level (k + 1) (ts ++ us) (.chain first (next :: rest))

inductive Operands : Nat → List Token → List (BinaryOp × Expr) → Prop
  | nil {k : Nat} : Operands k [] []
  | cons {k : Nat} {s : Symbol} {op : BinaryOp} {ts us : List Token} {e : Expr}
      {rest : List (BinaryOp × Expr)} (hs : (s, op) ∈ operators (k + 1))
      (h : Level k ts e) (hr : Operands k us rest) :
      Operands k (.symbol s :: (ts ++ us)) ((op, e) :: rest)

inductive Signed : List Token → Expr → Prop
  | sign {s : Symbol} {op : UnaryOp} {ts : List Token} {e : Expr} (hs : (s, op) ∈ signs)
      (h : Signed ts e) : Signed (.symbol s :: ts) (.unary op e)
  | accessed {ts us : List Token} {target e : Expr} (h : Operand ts target)
      (ha : Accesses target us e) : Signed (ts ++ us) e

/-- Members and indices behind a target. -/
inductive Accesses : Expr → List Token → Expr → Prop
  | nil {target : Expr} : Accesses target [] target
  | member {target e : Expr} {t : Token} {n : String} {ts : List Token} (hn : Name t n)
      (h : Accesses (.member target n) ts e) : Accesses target (.symbol .dot :: t :: ts) e
  | index {target position e : Expr} {ts us : List Token} (hp : Condition ts position)
      (h : Accesses (.index target position) us e) :
      Accesses target (.symbol .lBracket :: (ts ++ .symbol .rBracket :: us)) e

inductive Operand : List Token → Expr → Prop
  | constant {t : Token} {e : Expr} (h : t.constant? = some e) : Operand [t] e
  | var {n : String} : Operand [.ident n] (.var n)
  | call {n : String} {ts : List Token} {args : List Expr} (h : Items ts args) :
      Operand (.ident n :: .symbol .lParen :: (ts ++ [.symbol .rParen])) (.call n args)
  | array {ts : List Token} {elements : List Expr} (h : Items ts elements) :
      Operand (.symbol .lBracket :: (ts ++ [.symbol .rBracket])) (.array elements)
  | object {ts : List Token} {fields : List (String × Expr)} (h : Entries ts fields) :
      Operand (.symbol .lBrace :: (ts ++ [.symbol .rBrace])) (.object fields)
  | parens {ts : List Token} {e : Expr} (h : Condition ts e) :
      Operand (.symbol .lParen :: (ts ++ [.symbol .rParen])) e
  | loop {bs ts us : List Token} {item : String} {position : Option String} {source body : Expr}
      (hb : Bindings bs item position) (hs : Condition ts source) (h : Condition us body) :
      Operand (.keyword .loop :: .symbol .lParen :: (bs ++ .keyword .within ::
        (ts ++ .symbol .rParen :: .symbol .lBrace :: (us ++ [.symbol .rBrace]))))
        (.loop item position source body)

/-- Expressions with commas between them, and perhaps one behind the last. -/
inductive Items : List Token → List Expr → Prop
  | nil : Items [] []
  | last {ts : List Token} {e : Expr} (h : Condition ts e) : Items ts [e]
  | cons {ts us : List Token} {e : Expr} {rest : List Expr} (h : Condition ts e)
      (hr : Items us rest) : Items (ts ++ .symbol .comma :: us) (e :: rest)

/-- Keys with their expressions, with commas between them and perhaps one behind the last. -/
inductive Entries : List Token → List (String × Expr) → Prop
  | nil : Entries [] []
  | last {t : Token} {k : String} {ts : List Token} {e : Expr} (hk : Key t k)
      (h : Condition ts e) : Entries (t :: .symbol .colon :: ts) [(k, e)]
  | cons {t : Token} {k : String} {ts us : List Token} {e : Expr} {rest : List (String × Expr)}
      (hk : Key t k) (h : Condition ts e) (hr : Entries us rest) :
      Entries (t :: .symbol .colon :: (ts ++ .symbol .comma :: us)) ((k, e) :: rest)

end

/-- An operand and the run of operators behind it, which may be empty. -/
theorem Level.run {k : Nat} {ts us : List Token} {first : Expr} {rest : List (BinaryOp × Expr)}
    (h : Level k ts first) (hr : Operands k us rest) :
    Level (k + 1) (ts ++ us) (.ofOperands first rest) := by
  cases rest with
  | nil =>
    cases hr
    rw [List.append_nil]
    exact .single h
  | cons next rest => exact .chain h hr

theorem Level.of_operand {ts : List Token} {e : Expr} (h : Operand ts e) (k : Nat) :
    Level k ts e := by
  induction k with
  | zero =>
    have hs := Signed.accessed h .nil
    rw [List.append_nil] at hs
    exact .signed hs
  | succ k ih => exact .single ih

theorem Condition.of_operand {ts : List Token} {e : Expr} (h : Operand ts e) : Condition ts e :=
  .plain (.of_operand h 6)

/-- A run of one strength is an operand of every greater one. -/
theorem Level.mono {k m : Nat} (hk : k ≤ m) {ts : List Token} {e : Expr} (h : Level k ts e) :
    Level m ts e := by
  induction hk with
  | refl => exact h
  | step _ ih => exact .single ih

end Grammar

end IndentMarkup
