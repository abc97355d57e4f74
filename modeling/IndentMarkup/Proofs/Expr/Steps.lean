import IndentMarkup.Expr.Parser

/-!
# Steps of the expression reader

What each reader of the expression reader does in terms of the others, with the proofs left out
that its rest is shorter. Everything later on about reading expressions rests on these equations
and on the two bounds on the rest.
-/
namespace IndentMarkup

namespace Parser

/-- What a reader finds and leaves, without the bound on the rest. -/
def found {α : Type} {ts : List Token} (x : Except (List Token) (Reading α ts)) :
    Except (List Token) (α × List Token) :=
  x.map fun p => (p.value, p.rest)

def foundAny {α : Type} {ts : List Token} (x : Except (List Token) (Trailing α ts)) :
    Except (List Token) (α × List Token) :=
  x.map fun p => (p.value, p.rest)

section

variable {α β : Type} {ts us : List Token}

theorem length_of_found {x : Except (List Token) (Reading α ts)} {v : α} {r : List Token}
    (h : found x = .ok (v, r)) : r.length < ts.length := by
  cases x with
  | error e => cases h
  | ok p => cases h; exact p.shorter

theorem length_of_foundAny {x : Except (List Token) (Trailing α ts)} {v : α} {r : List Token}
    (h : foundAny x = .ok (v, r)) : r.length ≤ ts.length := by
  cases x with
  | error e => cases h
  | ok p => cases h; exact p.noLonger

theorem exists_of_found {x : Except (List Token) (Reading α ts)} {v : α} {r : List Token}
    (h : found x = .ok (v, r)) : ∃ hr, x = .ok ⟨v, r, hr⟩ := by
  cases x with
  | error e => cases h
  | ok p => cases h; exact ⟨p.shorter, rfl⟩

@[simp] theorem found_ok (p : Reading α ts) : found (.ok p) = .ok (p.value, p.rest) := rfl

@[simp] theorem found_error (e : List Token) :
    found (.error e : Except (List Token) (Reading α ts)) = .error e := rfl

@[simp] theorem foundAny_ok (p : Trailing α ts) : foundAny (.ok p) = .ok (p.value, p.rest) := rfl

@[simp] theorem foundAny_error (e : List Token) :
    foundAny (.error e : Except (List Token) (Trailing α ts)) = .error e := rfl

theorem found_bind {x : Except (List Token) (Reading α ts)}
    {f : Reading α ts → Except (List Token) (Reading β us)}
    {g : α × List Token → Except (List Token) (β × List Token)}
    (h : ∀ p, found (f p) = g (p.value, p.rest)) : found (x >>= f) = found x >>= g := by
  cases x with
  | error e => rfl
  | ok p => exact h p

theorem found_bindAny {x : Except (List Token) (Trailing α ts)}
    {f : Trailing α ts → Except (List Token) (Reading β us)}
    {g : α × List Token → Except (List Token) (β × List Token)}
    (h : ∀ p, found (f p) = g (p.value, p.rest)) : found (x >>= f) = foundAny x >>= g := by
  cases x with
  | error e => rfl
  | ok p => exact h p

theorem foundAny_bind {x : Except (List Token) (Reading α ts)}
    {f : Reading α ts → Except (List Token) (Trailing β us)}
    {g : α × List Token → Except (List Token) (β × List Token)}
    (h : ∀ p, foundAny (f p) = g (p.value, p.rest)) : foundAny (x >>= f) = found x >>= g := by
  cases x with
  | error e => rfl
  | ok p => exact h p

theorem foundAny_bindAny {x : Except (List Token) (Trailing α ts)}
    {f : Trailing α ts → Except (List Token) (Trailing β us)}
    {g : α × List Token → Except (List Token) (β × List Token)}
    (h : ∀ p, foundAny (f p) = g (p.value, p.rest)) : foundAny (x >>= f) = foundAny x >>= g := by
  cases x with
  | error e => rfl
  | ok p => exact h p

end

@[simp] theorem ok_bind {ε α β : Type} (a : α) (f : α → Except ε β) :
    ((.ok a : Except ε α) >>= f) = f a := rfl

@[simp] theorem error_bind {ε α β : Type} (e : ε) (f : α → Except ε β) :
    ((.error e : Except ε α) >>= f) = .error e := rfl

def after (t : Token) : List Token → Except (List Token) (List Token)
  | [] => .error []
  | u :: r => if u = t then .ok r else .error (u :: r)

@[simp] theorem after_self (t : Token) (r : List Token) : after t (t :: r) = .ok r := by
  rw [after, if_pos rfl]

theorem after_eq_ok {t : Token} {ts r : List Token} (h : after t ts = .ok r) : ts = t :: r := by
  cases ts with
  | nil => cases h
  | cons u us =>
    rw [after] at h
    split at h
    · next hu =>
      cases h
      rw [hu]
    · cases h

section

variable {β : Type} {ts us : List Token}

theorem found_bindSymbol {s : Symbol} {f : Reading Unit ts → Except (List Token) (Reading β us)}
    {g : List Token → Except (List Token) (β × List Token)} (h : ∀ p, found (f p) = g p.rest) :
    found (symbol s ts >>= f) = after (.symbol s) ts >>= g := by
  cases ts with
  | nil => rfl
  | cons t r =>
    rw [symbol, after]
    split
    · exact h _
    · rfl

theorem foundAny_bindSymbol {s : Symbol}
    {f : Reading Unit ts → Except (List Token) (Trailing β us)}
    {g : List Token → Except (List Token) (β × List Token)} (h : ∀ p, foundAny (f p) = g p.rest) :
    foundAny (symbol s ts >>= f) = after (.symbol s) ts >>= g := by
  cases ts with
  | nil => rfl
  | cons t r =>
    rw [symbol, after]
    split
    · exact h _
    · rfl

theorem found_bindKeyword {k : Keyword} {f : Reading Unit ts → Except (List Token) (Reading β us)}
    {g : List Token → Except (List Token) (β × List Token)} (h : ∀ p, found (f p) = g p.rest) :
    found (keyword k ts >>= f) = after (.keyword k) ts >>= g := by
  cases ts with
  | nil => rfl
  | cons t r =>
    rw [keyword, after]
    split
    · exact h _
    · rfl

end

theorem found_condition (ts : List Token) :
    found (condition ts) = found (level 6 ts) >>= fun p =>
      match p.2 with
      | .symbol .question :: r₁ =>
        found (condition r₁) >>= fun p₁ => after (.symbol .colon) p₁.2 >>= fun r₃ =>
          found (condition r₃) >>= fun p₂ => .ok (.cond p.1 p₁.1 p₂.1, p₂.2)
      | r => .ok (p.1, r) := by
  rw [condition]
  refine found_bind fun p => ?_
  obtain ⟨test, r, h⟩ := p
  dsimp only
  split
  · refine found_bind fun p₁ => ?_
    refine found_bindSymbol fun p₂ => ?_
    exact found_bind fun p₃ => rfl
  · next hne =>
    split
    · next r₁ => exact (hne r₁ h rfl HEq.rfl).elim
    · rfl

theorem found_level_zero (ts : List Token) : found (level 0 ts) = found (signed ts) := by
  rw [level]

theorem found_level_succ (k : Nat) (ts : List Token) :
    found (level (k + 1) ts) = found (level k ts) >>= fun p =>
      foundAny (operands k p.2) >>= fun p₁ => .ok (.ofOperands p.1 p₁.1, p₁.2) := by
  rw [level]
  refine found_bind fun p => ?_
  exact found_bindAny fun p₁ => rfl

theorem foundAny_operands_none {k : Nat} {ts : List Token} (h : operator? (k + 1) ts = none) :
    foundAny (operands k ts) = .ok ([], ts) := by
  rw [operands]
  split
  · rfl
  · next h' =>
    rw [h] at h'
    cases h'

theorem foundAny_operands_some {k : Nat} {ts r : List Token} {op : BinaryOp}
    (h : operator? (k + 1) ts = some (op, r)) :
    foundAny (operands k ts) = found (level k r) >>= fun p =>
      foundAny (operands k p.2) >>= fun p₁ => .ok ((op, p.1) :: p₁.1, p₁.2) := by
  rw [operands]
  split
  · next h' =>
    rw [h] at h'
    cases h'
  · next h' =>
    rw [h] at h'
    cases h'
    refine foundAny_bind fun p => ?_
    exact foundAny_bindAny fun p₁ => rfl

theorem found_signed_bang (r : List Token) :
    found (signed (.symbol .bang :: r)) = found (signed r) >>= fun p =>
      .ok (.unary .not p.1, p.2) := by
  rw [signed]
  exact found_bind fun p => rfl

theorem found_signed_minus (r : List Token) :
    found (signed (.symbol .minus :: r)) = found (signed r) >>= fun p =>
      .ok (.unary .neg p.1, p.2) := by
  rw [signed]
  exact found_bind fun p => rfl

theorem found_signed_of_ne {ts : List Token} (hb : ∀ r, ts ≠ .symbol .bang :: r)
    (hm : ∀ r, ts ≠ .symbol .minus :: r) :
    found (signed ts) = found (operand ts) >>= fun p => foundAny (accesses p.1 p.2) := by
  rw [signed]
  · refine found_bind fun p => ?_
    rw [found_bindAny (g := fun p₁ => .ok p₁) fun p₁ => rfl]
    cases foundAny (accesses p.value p.rest) <;> rfl
  · exact hb
  · exact hm

theorem foundAny_accesses_dot (target : Expr) (ts : List Token) :
    foundAny (accesses target (.symbol .dot :: ts)) = found (name ts) >>= fun p =>
      foundAny (accesses (.member target p.1) p.2) := by
  rw [accesses]
  refine foundAny_bind fun p => ?_
  rw [foundAny_bindAny (g := fun p₁ => .ok p₁) fun p₁ => rfl]
  cases foundAny (accesses (.member target p.value) p.rest) <;> rfl

theorem foundAny_accesses_bracket (target : Expr) (ts : List Token) :
    foundAny (accesses target (.symbol .lBracket :: ts)) = found (condition ts) >>= fun p =>
      after (.symbol .rBracket) p.2 >>= fun r => foundAny (accesses (.index target p.1) r) := by
  rw [accesses]
  refine foundAny_bind fun p => ?_
  refine foundAny_bindSymbol fun p₁ => ?_
  rw [foundAny_bindAny (g := fun p₂ => .ok p₂) fun p₂ => rfl]
  cases foundAny (accesses (.index target p.value) p₁.rest) <;> rfl

theorem foundAny_accesses_of_ne (target : Expr) {ts : List Token}
    (hd : ∀ r, ts ≠ .symbol .dot :: r) (hb : ∀ r, ts ≠ .symbol .lBracket :: r) :
    foundAny (accesses target ts) = .ok (target, ts) := by
  rw [accesses]
  · rfl
  · exact hd
  · exact hb

theorem found_name {t : Token} {n : String} (h : t.name? = some n) (r : List Token) :
    found (name (t :: r)) = .ok (n, r) := by
  rw [name]
  split
  · next h' =>
    rw [h] at h'
    cases h'
    rfl
  · next h' =>
    rw [h] at h'
    cases h'

theorem found_key {t : Token} {k : String} (h : t.key? = some k) (r : List Token) :
    found (key (t :: r)) = .ok (k, r) := by
  rw [key]
  split
  · next h' =>
    rw [h] at h'
    cases h'
    rfl
  · next h' =>
    rw [h] at h'
    cases h'

theorem foundAny_indexName_comma (r : List Token) :
    foundAny (indexName (.symbol .comma :: r)) =
      found (name r) >>= fun p => .ok (some p.1, p.2) := by
  rw [indexName]
  exact foundAny_bind fun p => rfl

theorem foundAny_indexName_of_ne {ts : List Token} (h : ∀ r, ts ≠ .symbol .comma :: r) :
    foundAny (indexName ts) = .ok (none, ts) := by
  rw [indexName]
  · rfl
  · exact h

theorem eq_cons_of_symbol {s : Symbol} {ts : List Token} {p : Reading Unit ts}
    (h : symbol s ts = .ok p) : ts = .symbol s :: p.rest := by
  cases ts with
  | nil => cases h
  | cons t r =>
    rw [symbol] at h
    split at h
    · next ht =>
      cases h
      rw [ht]
    · cases h

theorem symbol_self (s : Symbol) (r : List Token) :
    symbol s (.symbol s :: r) = .ok ⟨(), r, Nat.lt_succ_self _⟩ := by
  rw [symbol, if_pos rfl]

theorem found_items_close (close : Symbol) (r : List Token) :
    found (items close (.symbol close :: r)) = .ok ([], r) := by
  rw [items, symbol_self]
  rfl

theorem found_items_of_ne {close : Symbol} {ts : List Token} (h : ∀ r, ts ≠ .symbol close :: r) :
    found (items close ts) = found (condition ts) >>= fun p =>
      match p.2 with
      | .symbol .comma :: r₁ => found (items close r₁) >>= fun p₁ => .ok (p.1 :: p₁.1, p₁.2)
      | r => after (.symbol close) r >>= fun r₁ => .ok ([p.1], r₁) := by
  rw [items]
  split
  · next hs => exact (h _ (eq_cons_of_symbol hs)).elim
  · refine found_bind fun p => ?_
    obtain ⟨e, r, hr⟩ := p
    dsimp only
    split
    · exact found_bind fun p₁ => rfl
    · next hne =>
      split
      · next r₁ => exact (hne r₁ hr rfl HEq.rfl).elim
      · exact found_bindSymbol fun p₁ => rfl

theorem found_entries_close (r : List Token) :
    found (entries (.symbol .rBrace :: r)) = .ok ([], r) := by
  rw [entries, symbol_self]
  rfl

theorem found_entries_of_ne {ts : List Token} (h : ∀ r, ts ≠ .symbol .rBrace :: r) :
    found (entries ts) = found (key ts) >>= fun p => after (.symbol .colon) p.2 >>= fun r₂ =>
      found (condition r₂) >>= fun p₃ =>
        match p₃.2 with
        | .symbol .comma :: r₄ =>
          found (entries r₄) >>= fun p₅ => .ok ((p.1, p₃.1) :: p₅.1, p₅.2)
        | r₃ => after (.symbol .rBrace) r₃ >>= fun r₄ => .ok ([(p.1, p₃.1)], r₄) := by
  rw [entries]
  split
  · next hs => exact (h _ (eq_cons_of_symbol hs)).elim
  · refine found_bind fun p => ?_
    refine found_bindSymbol fun p₂ => ?_
    refine found_bind fun p₃ => ?_
    obtain ⟨e, r, hr⟩ := p₃
    dsimp only
    split
    · exact found_bind fun p₅ => rfl
    · next hne =>
      split
      · next r₁ => exact (hne r₁ hr rfl HEq.rfl).elim
      · exact found_bindSymbol fun p₅ => rfl

theorem found_operand_loop (r : List Token) :
    found (operand (.keyword .loop :: r)) =
      after (.symbol .lParen) r >>= fun r₁ => found (name r₁) >>= fun p₂ =>
      foundAny (indexName p₂.2) >>= fun p₃ => after (.keyword .within) p₃.2 >>= fun r₄ =>
      found (condition r₄) >>= fun p₅ => after (.symbol .rParen) p₅.2 >>= fun r₆ =>
      after (.symbol .lBrace) r₆ >>= fun r₇ => found (condition r₇) >>= fun p₈ =>
      after (.symbol .rBrace) p₈.2 >>= fun r₉ => .ok (.loop p₂.1 p₃.1 p₅.1 p₈.1, r₉) := by
  rw [operand]
  refine found_bindSymbol fun p₁ => ?_
  refine found_bind fun p₂ => ?_
  refine found_bindAny fun p₃ => ?_
  refine found_bindKeyword fun p₄ => ?_
  refine found_bind fun p₅ => ?_
  refine found_bindSymbol fun p₆ => ?_
  refine found_bindSymbol fun p₇ => ?_
  refine found_bind fun p₈ => ?_
  exact found_bindSymbol fun p₉ => rfl

theorem found_operand_call (n : String) (r : List Token) :
    found (operand (.ident n :: .symbol .lParen :: r)) =
      match found (items .rParen r) with
      | .ok p => .ok (.call n p.1, p.2)
      | .error _ => .error (.symbol .lParen :: r) := by
  rw [operand]
  cases items .rParen r <;> rfl

theorem found_operand_var (n : String) {r : List Token} (h : ∀ r', r ≠ .symbol .lParen :: r') :
    found (operand (.ident n :: r)) = .ok (.var n, r) := by
  rw [operand]
  · rfl
  · exact h

theorem found_operand_array (r : List Token) :
    found (operand (.symbol .lBracket :: r)) = found (items .rBracket r) >>= fun p =>
      .ok (.array p.1, p.2) := by
  rw [operand]
  exact found_bind fun p => rfl

theorem found_operand_object (r : List Token) :
    found (operand (.symbol .lBrace :: r)) = found (entries r) >>= fun p =>
      .ok (.object p.1, p.2) := by
  rw [operand]
  exact found_bind fun p => rfl

theorem found_operand_parens (r : List Token) :
    found (operand (.symbol .lParen :: r)) = found (condition r) >>= fun p =>
      after (.symbol .rParen) p.2 >>= fun r₂ => .ok (p.1, r₂) := by
  rw [operand]
  refine found_bind fun p => ?_
  exact found_bindSymbol fun p₁ => rfl

theorem whole_eq (ts : List Token) :
    whole ts = found (condition ts) >>= fun p => if p.2.isEmpty then .ok p.1 else .error p.2 := by
  unfold whole
  cases condition ts <;> rfl

end Parser

end IndentMarkup
