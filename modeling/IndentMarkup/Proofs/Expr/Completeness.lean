import IndentMarkup.Proofs.Expr.Grammar
import IndentMarkup.Proofs.Expr.Steps

/-!
# What the grammar derives is read

An expression that the grammar derives is found in front of anything that does not go on with it,
and exactly its tokens are used up. A run of operators goes on with operators of its own strength
and with whatever goes on with its operands, and a closing symbol goes on with nothing.
-/
namespace IndentMarkup

/-- The strength of what a symbol goes on with: an operand, a run of operators or, above those, a
condition. Other symbols go on with nothing. -/
def Symbol.strength? : Symbol → Option Nat
  | .dot => some 0
  | .lBracket => some 0
  | .lParen => some 0
  | .question => some 7
  | s => s.binaryOp?.map BinaryOp.level

theorem Symbol.strength?_of_binaryOp? {s : Symbol} {op : BinaryOp} (h : s.binaryOp? = some op) :
    s.strength? = some op.level := by
  cases s <;> cases h <;> rfl

def Token.opens : Token → Bool
  | .keyword .within => false
  | .symbol .lParen => true
  | .symbol .lBracket => true
  | .symbol .lBrace => true
  | .symbol .bang => true
  | .symbol .minus => true
  | .symbol _ => false
  | _ => true

namespace Parser

/-- The tokens do not go on with an operand or a run of at most the given strength. -/
def Stops (k : Nat) (r : List Token) : Prop :=
  ∀ s r' m, r = .symbol s :: r' → s.strength? = some m → k < m

theorem stops_nil (k : Nat) : Stops k [] := by
  intro s r' m h
  cases h

/-- A symbol that goes on with nothing, such as a closing one, stops every run. -/
theorem stops_of_strength?_eq_none {s : Symbol} (h : s.strength? = none) (k : Nat)
    (r : List Token) : Stops k (.symbol s :: r) := by
  intro s' r' m e hm
  cases e
  rw [h] at hm
  cases hm

theorem Stops.mono {k m : Nat} (hk : k ≤ m) {r : List Token} (h : Stops m r) : Stops k r :=
  fun s r' n e hn => Nat.lt_of_le_of_lt hk (h s r' n e hn)

theorem Stops.ne_symbol {k m : Nat} {r : List Token} (h : Stops k r) {s : Symbol}
    (hs : s.strength? = some m) (hm : m ≤ k) (r' : List Token) : r ≠ .symbol s :: r' :=
  fun e => absurd (h s r' m e hs) (Nat.not_lt_of_le hm)

theorem Stops.operator?_eq_none {k m : Nat} (hk : m ≤ k) {r : List Token} (h : Stops k r) :
    operator? m r = none := by
  cases ho : operator? m r with
  | none => rfl
  | some p =>
    unfold operator? at ho
    split at ho
    · next s r' =>
      split at ho
      · next op hs =>
        split at ho
        · next hl =>
          have hlt := h s r' op.level rfl (Symbol.strength?_of_binaryOp? hs)
          omega
        · cases ho
      · cases ho
    · cases ho

theorem operator?_of_binaryOp? {s : Symbol} {op : BinaryOp} {k : Nat}
    (h : s.binaryOp? = some op) (hl : op.level = k) (r : List Token) :
    operator? k (.symbol s :: r) = some (op, r) := by
  simp [operator?, h, hl]

end Parser

namespace Grammar

open IndentMarkup.Parser

/-- What stands behind an operand of a chain either begins with a weaker operator or stands behind
the whole chain. -/
theorem Operands.stops {k : Nat} {us r : List Token} {rest : List (BinaryOp × Expr)}
    (h : Operands k us rest) (hr : Stops (k + 1) r) : Stops k (us ++ r) := by
  cases h with
  | nil => exact hr.mono (Nat.le_succ k)
  | cons hs _ _ =>
    obtain ⟨hs, hl⟩ := mem_operators_iff.1 hs
    intro s r' m e hm
    cases e
    rw [Symbol.strength?_of_binaryOp? hs, hl] at hm
    cases hm
    exact Nat.lt_succ_self k

theorem Accesses.ne_lParen {target e : Expr} {us r : List Token} (h : Accesses target us e)
    (hr : Stops 0 r) (r' : List Token) : us ++ r ≠ .symbol .lParen :: r' := by
  cases h with
  | nil => exact hr.ne_symbol rfl (Nat.le_refl 0) r'
  | member => simp
  | index => simp

mutual

theorem Condition.opens {ts : List Token} {e : Expr} (h : Condition ts e) :
    ∃ t r, ts = t :: r ∧ t.opens = true := by
  match h with
  | .plain h => exact h.opens
  | .choice h _ _ =>
    obtain ⟨t, r, rfl, ht⟩ := h.opens
    exact ⟨t, _, rfl, ht⟩

theorem Level.opens {k : Nat} {ts : List Token} {e : Expr} (h : Level k ts e) :
    ∃ t r, ts = t :: r ∧ t.opens = true := by
  match h with
  | .signed h => exact h.opens
  | .single h => exact h.opens
  | .chain h _ =>
    obtain ⟨t, r, rfl, ht⟩ := h.opens
    exact ⟨t, _, rfl, ht⟩

theorem Signed.opens {ts : List Token} {e : Expr} (h : Signed ts e) :
    ∃ t r, ts = t :: r ∧ t.opens = true := by
  match h with
  | .sign hs _ =>
    refine ⟨_, _, rfl, ?_⟩
    rcases mem_signs hs with ⟨rfl, -⟩ | ⟨rfl, -⟩ <;> rfl
  | .accessed h _ =>
    obtain ⟨t, r, rfl, ht⟩ := h.opens
    exact ⟨t, _, rfl, ht⟩

theorem Operand.opens {ts : List Token} {e : Expr} (h : Operand ts e) :
    ∃ t r, ts = t :: r ∧ t.opens = true := by
  match h with
  | .constant (t := t) h =>
    refine ⟨t, [], rfl, ?_⟩
    unfold Token.constant? at h
    split at h <;> first | rfl | cases h
  | .var => exact ⟨_, _, rfl, rfl⟩
  | .call _ => exact ⟨_, _, rfl, rfl⟩
  | .array _ => exact ⟨_, _, rfl, rfl⟩
  | .object _ => exact ⟨_, _, rfl, rfl⟩
  | .parens _ => exact ⟨_, _, rfl, rfl⟩
  | .loop _ _ _ => exact ⟨_, _, rfl, rfl⟩

end

/-- A condition begins with no symbol that cannot open an expression. -/
theorem Condition.ne_of_not_opens {ts : List Token} {e : Expr} (h : Condition ts e) {t : Token}
    (ht : t.opens = false) (us r : List Token) : ts ++ us ≠ t :: r := by
  obtain ⟨u, rest, rfl, hu⟩ := h.opens
  intro e
  cases e
  rw [ht] at hu
  cases hu

theorem Key.ne_rBrace {t : Token} {k : String} (h : Key t k) (ts r : List Token) :
    t :: ts ≠ .symbol .rBrace :: r := by
  intro e
  cases e
  cases h with
  | name h => cases h

theorem Bindings.found {bs : List Token} {item : String} {position : Option String}
    (h : Bindings bs item position) (r : List Token) :
    ∃ us, found (name (bs ++ .keyword .within :: r)) = .ok (item, us) ∧
      foundAny (indexName us) = .ok (position, .keyword .within :: r) := by
  cases h with
  | one h =>
    refine ⟨.keyword .within :: r, found_name (name_iff.1 h) _, ?_⟩
    rw [foundAny_indexName_of_ne]
    intro r' e
    cases e
  | two h h' =>
    refine ⟨.symbol .comma :: _, found_name (name_iff.1 h) _, ?_⟩
    rw [foundAny_indexName_comma, List.append_eq, List.cons_append, List.nil_append,
      found_name (name_iff.1 h'), ok_bind]

/-- An operand begins with no sign. -/
theorem Operand.ne_sign {ts : List Token} {e : Expr} (h : Operand ts e) (us : List Token) :
    (∀ r, ts ++ us ≠ .symbol .bang :: r) ∧ ∀ r, ts ++ us ≠ .symbol .minus :: r := by
  cases h with
  | constant h => constructor <;> intro r e <;> cases e <;> cases h
  | var => constructor <;> intro r e <;> cases e
  | call _ => constructor <;> intro r e <;> cases e
  | array _ => constructor <;> intro r e <;> cases e
  | object _ => constructor <;> intro r e <;> cases e
  | parens _ => constructor <;> intro r e <;> cases e
  | loop _ _ _ => constructor <;> intro r e <;> cases e

theorem found_operand_constant {t : Token} {e : Expr} (h : t.constant? = some e)
    (r : List Token) : found (operand (t :: r)) = .ok (e, r) := by
  unfold Token.constant? at h
  split at h <;> first | (cases h; rw [operand]; rfl) | cases h

mutual

theorem Condition.found {ts : List Token} {e : Expr} (h : Condition ts e) (r : List Token)
    (hr : Stops 7 r) : found (condition (ts ++ r)) = .ok (e, r) := by
  match h with
  | .plain h =>
    rw [found_condition, h.found r (hr.mono (by decide))]
    dsimp only [ok_bind]
    split
    · next r₁ => exact (hr.ne_symbol rfl (Nat.le_refl 7) r₁ rfl).elim
    · rfl
  | @Condition.choice ts us vs _ _ _ h h₁ h₂ =>
    have hq : Stops 6 (.symbol .question :: (us ++ .symbol .colon :: vs) ++ r) := by
      intro s r' m e hm
      cases e
      cases hm
      decide
    rw [List.append_assoc, found_condition, h.found _ hq]
    simp only [ok_bind, List.cons_append, List.append_assoc]
    rw [h₁.found _ (stops_of_strength?_eq_none rfl 7 _)]
    simp only [ok_bind, after_self]
    rw [h₂.found r hr]
    rfl

theorem Level.found {k : Nat} {ts : List Token} {e : Expr} (h : Level k ts e) (r : List Token)
    (hr : Stops k r) : found (level k (ts ++ r)) = .ok (e, r) := by
  match h with
  | .signed h =>
    rw [found_level_zero]
    exact h.found r hr
  | .single h =>
    rw [found_level_succ, h.found r (hr.mono (Nat.le_succ _)), ok_bind,
      foundAny_operands_none (hr.operator?_eq_none (Nat.le_refl _))]
    rfl
  | .chain h hs =>
    rw [List.append_assoc, found_level_succ, h.found _ (hs.stops hr), ok_bind, hs.found r hr]
    rfl

theorem Operands.found {k : Nat} {us : List Token} {rest : List (BinaryOp × Expr)}
    (h : Operands k us rest) (r : List Token) (hr : Stops (k + 1) r) :
    foundAny (operands k (us ++ r)) = .ok (rest, r) := by
  match h with
  | .nil => exact foundAny_operands_none (hr.operator?_eq_none (Nat.le_refl _))
  | .cons hs h hrest =>
    obtain ⟨hs, hl⟩ := mem_operators_iff.1 hs
    rw [List.cons_append, List.append_assoc,
      foundAny_operands_some (operator?_of_binaryOp? hs hl _), h.found _ (hrest.stops hr),
      ok_bind, hrest.found r hr]
    rfl

theorem Signed.found {ts : List Token} {e : Expr} (h : Signed ts e) (r : List Token)
    (hr : Stops 0 r) : found (signed (ts ++ r)) = .ok (e, r) := by
  match h with
  | .sign hs h =>
    rcases mem_signs hs with ⟨rfl, rfl⟩ | ⟨rfl, rfl⟩
    · rw [List.cons_append, found_signed_bang, h.found r hr]
      rfl
    · rw [List.cons_append, found_signed_minus, h.found r hr]
      rfl
  | @Signed.accessed ts us _ _ h ha =>
    obtain ⟨hb, hm⟩ := h.ne_sign (us ++ r)
    rw [List.append_assoc, found_signed_of_ne hb hm, h.found _ (ha.ne_lParen hr), ok_bind]
    exact ha.found r hr

theorem Accesses.found {target e : Expr} {ts : List Token} (h : Accesses target ts e)
    (r : List Token) (hr : Stops 0 r) : foundAny (accesses target (ts ++ r)) = .ok (e, r) := by
  match h with
  | .nil =>
    exact foundAny_accesses_of_ne _ (hr.ne_symbol rfl (Nat.le_refl 0))
      (hr.ne_symbol rfl (Nat.le_refl 0))
  | .member hn h =>
    rw [List.cons_append, foundAny_accesses_dot, List.cons_append, found_name (name_iff.1 hn)]
    exact h.found r hr
  | .index hp h =>
    rw [List.cons_append, foundAny_accesses_bracket, List.append_assoc, List.cons_append,
      hp.found _ (stops_of_strength?_eq_none rfl 7 _), ok_bind, after_self, ok_bind]
    exact h.found r hr

theorem Operand.found {ts : List Token} {e : Expr} (h : Operand ts e) (r : List Token)
    (hr : ∀ r', r ≠ .symbol .lParen :: r') : found (operand (ts ++ r)) = .ok (e, r) := by
  match h with
  | .constant h => exact found_operand_constant h r
  | .var => exact found_operand_var _ hr
  | .call h =>
    rw [List.cons_append, List.cons_append, List.append_assoc, List.singleton_append,
      found_operand_call, h.found .rParen r (.inl rfl)]
  | .array h =>
    rw [List.cons_append, List.append_assoc, List.singleton_append, found_operand_array,
      h.found .rBracket r (.inr rfl), ok_bind]
  | .object h =>
    rw [List.cons_append, List.append_assoc, List.singleton_append, found_operand_object,
      h.found r, ok_bind]
  | .parens h =>
    rw [List.cons_append, List.append_assoc, List.singleton_append, found_operand_parens,
      h.found _ (stops_of_strength?_eq_none rfl 7 _), ok_bind, after_self, ok_bind]
  | @Operand.loop bs ts us _ _ _ _ hb hs h =>
    obtain ⟨rest, hn, hi⟩ :=
      hb.found (ts ++ .symbol .rParen :: .symbol .lBrace :: (us ++ .symbol .rBrace :: r))
    have e : .keyword .loop :: .symbol .lParen :: (bs ++ .keyword .within :: (ts ++
          .symbol .rParen :: .symbol .lBrace :: (us ++ [.symbol .rBrace]))) ++ r =
        Token.keyword .loop :: .symbol .lParen :: (bs ++ .keyword .within :: (ts ++
          .symbol .rParen :: .symbol .lBrace :: (us ++ .symbol .rBrace :: r))) := by simp
    rw [e, found_operand_loop, after_self, ok_bind, hn, ok_bind, hi, ok_bind, after_self, ok_bind,
      hs.found _ (stops_of_strength?_eq_none rfl 7 _), ok_bind, after_self, ok_bind, after_self,
      ok_bind, h.found _ (stops_of_strength?_eq_none rfl 7 _), ok_bind, after_self, ok_bind]

theorem Items.found {ts : List Token} {es : List Expr} (h : Items ts es) (close : Symbol)
    (r : List Token) (hc : close = .rParen ∨ close = .rBracket) :
    found (items close (ts ++ .symbol close :: r)) = .ok (es, r) := by
  have hstop : close.strength? = none := by rcases hc with rfl | rfl <;> rfl
  have hopen : (Token.symbol close).opens = false := by rcases hc with rfl | rfl <;> rfl
  match h with
  | .nil => exact found_items_close close r
  | .last h =>
    rw [found_items_of_ne (h.ne_of_not_opens hopen _),
      h.found _ (stops_of_strength?_eq_none hstop 7 _), ok_bind]
    rcases hc with rfl | rfl <;> dsimp only <;> rw [after_self, ok_bind]
  | .cons h hr =>
    rw [List.append_assoc, found_items_of_ne (h.ne_of_not_opens hopen _), List.cons_append,
      h.found _ (stops_of_strength?_eq_none rfl 7 _), ok_bind]
    dsimp only
    rw [hr.found close r hc, ok_bind]

theorem Entries.found {ts : List Token} {fields : List (String × Expr)} (h : Entries ts fields)
    (r : List Token) : found (entries (ts ++ .symbol .rBrace :: r)) = .ok (fields, r) := by
  match h with
  | .nil => exact found_entries_close r
  | .last hk h =>
    rw [List.cons_append, List.cons_append, found_entries_of_ne (hk.ne_rBrace _),
      found_key (key_iff.1 hk), ok_bind, after_self, ok_bind,
      h.found _ (stops_of_strength?_eq_none rfl 7 _), ok_bind]
    dsimp only
    rw [after_self, ok_bind]
  | .cons hk h hr =>
    rw [List.cons_append, List.cons_append, found_entries_of_ne (hk.ne_rBrace _),
      found_key (key_iff.1 hk), ok_bind, after_self, ok_bind, List.append_assoc, List.cons_append,
      h.found _ (stops_of_strength?_eq_none rfl 7 _), ok_bind]
    dsimp only
    rw [hr.found r, ok_bind]

end

end Grammar

end IndentMarkup
