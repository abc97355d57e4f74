import IndentMarkup.Proofs.Expr.Grammar

/-!
# Parentheses in expressions

Whatever the grammar derives opens and closes its parentheses in pairs. So tokens between two
parentheses that close none which they do not open stand between these two in every derivation: they
are an expression themselves, and what follows is read as if it stood alone.
-/
namespace IndentMarkup

namespace Grammar

def isParen : Token → Bool
  | .symbol .lParen => true
  | .symbol .rParen => true
  | _ => false

/-- The open parentheses behind a token; none if it closes one where none is open. -/
def parenStep? (n : Nat) : Token → Option Nat
  | .symbol .lParen => some (n + 1)
  | .symbol .rParen => if n = 0 then none else some (n - 1)
  | _ => some n

def parensOpen? (n : Nat) (ts : List Token) : Option Nat := ts.foldlM parenStep? n

theorem parensOpen?_cons (n : Nat) (t : Token) (ts : List Token) :
    parensOpen? n (t :: ts) = (parenStep? n t).bind fun m => parensOpen? m ts :=
  List.foldlM_cons

theorem parensOpen?_append (n : Nat) (ts us : List Token) :
    parensOpen? n (ts ++ us) = (parensOpen? n ts).bind fun m => parensOpen? m us :=
  List.foldlM_append

theorem parensOpen?_lParen (n : Nat) (ts : List Token) :
    parensOpen? n (.symbol .lParen :: ts) = parensOpen? (n + 1) ts := parensOpen?_cons ..

theorem parensOpen?_rParen_zero (ts : List Token) :
    parensOpen? 0 (.symbol .rParen :: ts) = none := parensOpen?_cons ..

theorem parensOpen?_rParen_succ (n : Nat) (ts : List Token) :
    parensOpen? (n + 1) (.symbol .rParen :: ts) = parensOpen? n ts := parensOpen?_cons ..

theorem parensOpen?_of_not_isParen {t : Token} (h : isParen t = false) (n : Nat)
    (ts : List Token) : parensOpen? n (t :: ts) = parensOpen? n ts := by
  have ht : parenStep? n t = some n := by
    unfold parenStep?
    split
    · cases h
    · cases h
    · rfl
  rw [parensOpen?_cons, ht, Option.bind_some]

/-- With more open parentheses in front there are more behind. -/
theorem parensOpen?_add {n m : Nat} {ts : List Token} (h : parensOpen? n ts = some m) (k : Nat) :
    parensOpen? (n + k) ts = some (m + k) := by
  induction ts generalizing n with
  | nil =>
    cases h
    rfl
  | cons t ts ih =>
    by_cases hl : t = .symbol .lParen
    · subst hl
      rw [parensOpen?_lParen] at h ⊢
      rw [Nat.add_right_comm]
      exact ih h
    by_cases hr : t = .symbol .rParen
    · subst hr
      cases n with
      | zero =>
        rw [parensOpen?_rParen_zero] at h
        cases h
      | succ n =>
        rw [parensOpen?_rParen_succ] at h
        rw [Nat.add_right_comm, parensOpen?_rParen_succ]
        exact ih h
    · have ht : isParen t = false := by
        unfold isParen
        split <;> simp_all
      rw [parensOpen?_of_not_isParen ht] at h ⊢
      exact ih h

/-- Parentheses around tokens are matched, and what the tokens leave open is left open behind. -/
theorem isSome_parensOpen?_parens {ts r : List Token} (ht : (parensOpen? 0 ts).isSome = true)
    (hr : (parensOpen? 0 r).isSome = true) :
    (parensOpen? 0 (.symbol .lParen :: (ts ++ .symbol .rParen :: r))).isSome = true := by
  obtain ⟨m, hm⟩ := Option.isSome_iff_exists.1 ht
  obtain ⟨n, hn⟩ := Option.isSome_iff_exists.1 hr
  have hw := parensOpen?_add hn m
  rw [Nat.zero_add] at hw
  rw [parensOpen?_lParen, parensOpen?_append, parensOpen?_add hm 1, Option.bind_some,
    parensOpen?_rParen_succ, hw]
  rfl

/-- The tokens open and close their parentheses in pairs. -/
def Matched (ts : List Token) : Prop := ∀ n, parensOpen? n ts = some n

theorem Matched.nil : Matched [] := fun _ => rfl

theorem Matched.append {ts us : List Token} (h : Matched ts) (h' : Matched us) :
    Matched (ts ++ us) := by
  intro n
  rw [parensOpen?_append, h n, Option.bind_some, h' n]

theorem Matched.cons {t : Token} {ts : List Token} (ht : isParen t = false) (h : Matched ts) :
    Matched (t :: ts) := by
  intro n
  rw [parensOpen?_of_not_isParen ht, h n]

theorem Matched.parens {ts us : List Token} (h : Matched ts) (h' : Matched us) :
    Matched (.symbol .lParen :: (ts ++ .symbol .rParen :: us)) := by
  intro n
  rw [parensOpen?_lParen, parensOpen?_append, h (n + 1), Option.bind_some,
    parensOpen?_rParen_succ, h' n]

theorem Name.isParen_eq_false {t : Token} {n : String} (h : Name t n) : isParen t = false := by
  cases h <;> rfl

theorem Key.isParen_eq_false {t : Token} {k : String} (h : Key t k) : isParen t = false := by
  cases h with
  | name h => exact h.isParen_eq_false
  | number | text => rfl

theorem isParen_of_constant? {t : Token} {e : Expr} (h : t.constant? = some e) :
    isParen t = false := by
  unfold isParen
  split <;> first | rfl | cases h

theorem isParen_of_mem_operators {k : Nat} {s : Symbol} {op : BinaryOp}
    (h : (s, op) ∈ operators k) : isParen (.symbol s) = false := by
  obtain ⟨h, -⟩ := mem_operators_iff.1 h
  cases s <;> first | rfl | cases h

theorem isParen_of_mem_signs {s : Symbol} {op : UnaryOp} (h : (s, op) ∈ signs) :
    isParen (.symbol s) = false := by
  rcases mem_signs h with ⟨rfl, -⟩ | ⟨rfl, -⟩ <;> rfl

theorem Bindings.matched {bs : List Token} {item : String} {position : Option String}
    (h : Bindings bs item position) : Matched bs := by
  cases h with
  | one h => exact .cons h.isParen_eq_false .nil
  | two h h' => exact .cons h.isParen_eq_false (.cons rfl (.cons h'.isParen_eq_false .nil))

mutual

theorem Condition.matched {ts : List Token} {e : Expr} (h : Condition ts e) : Matched ts := by
  match h with
  | .plain h => exact h.matched
  | .choice h h₁ h₂ =>
    exact .append h.matched (.cons rfl (.append h₁.matched (.cons rfl h₂.matched)))

theorem Level.matched {k : Nat} {ts : List Token} {e : Expr} (h : Level k ts e) : Matched ts := by
  match h with
  | .signed h => exact h.matched
  | .single h => exact h.matched
  | .chain h hr => exact .append h.matched hr.matched

theorem Operands.matched {k : Nat} {ts : List Token} {rest : List (BinaryOp × Expr)}
    (h : Operands k ts rest) : Matched ts := by
  match h with
  | .nil => exact .nil
  | .cons hs h hr => exact .cons (isParen_of_mem_operators hs) (.append h.matched hr.matched)

theorem Signed.matched {ts : List Token} {e : Expr} (h : Signed ts e) : Matched ts := by
  match h with
  | .sign hs h => exact .cons (isParen_of_mem_signs hs) h.matched
  | .accessed h ha => exact .append h.matched ha.matched

theorem Accesses.matched {target e : Expr} {ts : List Token} (h : Accesses target ts e) :
    Matched ts := by
  match h with
  | .nil => exact .nil
  | .member hn h => exact .cons rfl (.cons hn.isParen_eq_false h.matched)
  | .index hp h => exact .cons rfl (.append hp.matched (.cons rfl h.matched))

theorem Operand.matched {ts : List Token} {e : Expr} (h : Operand ts e) : Matched ts := by
  match h with
  | .constant h => exact .cons (isParen_of_constant? h) .nil
  | .var => exact .cons rfl .nil
  | .call h => exact .cons rfl (.parens h.matched .nil)
  | .array h => exact .cons rfl (.append h.matched (.cons rfl .nil))
  | .object h => exact .cons rfl (.append h.matched (.cons rfl .nil))
  | .parens h => exact .parens h.matched .nil
  | @Operand.loop bs ts us _ _ _ _ hb hs h =>
    have hhead : Matched (bs ++ .keyword .within :: ts) :=
      .append hb.matched (.cons rfl hs.matched)
    have hbody : Matched (.symbol .lBrace :: (us ++ [.symbol .rBrace])) :=
      .cons rfl (.append h.matched (.cons rfl .nil))
    have hloop : Matched (.keyword .loop :: .symbol .lParen :: _) :=
      .cons rfl (hhead.parens hbody)
    rwa [List.append_assoc] at hloop

theorem Items.matched {ts : List Token} {es : List Expr} (h : Items ts es) : Matched ts := by
  match h with
  | .nil => exact .nil
  | .last h => exact h.matched
  | .cons h hr => exact .append h.matched (.cons rfl hr.matched)

theorem Entries.matched {ts : List Token} {fields : List (String × Expr)}
    (h : Entries ts fields) : Matched ts := by
  match h with
  | .nil => exact .nil
  | .last hk h => exact .cons hk.isParen_eq_false (.cons rfl h.matched)
  | .cons hk h hr =>
    exact .cons hk.isParen_eq_false
      (.cons rfl (.append h.matched (.cons rfl hr.matched)))

end

/-! ### The first operand of an expression -/

/-- Behind the first operand of a chain stands nothing, or an operator and a chain. -/
theorem Level.exists_first {k : Nat} {ts : List Token} {e : Expr} (h : Level k ts e) :
    ∃ us vs f, ts = us ++ vs ∧ Signed us f ∧
      (vs = [] ∨ ∃ s ws g, vs = .symbol s :: ws ∧ Level k ws g) := by
  induction k generalizing ts e with
  | zero =>
    cases h with
    | signed h => exact ⟨ts, [], e, (List.append_nil ts).symm, h, .inl rfl⟩
  | succ k ih =>
    cases h with
    | single h =>
      obtain ⟨us, vs, f, rfl, hs, hv⟩ := ih h
      refine ⟨us, vs, f, rfl, hs, ?_⟩
      rcases hv with rfl | ⟨s, ws, g, rfl, hw⟩
      · exact .inl rfl
      · exact .inr ⟨s, ws, g, rfl, .single hw⟩
    | @chain _ ts₁ us₁ _ _ _ h hr =>
      obtain ⟨us, vs, f, rfl, hs, hv⟩ := ih h
      refine ⟨us, vs ++ us₁, f, List.append_assoc _ _ _, hs, .inr ?_⟩
      rcases hv with rfl | ⟨s, ws, g, rfl, hw⟩
      · cases hr with
        | cons _ hl hr => exact ⟨_, _, _, rfl, .run hl hr⟩
      · exact ⟨s, _, _, rfl, .chain hw hr⟩

/-- Behind the first operand of a condition stands nothing, the alternatives, or an operator and a
condition. -/
theorem Condition.exists_first {ts : List Token} {e : Expr} (h : Condition ts e) :
    ∃ us vs f, ts = us ++ vs ∧ Signed us f ∧
      (vs = [] ∨ (∃ ws, vs = .symbol .question :: ws) ∨
        ∃ s ws g, vs = .symbol s :: ws ∧ Condition ws g) := by
  cases h with
  | plain h =>
    obtain ⟨us, vs, f, rfl, hs, hv⟩ := h.exists_first
    refine ⟨us, vs, f, rfl, hs, ?_⟩
    rcases hv with rfl | ⟨s, ws, g, rfl, hw⟩
    · exact .inl rfl
    · exact .inr (.inr ⟨s, ws, g, rfl, .plain hw⟩)
  | choice h h₁ h₂ =>
    obtain ⟨us, vs, f, rfl, hs, hv⟩ := h.exists_first
    refine ⟨us, _, f, List.append_assoc _ _ _, hs, ?_⟩
    rcases hv with rfl | ⟨s, ws, g, rfl, hw⟩
    · exact .inr (.inl ⟨_, rfl⟩)
    · exact .inr (.inr ⟨s, _, _, rfl, .choice hw h₁ h₂⟩)

/-- An operand without a sign stands first in an expression; a plus sign behind it has an expression
behind it. -/
theorem Condition.exists_operand {ts : List Token} {e : Expr} (h : Condition ts e)
    (ht : ∀ s r op, ts = .symbol s :: r → (s, op) ∉ signs) :
    ∃ os target vs, ts = os ++ vs ∧ Operand os target ∧
      ∀ r, vs = .symbol .plus :: r → ∃ g, Condition r g := by
  obtain ⟨us, vs, f, rfl, hs, hv⟩ := h.exists_first
  cases hs with
  | sign hs _ => exact (ht _ _ _ rfl hs).elim
  | @accessed os as target _ ho ha =>
    refine ⟨os, target, as ++ vs, List.append_assoc _ _ _, ho, fun r hr => ?_⟩
    -- a plus sign is no access
    have hr' : vs = .symbol .plus :: r := by
      cases ha with
      | nil => exact hr
      | member => cases hr
      | index => cases hr
    subst hr'
    rcases hv with hv | ⟨ws, hv⟩ | ⟨s, ws, g, hv, hw⟩
    · cases hv
    · cases hv
    · cases hv
      exact ⟨g, hw⟩

/-- Behind a text and a plus sign stands an expression. -/
theorem Condition.of_text {text : String} {r : List Token} {e : Expr}
    (h : Condition (.str text :: .symbol .plus :: r) e) : ∃ g, Condition r g := by
  obtain ⟨os, target, vs, he, ho, hv⟩ := h.exists_operand nofun
  cases ho with
  | constant =>
    cases he
    exact hv _ rfl
  | _ => cases he

/-- Tokens that close no parenthesis in front of them end at the one that closes the matched ones.
-/
theorem append_rParen_inj {ts us r r' : List Token}
    (h : ts ++ .symbol .rParen :: r = us ++ .symbol .rParen :: r') (hu : Matched us)
    (ht : (parensOpen? 0 ts).isSome = true) (hr : (parensOpen? 0 r).isSome = true) :
    ts = us ∧ r = r' := by
  obtain ⟨m, hm⟩ := Option.isSome_iff_exists.1 ht
  rcases List.append_eq_append_iff.1 h with ⟨q, hq, hq'⟩ | ⟨q, hq, hq'⟩
  · cases q with
    | nil =>
      rw [List.append_nil] at hq
      cases hq'
      exact ⟨hq.symm, rfl⟩
    | cons c q =>
      -- the first parenthesis behind `ts` is among the matched ones, so `ts` leaves one open
      cases hq'
      exfalso
      cases m with
      | zero =>
        have hn := hu 0
        rw [hq, parensOpen?_append, hm, Option.bind_some, parensOpen?_rParen_zero] at hn
        cases hn
      | succ m =>
        obtain ⟨n, hn⟩ := Option.isSome_iff_exists.1 hr
        have hw := parensOpen?_add hn m
        have hz : parensOpen? 0 (us ++ .symbol .rParen :: r') = none := by
          rw [parensOpen?_append, hu 0, Option.bind_some, parensOpen?_rParen_zero]
        rw [← h, parensOpen?_append, hm, Option.bind_some, parensOpen?_rParen_succ] at hz
        rw [Nat.zero_add, hz] at hw
        cases hw
  · cases q with
    | nil =>
      rw [List.append_nil] at hq
      cases hq'
      exact ⟨hq, rfl⟩
    | cons c q =>
      cases hq'
      rw [hq, parensOpen?_append, hu 0, Option.bind_some, parensOpen?_rParen_zero] at hm
      cases hm

/-- Tokens between two parentheses that close none in front of them, where those behind do not
either, are an expression, and so is what stands behind a plus sign that follows. -/
theorem Condition.of_parens {ts r : List Token} {e : Expr}
    (h : Condition (.symbol .lParen :: (ts ++ .symbol .rParen :: r)) e)
    (ht : (parensOpen? 0 ts).isSome = true) (hr : (parensOpen? 0 r).isSome = true) :
    (∃ g, Condition ts g) ∧ ∀ r', r = .symbol .plus :: r' → ∃ g, Condition r' g := by
  have hs : ∀ s r' op, Token.symbol .lParen :: (ts ++ .symbol .rParen :: r) = .symbol s :: r' →
      (s, op) ∉ signs := by
    intro s r' op e
    cases e
    simp [signs]
  obtain ⟨os, target, vs, he, ho, hv⟩ := h.exists_operand hs
  cases ho with
  | constant h =>
    cases he
    cases h
  | @parens us _ h =>
    simp only [List.cons_append, List.append_assoc, List.nil_append, List.cons.injEq,
      true_and] at he
    obtain ⟨rfl, rfl⟩ := append_rParen_inj he h.matched ht hr
    exact ⟨⟨_, h⟩, hv⟩
  | _ => cases he

end Grammar

end IndentMarkup
