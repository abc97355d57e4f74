import IndentMarkup.Proofs.Expr.Completeness

/-!
# What is read the grammar derives

Whatever the reader of expressions finds is derived by the grammar from the tokens that were used
up. The induction is on the number of tokens, with the measure by which the readers come to an end.
Together with the other direction, tokens are read as an expression as a whole exactly when the
grammar derives it from them.
-/
namespace IndentMarkup

namespace Grammar

open IndentMarkup.Parser

theorem bind_eq_ok {ε α β : Type} {x : Except ε α} {f : α → Except ε β} {b : β}
    (h : (x >>= f) = .ok b) : ∃ a, x = .ok a ∧ f a = .ok b := by
  cases x with
  | error e => cases h
  | ok a => exact ⟨a, rfl, h⟩

theorem bind_pair_eq_ok {ε α β γ : Type} {x : Except ε (α × β)} {f : α × β → Except ε γ} {c : γ}
    (h : (x >>= f) = .ok c) : ∃ a b, x = .ok (a, b) ∧ f (a, b) = .ok c := by
  obtain ⟨⟨a, b⟩, hx, hf⟩ := bind_eq_ok h
  exact ⟨a, b, hx, hf⟩

theorem after_bind_eq_ok {β : Type} {t : Token} {ts : List Token}
    {f : List Token → Except (List Token) β} {b : β} (h : (after t ts >>= f) = .ok b) :
    ∃ r, ts = t :: r ∧ f r = .ok b := by
  obtain ⟨r, hr, hf⟩ := bind_eq_ok h
  exact ⟨r, after_eq_ok hr, hf⟩

theorem eq_cons_of_found_name {ts r : List Token} {n : String}
    (h : Parser.found (name ts) = .ok (n, r)) : ∃ t, ts = t :: r ∧ t.name? = some n := by
  cases ts with
  | nil => cases h
  | cons t us =>
    rw [name] at h
    split at h
    · next hn =>
      cases h
      exact ⟨t, rfl, hn⟩
    · cases h

theorem eq_cons_of_found_key {ts r : List Token} {k : String}
    (h : Parser.found (key ts) = .ok (k, r)) : ∃ t, ts = t :: r ∧ t.key? = some k := by
  cases ts with
  | nil => cases h
  | cons t us =>
    rw [key] at h
    split at h
    · next hk =>
      cases h
      exact ⟨t, rfl, hk⟩
    · cases h

theorem eq_cons_of_operator? {k : Nat} {ts r : List Token} {op : BinaryOp}
    (h : operator? k ts = some (op, r)) :
    ∃ s : Symbol, ts = .symbol s :: r ∧ s.binaryOp? = some op ∧ op.level = k := by
  unfold operator? at h
  split at h
  · next s r' =>
    split at h
    · next hs =>
      split at h
      · next hl =>
        cases h
        exact ⟨s, rfl, hs, hl⟩
      · cases h
    · cases h
  · cases h

theorem bindings_of_found {ts us r : List Token} {item : String} {position : Option String}
    (h : Parser.found (name ts) = .ok (item, us))
    (h' : foundAny (indexName us) = .ok (position, r)) :
    ∃ bs, ts = bs ++ r ∧ Bindings bs item position := by
  obtain ⟨t, rfl, ht⟩ := eq_cons_of_found_name h
  by_cases hc : ∃ vs, us = .symbol .comma :: vs
  · obtain ⟨vs, rfl⟩ := hc
    rw [foundAny_indexName_comma] at h'
    obtain ⟨⟨n, ws⟩, hn, h'⟩ := bind_eq_ok h'
    cases h'
    obtain ⟨u, rfl, hu⟩ := eq_cons_of_found_name hn
    exact ⟨[t, .symbol .comma, u], rfl, .two (name_iff.2 ht) (name_iff.2 hu)⟩
  · rw [foundAny_indexName_of_ne fun vs e => hc ⟨vs, e⟩] at h'
    cases h'
    exact ⟨[t], rfl, .one (name_iff.2 ht)⟩

mutual

theorem condition_of_found {ts r : List Token} {e : Expr}
    (h : Parser.found (condition ts) = .ok (e, r)) : ∃ us, ts = us ++ r ∧ Condition us e := by
  rw [found_condition] at h
  obtain ⟨test, r₁, h₁, hk⟩ := bind_pair_eq_ok h
  have l₁ := length_of_found h₁
  obtain ⟨us, e₁, hl⟩ := level_of_found h₁
  dsimp only at hk
  split at hk
  · next r₂ =>
    obtain ⟨whenTrue, r₃, h₃, hk⟩ := bind_pair_eq_ok hk
    obtain ⟨r₄, (e₄ : r₃ = _), hk⟩ := after_bind_eq_ok hk
    obtain ⟨whenFalse, r₅, h₅, hk⟩ := bind_pair_eq_ok hk
    cases hk
    have l₃ := length_of_found h₃
    have l₄ : r₃.length = r₄.length + 1 := by rw [e₄, List.length_cons]
    rw [List.length_cons] at l₁
    obtain ⟨vs, e₃, ht⟩ := condition_of_found h₃
    obtain ⟨ws, e₅, hf⟩ := condition_of_found h₅
    refine ⟨us ++ .symbol .question :: (vs ++ .symbol .colon :: ws), ?_, .choice hl ht hf⟩
    rw [e₁, e₃, e₄, e₅]
    simp
  · cases hk
    exact ⟨us, e₁, .plain hl⟩
termination_by 16 * ts.length + 12
decreasing_by all_goals (try simp only [List.length_cons] at *); omega

theorem level_of_found {k : Nat} {ts r : List Token} {e : Expr}
    (h : Parser.found (level k ts) = .ok (e, r)) : ∃ us, ts = us ++ r ∧ Level k us e := by
  match k with
  | 0 =>
    rw [found_level_zero] at h
    obtain ⟨us, e₁, hs⟩ := signed_of_found h
    exact ⟨us, e₁, .signed hs⟩
  | k + 1 =>
    rw [found_level_succ] at h
    obtain ⟨first, r₁, h₁, hk⟩ := bind_pair_eq_ok h
    obtain ⟨rest, r₂, h₂, hk⟩ := bind_pair_eq_ok hk
    cases hk
    have l₁ := length_of_found h₁
    obtain ⟨us, e₁, hl⟩ := level_of_found h₁
    obtain ⟨vs, e₂, ho⟩ := operands_of_found h₂
    refine ⟨us ++ vs, ?_, .run hl ho⟩
    rw [List.append_assoc, ← e₂]
    exact e₁
termination_by 16 * ts.length + 2 + k
decreasing_by all_goals omega

theorem operands_of_found {k : Nat} {ts r : List Token} {rest : List (BinaryOp × Expr)}
    (h : foundAny (operands k ts) = .ok (rest, r)) : ∃ us, ts = us ++ r ∧ Operands k us rest := by
  match ho : operator? (k + 1) ts with
  | none =>
    rw [foundAny_operands_none ho] at h
    cases h
    exact ⟨[], rfl, .nil⟩
  | some (op, r₁) =>
    rw [foundAny_operands_some ho] at h
    obtain ⟨e, r₂, h₂, hk⟩ := bind_pair_eq_ok h
    obtain ⟨es, r₃, h₃, hk⟩ := bind_pair_eq_ok hk
    cases hk
    have l₁ := length_operator? ho
    have l₂ := length_of_found h₂
    obtain ⟨s, e₁, hs, hl⟩ := eq_cons_of_operator? ho
    obtain ⟨us, e₂, he⟩ := level_of_found h₂
    obtain ⟨vs, e₃, hes⟩ := operands_of_found h₃
    refine ⟨.symbol s :: (us ++ vs), ?_, .cons (mem_operators_iff.2 ⟨hs, hl⟩) he hes⟩
    rw [e₁, e₂, List.cons_append, List.append_assoc, ← e₃]
termination_by 16 * ts.length
decreasing_by all_goals omega

theorem signed_of_found {ts r : List Token} {e : Expr}
    (h : Parser.found (signed ts) = .ok (e, r)) : ∃ us, ts = us ++ r ∧ Signed us e := by
  by_cases hb : ∃ vs, ts = .symbol .bang :: vs
  · obtain ⟨vs, rfl⟩ := hb
    rw [found_signed_bang] at h
    obtain ⟨e', r', h₁, hk⟩ := bind_pair_eq_ok h
    cases hk
    obtain ⟨us, e₁, hs⟩ := signed_of_found h₁
    exact ⟨.symbol .bang :: us, by rw [e₁]; rfl, .sign (mem_signs_iff.2 rfl) hs⟩
  · by_cases hm : ∃ vs, ts = .symbol .minus :: vs
    · obtain ⟨vs, rfl⟩ := hm
      rw [found_signed_minus] at h
      obtain ⟨e', r', h₁, hk⟩ := bind_pair_eq_ok h
      cases hk
      obtain ⟨us, e₁, hs⟩ := signed_of_found h₁
      exact ⟨.symbol .minus :: us, by rw [e₁]; rfl, .sign (mem_signs_iff.2 rfl) hs⟩
    · rw [found_signed_of_ne (fun vs e => hb ⟨vs, e⟩) fun vs e => hm ⟨vs, e⟩] at h
      obtain ⟨target, r₁, h₁, hk⟩ := bind_pair_eq_ok h
      have l₁ := length_of_found h₁
      obtain ⟨us, e₁, ho⟩ := operand_of_found h₁
      obtain ⟨vs, e₂, ha⟩ := accesses_of_found hk
      refine ⟨us ++ vs, ?_, .accessed ho ha⟩
      rw [List.append_assoc, ← e₂]
      exact e₁
termination_by 16 * ts.length + 1
decreasing_by all_goals (try subst ts); (try simp only [List.length_cons]); omega

theorem accesses_of_found {target e : Expr} {ts r : List Token}
    (h : foundAny (accesses target ts) = .ok (e, r)) :
    ∃ us, ts = us ++ r ∧ Accesses target us e := by
  by_cases hd : ∃ vs, ts = .symbol .dot :: vs
  · obtain ⟨vs, e₀⟩ := hd
    have l₀ : ts.length = vs.length + 1 := by rw [e₀, List.length_cons]
    rw [e₀, foundAny_accesses_dot] at h
    obtain ⟨n, r₁, h₁, hk⟩ := bind_pair_eq_ok h
    have l₁ := length_of_found h₁
    obtain ⟨t, e₁, ht⟩ := eq_cons_of_found_name h₁
    obtain ⟨us, e₂, ha⟩ := accesses_of_found hk
    refine ⟨.symbol .dot :: t :: us, ?_, .member (name_iff.2 ht) ha⟩
    rw [e₀, e₁, List.cons_append, List.cons_append, ← e₂]
  · by_cases hb : ∃ vs, ts = .symbol .lBracket :: vs
    · obtain ⟨vs, e₀⟩ := hb
      have l₀ : ts.length = vs.length + 1 := by rw [e₀, List.length_cons]
      rw [e₀, foundAny_accesses_bracket] at h
      obtain ⟨position, r₁, h₁, hk⟩ := bind_pair_eq_ok h
      obtain ⟨r₂, (e₂ : r₁ = _), hk⟩ := after_bind_eq_ok hk
      have l₁ := length_of_found h₁
      have l₂ : r₁.length = r₂.length + 1 := by rw [e₂, List.length_cons]
      obtain ⟨us, e₁, hp⟩ := condition_of_found h₁
      obtain ⟨ws, e₃, ha⟩ := accesses_of_found hk
      refine ⟨.symbol .lBracket :: (us ++ .symbol .rBracket :: ws), ?_, .index hp ha⟩
      rw [e₀, e₁, e₂, e₃]
      simp
    · rw [foundAny_accesses_of_ne target (fun vs e => hd ⟨vs, e⟩) fun vs e => hb ⟨vs, e⟩] at h
      cases h
      exact ⟨[], rfl, .nil⟩
termination_by 16 * ts.length
decreasing_by all_goals omega

theorem loop_of_found {ts r : List Token} {e : Expr}
    (h : Parser.found (operand (.keyword .loop :: ts)) = .ok (e, r)) :
    ∃ us, .keyword .loop :: ts = us ++ r ∧ Operand us e := by
  rw [found_operand_loop] at h
  obtain ⟨r₁, e₁, hk⟩ := after_bind_eq_ok h
  obtain ⟨item, r₂, h₂, hk⟩ := bind_pair_eq_ok hk
  obtain ⟨position, r₃, h₃, hk⟩ := bind_pair_eq_ok hk
  obtain ⟨r₄, (e₃ : r₃ = _), hk⟩ := after_bind_eq_ok hk
  obtain ⟨source, r₅, h₅, hk⟩ := bind_pair_eq_ok hk
  obtain ⟨r₆, (e₅ : r₅ = _), hk⟩ := after_bind_eq_ok hk
  obtain ⟨r₇, e₆, hk⟩ := after_bind_eq_ok hk
  obtain ⟨body, r₈, h₈, hk⟩ := bind_pair_eq_ok hk
  obtain ⟨r₉, (e₈ : r₈ = _), hk⟩ := after_bind_eq_ok hk
  cases hk
  obtain ⟨bs, e₂, hb⟩ := bindings_of_found h₂ h₃
  have l₁ : ts.length = bs.length + r₄.length + 2 := by
    rw [e₁, e₂, e₃, List.length_cons, List.length_append, List.length_cons]
    omega
  have l₅ := length_of_found h₅
  have l₇ : r₅.length = r₇.length + 2 := by rw [e₅, e₆, List.length_cons, List.length_cons]
  obtain ⟨vs, e₄, hs⟩ := condition_of_found h₅
  obtain ⟨ws, e₇, hw⟩ := condition_of_found h₈
  refine ⟨_, ?_, .loop hb hs hw⟩
  rw [e₁, e₂, e₃, e₄, e₅, e₆, e₇, e₈]
  simp
termination_by 16 * ts.length + 15
decreasing_by all_goals omega

theorem named_of_found {n : String} {ts r : List Token} {e : Expr}
    (h : Parser.found (operand (.ident n :: ts)) = .ok (e, r)) :
    ∃ us, .ident n :: ts = us ++ r ∧ Operand us e := by
  by_cases hp : ∃ vs, ts = .symbol .lParen :: vs
  · obtain ⟨vs, e₀⟩ := hp
    have l₀ : ts.length = vs.length + 1 := by rw [e₀, List.length_cons]
    rw [e₀, found_operand_call] at h
    split at h
    · next p hi =>
      cases h
      obtain ⟨ws, e₁, ha⟩ := @items_of_found .rParen _ p.2 p.1 hi
      refine ⟨_, ?_, .call ha⟩
      rw [e₀, e₁]
      simp
    · cases h
  · rw [found_operand_var n fun vs e => hp ⟨vs, e⟩] at h
    cases h
    exact ⟨[.ident n], rfl, .var⟩
termination_by 16 * ts.length + 15
decreasing_by all_goals omega

theorem bracketed_of_found {s : Symbol} {ts r : List Token} {e : Expr}
    (h : Parser.found (operand (.symbol s :: ts)) = .ok (e, r)) :
    ∃ us, .symbol s :: ts = us ++ r ∧ Operand us e := by
  by_cases ha : s = .lBracket
  · rw [ha, found_operand_array] at h
    obtain ⟨es, r₁, h₁, hk⟩ := bind_pair_eq_ok h
    cases hk
    obtain ⟨ws, e₁, he⟩ := items_of_found h₁
    refine ⟨_, ?_, .array he⟩
    rw [ha, e₁]
    simp
  by_cases ho : s = .lBrace
  · rw [ho, found_operand_object] at h
    obtain ⟨fields, r₁, h₁, hk⟩ := bind_pair_eq_ok h
    cases hk
    obtain ⟨ws, e₁, he⟩ := entries_of_found h₁
    refine ⟨_, ?_, .object he⟩
    rw [ho, e₁]
    simp
  by_cases hp : s = .lParen
  · rw [hp, found_operand_parens] at h
    obtain ⟨e', r₁, h₁, hk⟩ := bind_pair_eq_ok h
    obtain ⟨r₂, (e₁ : r₁ = _), hk⟩ := after_bind_eq_ok hk
    cases hk
    obtain ⟨ws, e₀, he⟩ := condition_of_found h₁
    refine ⟨_, ?_, .parens he⟩
    rw [hp, e₀, e₁]
    simp
  · rw [operand] at h
    · cases h
    all_goals simp_all
termination_by 16 * ts.length + 15
decreasing_by all_goals omega

theorem operand_of_found {ts r : List Token} {e : Expr}
    (h : Parser.found (operand ts) = .ok (e, r)) : ∃ us, ts = us ++ r ∧ Operand us e := by
  match ts with
  | .keyword .loop :: us => exact loop_of_found h
  | .ident n :: us => exact named_of_found h
  | .symbol s :: us => exact bracketed_of_found h
  | [] =>
    rw [operand] at h
    · cases h
    all_goals nofun
  | .keyword .within :: us =>
    rw [operand] at h
    · cases h
    all_goals nofun
  | .keyword .true :: us | .keyword .false :: us | .keyword .null :: us
  | .keyword .undefined :: us | .number _ :: us | .str _ :: us =>
    rw [found_operand_constant rfl] at h
    cases h
    exact ⟨_, rfl, .constant rfl⟩
termination_by 16 * ts.length
decreasing_by all_goals (try simp only [List.length_cons]); omega

theorem items_of_found {close : Symbol} {ts r : List Token} {es : List Expr}
    (h : Parser.found (items close ts) = .ok (es, r)) :
    ∃ us, ts = us ++ .symbol close :: r ∧ Items us es := by
  by_cases hc : ∃ vs, ts = .symbol close :: vs
  · obtain ⟨vs, rfl⟩ := hc
    rw [found_items_close] at h
    cases h
    exact ⟨[], rfl, .nil⟩
  · rw [found_items_of_ne fun vs e => hc ⟨vs, e⟩] at h
    obtain ⟨e, r₁, h₁, hk⟩ := bind_pair_eq_ok h
    have l₁ := length_of_found h₁
    obtain ⟨us, e₁, he⟩ := condition_of_found h₁
    dsimp only at hk
    split at hk
    · next r₂ =>
      obtain ⟨rest, r₃, h₃, hk⟩ := bind_pair_eq_ok hk
      cases hk
      obtain ⟨vs, e₃, hr⟩ := items_of_found h₃
      refine ⟨us ++ .symbol .comma :: vs, ?_, .cons he hr⟩
      rw [e₁, e₃]
      simp
    · obtain ⟨r₂, e₂, hk⟩ := after_bind_eq_ok hk
      cases hk
      refine ⟨us, ?_, .last he⟩
      rw [e₁, e₂]
termination_by 16 * ts.length + 13
decreasing_by all_goals (try simp only [List.length_cons] at *); omega

theorem entries_of_found {ts r : List Token} {fields : List (String × Expr)}
    (h : Parser.found (entries ts) = .ok (fields, r)) :
    ∃ us, ts = us ++ .symbol .rBrace :: r ∧ Entries us fields := by
  by_cases hc : ∃ vs, ts = .symbol .rBrace :: vs
  · obtain ⟨vs, rfl⟩ := hc
    rw [found_entries_close] at h
    cases h
    exact ⟨[], rfl, .nil⟩
  · rw [found_entries_of_ne fun vs e => hc ⟨vs, e⟩] at h
    obtain ⟨k, r₁, h₁, hk⟩ := bind_pair_eq_ok h
    obtain ⟨r₂, (e₂ : r₁ = _), hk⟩ := after_bind_eq_ok hk
    obtain ⟨e, r₃, h₃, hk⟩ := bind_pair_eq_ok hk
    obtain ⟨t, e₁, ht⟩ := eq_cons_of_found_key h₁
    have l₂ : ts.length = r₂.length + 2 := by rw [e₁, e₂]; rfl
    have l₃ := length_of_found h₃
    obtain ⟨us, e₃, he⟩ := condition_of_found h₃
    dsimp only at hk
    split at hk
    · next r₄ =>
      obtain ⟨rest, r₅, h₅, hk⟩ := bind_pair_eq_ok hk
      cases hk
      obtain ⟨vs, e₅, hr⟩ := entries_of_found h₅
      refine ⟨t :: .symbol .colon :: (us ++ .symbol .comma :: vs), ?_, .cons (key_iff.2 ht) he hr⟩
      rw [e₁, e₂, e₃, e₅]
      simp
    · obtain ⟨r₄, e₄, hk⟩ := after_bind_eq_ok hk
      cases hk
      refine ⟨t :: .symbol .colon :: us, ?_, .last (key_iff.2 ht) he⟩
      rw [e₁, e₂, e₃, e₄]
      rfl
termination_by 16 * ts.length
decreasing_by all_goals (try simp only [List.length_cons] at *); omega

end

/-- Tokens are read as an expression as a whole exactly when the grammar derives it. -/
theorem whole_eq_ok_iff {ts : List Token} {e : Expr} :
    Parser.whole ts = .ok e ↔ Condition ts e := by
  rw [whole_eq]
  constructor
  · intro h
    obtain ⟨e', r, hf, hk⟩ := bind_pair_eq_ok h
    dsimp only at hk
    split at hk
    · next hr =>
      cases hk
      obtain ⟨us, e₁, hc⟩ := condition_of_found hf
      rw [List.isEmpty_iff.1 hr, List.append_nil] at e₁
      rw [e₁]
      exact hc
    · cases hk
  · intro h
    have hf := h.found [] (stops_nil 7)
    rw [List.append_nil] at hf
    rw [hf]
    rfl

end Grammar

end IndentMarkup
