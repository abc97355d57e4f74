import IndentMarkup.Expr.Lexer
import IndentMarkup.Text.Quoted

/-!
# Quoted texts as tokens

A text that was put between quotes is one token that stands for the text, whatever it holds and
whatever follows the closing quote.
-/
namespace IndentMarkup

namespace Lexer

theorem decodeCode?_control {n : Nat} (h : n < 0x20) :
    decodeCode? '0' '0' (Text.hexDigit (n / 16)) (Text.hexDigit (n % 16)) =
      some (Char.ofNat n) := by
  revert n
  decide

theorem decode?_cons {c : Char} (h : c ≠ '\\') (s : List Char) :
    decode? (c :: s) = (decode? s).map (c :: ·) := by
  rw [decode?]
  · exact fun a b c d s e _ => h e
  · exact fun d s e _ => h e
  · exact fun e _ => h e

theorem decode?_backslash {c : Char} (h : c ≠ 'u') (s : List Char) :
    decode? ('\\' :: c :: s) = (decode? s).map (escaped c :: ·) := by
  rw [decode?]
  · exact if_neg h
  · exact fun a b c d s e _ => h e

theorem decode?_code (a b c d : Char) (s : List Char) :
    decode? ('\\' :: 'u' :: a :: b :: c :: d :: s) =
      (decodeCode? a b c d).bind fun x => (decode? s).map (x :: ·) := by
  rw [decode?]
  cases decodeCode? a b c d with
  | none => rfl
  | some x => cases decode? s <;> rfl

theorem decode?_escapeQuoted (c : Char) (s : List Char) :
    decode? (Text.escapeQuoted c ++ s) = (decode? s).map (c :: ·) := by
  unfold Text.escapeQuoted
  split
  · next h => rw [h]; exact decode?_backslash (by decide) s
  split
  · next h => rw [h]; exact decode?_backslash (by decide) s
  split
  · next h => rw [h]; exact decode?_backslash (by decide) s
  split
  · next h => rw [h]; exact decode?_backslash (by decide) s
  split
  · next h => rw [h]; exact decode?_backslash (by decide) s
  split
  · next h => rw [h]; exact decode?_backslash (by decide) s
  split
  · next h => rw [h]; exact decode?_backslash (by decide) s
  split
  · next h =>
    have hc := decodeCode?_control h
    rw [Char.ofNat_toNat] at hc
    rw [List.cons_append, List.cons_append, List.cons_append, List.cons_append, List.cons_append,
      List.cons_append, List.nil_append, decode?_code, hc, Option.bind_some]
  · next h _ _ _ _ _ _ => exact decode?_cons h s

theorem decode?_escapeAll (s : List Char) : decode? (Text.escapeAll s) = some s := by
  induction s with
  | nil => rfl
  | cons c s ih => rw [Text.escapeAll_cons, decode?_escapeQuoted, ih, Option.map_some]

theorem splitQuoted?_cons {c : Char} (hq : c ≠ '"') (hb : c ≠ '\\') (s : List Char) :
    splitQuoted? '"' (c :: s) = (splitQuoted? '"' s).map fun p => (c :: p.1, p.2) := by
  rw [splitQuoted?.eq_def]
  simp [hq, hb]

theorem splitQuoted?_backslash {c : Char} (hc : c ≠ '\n') (s : List Char) :
    splitQuoted? '"' ('\\' :: c :: s) =
      (splitQuoted? '"' s).map fun p => ('\\' :: c :: p.1, p.2) := by
  rw [splitQuoted?.eq_def]
  simp [hc]

/-- An escaped character does not close the quotes. -/
theorem splitQuoted?_escapeQuoted (c : Char) (s : List Char) :
    splitQuoted? '"' (Text.escapeQuoted c ++ s) =
      (splitQuoted? '"' s).map fun p => (Text.escapeQuoted c ++ p.1, p.2) := by
  unfold Text.escapeQuoted
  split
  · exact splitQuoted?_backslash (by decide) s
  split
  · exact splitQuoted?_backslash (by decide) s
  split
  · exact splitQuoted?_backslash (by decide) s
  split
  · exact splitQuoted?_backslash (by decide) s
  split
  · exact splitQuoted?_backslash (by decide) s
  split
  · exact splitQuoted?_backslash (by decide) s
  split
  · exact splitQuoted?_backslash (by decide) s
  split
  · next h =>
    -- the four digits behind the letter stand for themselves
    have hd : ∀ n, n < 16 → Text.hexDigit n ≠ '"' ∧ Text.hexDigit n ≠ '\\' := by decide
    have h₁ := hd (c.toNat / 16) (by omega)
    have h₂ := hd (c.toNat % 16) (by omega)
    simp only [List.cons_append, List.nil_append]
    rw [splitQuoted?_backslash (by decide), splitQuoted?_cons (by decide) (by decide),
      splitQuoted?_cons (by decide) (by decide), splitQuoted?_cons h₁.1 h₁.2,
      splitQuoted?_cons h₂.1 h₂.2]
    cases splitQuoted? '"' s <;> rfl
  · next hq hb _ _ _ _ _ _ => exact splitQuoted?_cons hq hb s

theorem splitQuoted?_escapeAll (s t : List Char) :
    splitQuoted? '"' (Text.escapeAll s ++ '"' :: t) = some (Text.escapeAll s, t) := by
  induction s with
  | nil =>
    rw [Text.escapeAll_nil, List.nil_append, splitQuoted?.eq_def]
    exact if_pos rfl
  | cons c s ih =>
    rw [Text.escapeAll_cons, List.append_assoc, splitQuoted?_escapeQuoted, ih, Option.map_some]

/-- A quoted text is one token, which stands for the text. -/
theorem token?_quoteChars (s t : List Char) :
    token? (Text.quoteChars s ++ t) =
      some ⟨.str (String.ofList s), Text.quoteChars s, t⟩ := by
  have hq : quoted? (Text.quoteChars s ++ t) =
      some ⟨.str (String.ofList s), Text.quoteChars s, t⟩ := by
    rw [Text.quoteChars, List.cons_append, List.append_assoc, List.singleton_append, quoted?,
      if_pos (Or.inl rfl), splitQuoted?_escapeAll, Option.bind_some, decode?_escapeAll]
    rfl
  have hw : word? (Text.quoteChars s ++ t) = none := rfl
  have hn : number? (Text.quoteChars s ++ t) = none := rfl
  rw [token?, hw, hn, hq]

end Lexer

end IndentMarkup
