import IndentMarkup.Expr.Reading
import IndentMarkup.Proofs.Expr.Quoting
import IndentMarkup.Proofs.Expr.Soundness
import IndentMarkup.Proofs.Expr.Spelling

/-!
# Texts that spell tokens

`Spells` relates a text to its tokens without their offsets. Texts are put behind one another
wherever the second begins with a character that ends a token, or where the first is a bracket or a
blank, which nothing behind it can change. A text is read as an expression exactly if it spells
tokens that the grammar allows for the expression, and tokens are allowed for one expression at
most.
-/
namespace IndentMarkup

namespace Lexer

inductive Spells : List Char → List Token → Prop
  | nil : Spells [] []
  | space {c : Char} {s : List Char} {ts : List Token} (hc : isSpace c = true) (h : Spells s ts) :
      Spells (c :: s) ts
  | token {s : List Char} {x : Scanned} {ts : List Token} (hx : token? s = some x)
      (h : Spells x.rest ts) : Spells s (x.token :: ts)

theorem token?_of_isSpace {c : Char} (h : isSpace c = true) (s : List Char) :
    token? (c :: s) = none := by
  simp only [isSpace, Bool.or_eq_true, beq_iff_eq] at h
  rcases h with (((h | h) | h) | h) | h <;> (rw [h]; rfl)

theorem scan_space {c : Char} (h : isSpace c = true) (offset : Nat) (s : List Char) :
    scan offset (c :: s) = scan (offset + c.utf8Size) s := by
  rw [scan, if_pos h]

theorem scan_token {s : List Char} {x : Scanned} (h : token? s = some x) (offset : Nat) :
    scan offset s = (scan (offset + Text.byteCount x.spelling) x.rest).map fun lexemes =>
      ⟨x.token, offset, offset + Text.byteCount x.spelling⟩ :: lexemes := by
  cases s with
  | nil => cases h
  | cons c s =>
    have hc : ¬ isSpace c = true := by
      intro hc
      rw [token?_of_isSpace hc] at h
      cases h
    rw [scan, if_neg hc]
    split
    · next h' =>
      rw [h] at h'
      cases h'
    · next h' =>
      rw [h] at h'
      cases h'
      rfl

theorem Spells.scan {s : List Char} {ts : List Token} (h : Spells s ts) (offset : Nat) :
    ∃ lexemes, scan offset s = .ok lexemes ∧ lexemes.map Lexeme.token = ts := by
  induction h generalizing offset with
  | nil => exact ⟨[], by rw [Lexer.scan], rfl⟩
  | @space c s ts hc h ih =>
    rw [scan_space hc]
    exact ih _
  | @token s x ts hx h ih =>
    obtain ⟨lexemes, hl, ht⟩ := ih (offset + Text.byteCount x.spelling)
    rw [scan_token hx, hl]
    exact ⟨_, rfl, by rw [List.map_cons, ht]⟩

theorem spells_of_scan {s : List Char} {offset : Nat} {lexemes : List Lexeme}
    (h : scan offset s = .ok lexemes) : Spells s (lexemes.map Lexeme.token) := by
  fun_induction scan offset s generalizing lexemes with
  | case1 =>
    cases h
    exact .nil
  | case2 offset c s hc ih => exact .space hc (ih h)
  | case3 => cases h
  | case4 offset c s hc x hx stop =>
    rename_i ih
    cases hr : scan stop x.rest with
    | error e =>
      rw [hr] at h
      cases h
    | ok rest =>
      rw [hr] at h
      cases h
      exact .token hx (ih hr)

theorem Spells.append {s t : List Char} {ts us : List Token} (h : Spells s ts)
    (ht : EndsToken t) (h' : Spells t us) : Spells (s ++ t) (ts ++ us) := by
  induction h with
  | nil => exact h'
  | space hc _ ih => exact .space hc ih
  | @token s x ts hx _ ih => exact .token (x := x.followedBy t) (token?_append ht hx) ih

theorem Spells.word {w : List Char} (h : Text.isIdentifier w = true) :
    Spells w [wordToken w] := by
  have hs : Text.splitIdentifier? w = some (w, []) := by
    have ha := @Text.splitIdentifier?_append w [] h (by simp)
    rwa [List.append_nil] at ha
  have hw : word? w = some ⟨wordToken w, w, []⟩ := by
    rw [word?, hs]
    rfl
  have ht : token? w = some ⟨wordToken w, w, []⟩ := by
    cases w with
    | nil => cases h
    | cons c w => rw [token?, hw]
  exact .token ht .nil

theorem Spells.quote (s : List Char) : Spells (Text.quoteChars s) [.str (String.ofList s)] := by
  have hx := token?_quoteChars s []
  rw [List.append_nil] at hx
  exact .token hx .nil

/-- A symbol that no longer one begins with. -/
theorem token?_symbol (sym : Symbol)
    (h : sym ∈ [Symbol.lParen, .rParen, .lBrace, .rBrace, .comma, .colon, .question, .plus])
    (s : List Char) :
    token? (sym.text.toList ++ s) = some ⟨.symbol sym, sym.text.toList, s⟩ := by
  simp only [List.mem_cons, List.not_mem_nil, or_false] at h
  rcases h with h | h | h | h | h | h | h | h <;> (rw [h]; rfl)

theorem Spells.symbol (sym : Symbol) {s : List Char} {ts : List Token}
    (h : sym ∈ [Symbol.lParen, .rParen, .lBrace, .rBrace, .comma, .colon, .question, .plus])
    (hs : Spells s ts) : Spells (sym.text.toList ++ s) (.symbol sym :: ts) :=
  .token (token?_symbol sym h s) hs

theorem name?_wordToken (w : List Char) : (wordToken w).name? = some (String.ofList w) := by
  unfold wordToken
  split
  · next k hk =>
    have hw : k.text.toList = w := by simpa using List.find?_some hk
    rw [← hw, String.ofList_toList]
    rfl
  · rfl

end Lexer

/-- A text is read as an expression exactly if the tokens it spells are those of the expression. -/
theorem Expr.read_eq_ok_iff {source : String} {e : Expr} :
    Expr.read source = .ok e ↔
      ∃ ts, Lexer.Spells source.toList ts ∧ Grammar.Condition ts e := by
  unfold Expr.read tokenize
  constructor
  · intro h
    cases hl : Lexer.scan 0 source.toList with
    | error offset =>
      rw [hl] at h
      cases h
    | ok lexemes =>
      rw [hl] at h
      refine ⟨lexemes.map Lexeme.token, Lexer.spells_of_scan hl, Grammar.whole_eq_ok_iff.1 ?_⟩
      cases hp : Parser.whole (lexemes.map Lexeme.token) with
      | error rest =>
        simp only [hp] at h
        cases h
      | ok e' =>
        simp only [hp] at h
        cases h
        rfl
  · rintro ⟨ts, hs, hc⟩
    obtain ⟨lexemes, hl, ht⟩ := hs.scan 0
    rw [hl]
    simp only [ht, Grammar.whole_eq_ok_iff.2 hc]

/-- Tokens spell one expression at most. -/
theorem Grammar.Condition.unique {ts : List Token} {e e' : Expr} (h : Condition ts e)
    (h' : Condition ts e') : e = e' := by
  have hr : Parser.whole ts = .ok e := whole_eq_ok_iff.2 h
  have hr' : Parser.whole ts = .ok e' := whole_eq_ok_iff.2 h'
  rw [hr] at hr'
  cases hr'
  rfl

/-- The expressions that are read from a text are those that the grammar derives from its tokens,
and the grammar derives one expression from tokens at most. -/
theorem Expr.read_iff_derives :
    (∀ (source : String) (e : Expr), Expr.read source = .ok e ↔
      ∃ lexemes, tokenize source = .ok lexemes ∧
        Grammar.Condition (lexemes.map Lexeme.token) e) ∧
    (∀ (ts : List Token) (e e' : Expr), Grammar.Condition ts e → Grammar.Condition ts e' →
      e = e') := by
  constructor
  · intro source e
    rw [read_eq_ok_iff]
    constructor
    · rintro ⟨ts, hs, hc⟩
      obtain ⟨lexemes, hl, rfl⟩ := hs.scan 0
      exact ⟨lexemes, hl, hc⟩
    · rintro ⟨lexemes, hl, hc⟩
      exact ⟨_, Lexer.spells_of_scan hl, hc⟩
  · intro ts e e' h h'
    exact h.unique h'

/-- A call with a comma behind its only argument is no mention of a variable. -/
theorem Expr.read_iff_derives_call :
    tokenize "f (x,)" = .ok [⟨.ident "f", 0, 1⟩, ⟨.symbol .lParen, 2, 3⟩, ⟨.ident "x", 3, 4⟩,
        ⟨.symbol .comma, 4, 5⟩, ⟨.symbol .rParen, 5, 6⟩] ∧
      Expr.read "f (x,)" = .ok (.call "f" [.var "x"]) ∧
      ¬ Grammar.Condition [.ident "f", .symbol .lParen, .ident "x", .symbol .comma,
        .symbol .rParen] (.var "f") := by
  have hl : tokenize "f (x,)" = .ok [⟨.ident "f", 0, 1⟩, ⟨.symbol .lParen, 2, 3⟩,
      ⟨.ident "x", 3, 4⟩, ⟨.symbol .comma, 4, 5⟩, ⟨.symbol .rParen, 5, 6⟩] := by
    rw [tokenize, show "f (x,)".toList = ['f', ' ', '(', 'x', ',', ')'] from rfl,
      Lexer.scan_token (x := ⟨.ident "f", ['f'], [' ', '(', 'x', ',', ')']⟩) rfl,
      Lexer.scan_space rfl, Lexer.scan_token (x := ⟨.symbol .lParen, ['('], ['x', ',', ')']⟩) rfl,
      Lexer.scan_token (x := ⟨.ident "x", ['x'], [',', ')']⟩) rfl,
      Lexer.scan_token (x := ⟨.symbol .comma, [','], [')']⟩) rfl,
      Lexer.scan_token (x := ⟨.symbol .rParen, [')'], []⟩) rfl, Lexer.scan]
    rfl
  have hx : Grammar.Condition [.ident "x"] (.var "x") := .of_operand .var
  have hf : Grammar.Condition [.ident "f", .symbol .lParen, .ident "x", .symbol .comma,
      .symbol .rParen] (.call "f" [.var "x"]) := .of_operand (.call (.cons hx .nil))
  refine ⟨hl, (read_iff_derives.1 _ _).2 ⟨_, hl, hf⟩, ?_⟩
  intro hv
  cases read_iff_derives.2 _ _ _ hf hv

end IndentMarkup
