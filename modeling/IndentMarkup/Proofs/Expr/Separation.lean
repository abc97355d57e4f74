import IndentMarkup.Proofs.Expr.Partition

/-!
# Blanks and brackets

A blank keeps tokens apart. The last token in front of it ends there, whatever stands behind, since
no token goes on with a blank unless it has an open quote, and what has tokens leaves none open. So
two texts with blanks between them have the tokens of the first and then those of the second, and
where the second has none, reading stops at the same place of it. Only the offsets move, by what
stands in front.

A closing bracket, a comma or a colon keeps expressions apart in the same way. So an expression is
the same one between parentheses and as an argument, whatever its text holds.
-/
namespace IndentMarkup

/-- The lexeme when as many more bytes stand in front of its text. -/
def Lexeme.shift (n : Nat) (l : Lexeme) : Lexeme := ⟨l.token, l.start + n, l.stop + n⟩

namespace Lexer

/-! ### Blanks between texts -/

/-- The tokens of a text, or the offset where none begins, when as many more bytes stand in front of
the text. -/
def shifted (n : Nat) : Except Nat (List Lexeme) → Except Nat (List Lexeme)
  | .ok lexemes => .ok (lexemes.map (.shift n))
  | .error offset => .error (offset + n)

/-- The tokens of a text do not depend on where it stands. -/
theorem scan_add (offset n : Nat) (s : List Char) :
    scan (offset + n) s = shifted n (scan offset s) := by
  fun_induction scan offset s with
  | case1 => rw [scan, shifted, List.map_nil]
  | case2 offset c s hc ih => rw [scan_space hc, Nat.add_right_comm, ih]
  | case3 offset c s hc hn =>
    rw [scan, if_neg hc]
    split
    · rfl
    · next h =>
      rw [hn] at h
      cases h
  | case4 offset c s hc x hx stop =>
    rename_i ih
    rw [scan_token hx, Nat.add_right_comm, ih]
    cases scan stop x.rest <;> rfl

theorem ends_of_isSpace {c : Char} (h : isSpace c = true) : ends c = true := by
  simp only [isSpace_iff, List.mem_cons, List.not_mem_nil, or_false] at h
  rcases h with rfl | rfl | rfl | rfl | rfl <;> rfl

theorem utf8Size_of_isSpace {c : Char} (h : isSpace c = true) : c.utf8Size = 1 := by
  simp only [isSpace_iff, List.mem_cons, List.not_mem_nil, or_false] at h
  rcases h with rfl | rfl | rfl | rfl | rfl <;> rfl

theorem scan_spaces {w : List Char} (hw : ∀ c ∈ w, isSpace c = true) (offset : Nat)
    (s : List Char) : scan offset (w ++ s) = scan (offset + w.length) s := by
  induction w generalizing offset with
  | nil => rfl
  | cons c w ih =>
    rw [List.forall_mem_cons] at hw
    rw [List.cons_append, scan_space hw.1, utf8Size_of_isSpace hw.1, ih hw.2, List.length_cons,
      Nat.add_assoc, Nat.add_comm 1]

/-- Behind a text with tokens, reading goes on with what follows, if tokens end where this begins.
-/
theorem Lexed.scan_append {offset : Nat} {s t : List Char} {lexemes : List Lexeme}
    (h : Lexed offset s lexemes) (ht : EndsToken t) :
    scan offset (s ++ t) = (scan (offset + Text.byteCount s) t).map (lexemes ++ ·) := by
  induction h with
  | nil =>
    rw [List.nil_append, Text.byteCount, Nat.add_zero]
    cases scan _ t <;> rfl
  | @space offset c s lexemes hc _ ih =>
    rw [List.cons_append, scan_space hc, ih, Text.byteCount, Nat.add_assoc]
  | @token offset s x lexemes hx _ ih =>
    have happ := (splits_token? hx).2
    rw [scan_token (token?_append ht hx)]
    dsimp only [Scanned.followedBy]
    rw [ih, ← happ, Text.byteCount_append, Nat.add_assoc]
    cases scan _ t <;> rfl

/-- Tokens in front and a move of the offsets make no error and hide none. -/
theorem map_shifted_eq_error_iff {n offset : Nat} {lexemes : List Lexeme}
    {x : Except Nat (List Lexeme)} :
    (shifted n x).map (lexemes ++ ·) = .error offset ↔ ∃ m, x = .error m ∧ offset = m + n := by
  cases x with
  | ok others => simp [shifted, Except.map]
  | error m => simp [shifted, Except.map, eq_comm]

end Lexer

open Lexer in
/-- Where blanks stand between two texts of which the first has tokens, the tokens are those of the
first and then those of the second, moved by the bytes in front of it. There are none exactly if the
second has none, and then reading stops at the same place of it. -/
theorem tokenize_append_blanks {a blanks : String} {lexemes : List Lexeme}
    (ha : tokenize a = .ok lexemes) (hne : blanks ≠ "")
    (hb : ∀ c ∈ blanks.toList, c ∈ [' ', '\t', '\r', '\n', '\x0c']) (b : String) :
    (∀ others, tokenize b = .ok others →
      tokenize (a ++ blanks ++ b) = .ok (lexemes ++
        others.map (.shift (Text.byteCount a.toList + blanks.length)))) ∧
    ∀ offset, tokenize (a ++ blanks ++ b) = .error offset ↔
      ∃ n, tokenize b = .error n ∧ offset = n + (Text.byteCount a.toList + blanks.length) := by
  have hw : ∀ c ∈ blanks.toList, isSpace c = true := fun c hc => isSpace_iff.2 (hb c hc)
  have hends : EndsToken (blanks.toList ++ b.toList) := by
    cases hl : blanks.toList with
    | nil => exact (hne (String.toList_eq_nil_iff.1 hl)).elim
    | cons c w => exact endsToken_cons (ends_of_isSpace (hw c (by simp [hl]))) _
  have hscan : tokenize (a ++ blanks ++ b) =
      (shifted (Text.byteCount a.toList + blanks.length) (tokenize b)).map (lexemes ++ ·) := by
    rw [tokenize, String.toList_append, String.toList_append, List.append_assoc,
      (lexed_of_scan ha).scan_append hends, scan_spaces hw, String.length_toList, Nat.add_assoc,
      scan_add, ← tokenize]
  refine ⟨fun others h => ?_, fun offset => ?_⟩
  · rw [hscan, h]
    rfl
  · rw [hscan]
    exact map_shifted_eq_error_iff

/-- A letter and a digit that would be an exponent together, and an open quote behind a symbol that
would go on. -/
theorem tokenize_append_blanks_exponent :
    (tokenize "2e" = .ok [⟨.number "2", 0, 1⟩, ⟨.ident "e", 1, 2⟩] ∧
      tokenize "5 in" = .ok [⟨.number "5", 0, 1⟩, ⟨.keyword .within, 2, 4⟩] ∧
      tokenize ("2e" ++ " " ++ "5 in") = .ok [⟨.number "2", 0, 1⟩, ⟨.ident "e", 1, 2⟩,
        ⟨.number "5", 3, 4⟩, ⟨.keyword .within, 5, 7⟩]) ∧
    tokenize "x !" = .ok [⟨.ident "x", 0, 1⟩, ⟨.symbol .bang, 2, 3⟩] ∧
      tokenize "== '\t" = .error 3 ∧ tokenize ("x !" ++ "\n\t" ++ "== '\t") = .error 8 := by
  have ha : tokenize "2e" = .ok [⟨.number "2", 0, 1⟩, ⟨.ident "e", 1, 2⟩] := by decide +kernel
  have hb : tokenize "5 in" = .ok [⟨.number "5", 0, 1⟩, ⟨.keyword .within, 2, 4⟩] := by decide +kernel
  have ha' : tokenize "x !" = .ok [⟨.ident "x", 0, 1⟩, ⟨.symbol .bang, 2, 3⟩] := by decide +kernel
  have hb' : tokenize "== '\t" = .error 3 := by decide +kernel
  exact ⟨⟨ha, hb, (tokenize_append_blanks ha (by decide) (by simp) "5 in").1 _ hb⟩, ha', hb',
    ((tokenize_append_blanks ha' (by decide) (by simp) "== '\t").2 8).2 ⟨3, hb', rfl⟩⟩

namespace Expr

open Lexer Grammar

/-! ### Brackets around any expression -/

/-- A name that is no keyword. -/
theorem spells_name {f : String} (hf : Text.isIdentifier f.toList = true)
    (hk : ∀ k : Keyword, k.text ≠ f) : Spells f.toList [.ident f] := by
  have hw : wordToken f.toList = .ident f := by
    unfold wordToken
    split
    · next k h =>
      have he : k.text.toList = f.toList := by simpa using List.find?_some h
      exact (hk k (String.toList_inj.1 he)).elim
    · rw [String.ofList_toList]
  exact hw ▸ Spells.word hf

/-- In front of a symbol that goes on with nothing, an expression takes exactly its own tokens. -/
theorem condition_append {ts : List Token} {e : Expr} (h : Condition ts e) {c : Symbol}
    (hc : c.strength? = none) (rest : List Token) :
    ∃ hr, Parser.condition (ts ++ .symbol c :: rest) = .ok ⟨e, .symbol c :: rest, hr⟩ :=
  Parser.exists_of_found (h.found _ (Parser.stops_of_strength?_eq_none hc 7 rest))

/-- A text that is read as an expression is read as the same one between parentheses, as the only
argument of a call and, in parentheses of its own, as the first of two; and its tokens in front of a
symbol that ends it are read as the expression, whatever stands behind. -/
theorem read_in_brackets {s : String} {e : Expr} (h : Expr.read s = .ok e) :
    Expr.read ("(" ++ s ++ ")") = .ok e ∧
    (∀ f, Text.isIdentifier f.toList = true → (∀ k : Keyword, k.text ≠ f) →
      Expr.read (f ++ "(" ++ s ++ ")") = .ok (.call f [e]) ∧
      ∀ t e', Expr.read t = .ok e' →
        Expr.read (f ++ "((" ++ s ++ "), " ++ t ++ ")") = .ok (.call f [e, e'])) ∧
    ∃ lexemes, tokenize s = .ok lexemes ∧
      ∀ c ∈ [Symbol.rParen, .rBracket, .rBrace, .comma, .colon], ∀ rest, ∃ hr,
        Parser.condition (lexemes.map Lexeme.token ++ .symbol c :: rest) =
          .ok ⟨e, .symbol c :: rest, hr⟩ := by
  have hp : IsOperand ("(" ++ s ++ ")") e := isOperand_parens h
  refine ⟨hp.read, fun f hf hk => ?_, ?_⟩
  · have hn := spells_name hf hk
    refine ⟨(isOperand_call hn h).read, fun t e' h' => ?_⟩
    have hpair := (isOperand_call_pair hn hp.read h').read
    have ht : f ++ "((" ++ s ++ "), " ++ t ++ ")" =
        f ++ "(" ++ ("(" ++ s ++ ")") ++ ", " ++ t ++ ")" := by
      rw [← String.toList_inj]
      simp
    rw [ht]
    exact hpair
  · obtain ⟨lexemes, hl, hc⟩ := (read_iff_derives.1 s e).1 h
    refine ⟨lexemes, hl, fun c hm rest => condition_append hc ?_ rest⟩
    simp only [List.mem_cons, List.not_mem_nil, or_false] at hm
    rcases hm with rfl | rfl | rfl | rfl | rfl <;> rfl

/-- Neither the parenthesis in the text nor the colon behind is taken for more than it is. -/
theorem read_in_brackets_choice :
    Expr.read "a ? 'x)' : [b]" =
        .ok (.cond (.var "a") (.constant (.string "x)")) (.array [.var "b"])) ∧
      Expr.read ("(" ++ "a ? 'x)' : [b]" ++ ")") =
        .ok (.cond (.var "a") (.constant (.string "x)")) (.array [.var "b"])) ∧
      Expr.read ("attr" ++ "((" ++ "a ? 'x)' : [b]" ++ "), " ++ "null" ++ ")") =
        .ok (.call "attr" [.cond (.var "a") (.constant (.string "x)")) (.array [.var "b"]),
          .constant .null]) ∧
      ∃ hr, Parser.condition [.ident "a", .symbol .question, .str "x)", .symbol .colon,
          .symbol .lBracket, .ident "b", .symbol .rBracket, .symbol .colon, .ident "c"] =
        .ok ⟨.cond (.var "a") (.constant (.string "x)")) (.array [.var "b"]),
          [.symbol .colon, .ident "c"], hr⟩ := by
  have ht : tokenize "a ? 'x)' : [b]" = .ok [⟨.ident "a", 0, 1⟩, ⟨.symbol .question, 2, 3⟩,
      ⟨.str "x)", 4, 8⟩, ⟨.symbol .colon, 9, 10⟩, ⟨.symbol .lBracket, 11, 12⟩,
      ⟨.ident "b", 12, 13⟩, ⟨.symbol .rBracket, 13, 14⟩] := by decide +kernel
  have hb : Condition [.symbol .lBracket, .ident "b", .symbol .rBracket] (.array [.var "b"]) :=
    .of_operand (.array (.last (.of_operand .var)))
  have hc : Condition [.ident "a", .symbol .question, .str "x)", .symbol .colon,
      .symbol .lBracket, .ident "b", .symbol .rBracket]
      (.cond (.var "a") (.constant (.string "x)")) (.array [.var "b"])) :=
    .choice (.of_operand .var 6) (.of_operand (.constant rfl)) hb
  have h := (read_iff_derives.1 _ _).2 ⟨_, ht, hc⟩
  obtain ⟨hp, hcall, lexemes, hl, hends⟩ := read_in_brackets h
  have hk : ∀ k : Keyword, k.text ≠ "attr" := by
    intro k
    cases k <;> decide
  rw [ht] at hl
  cases hl
  exact ⟨h, hp, (hcall "attr" (by decide) hk).2 _ _ isOperand_null.read,
    hends .colon (by decide) [.ident "c"]⟩

end Expr

end IndentMarkup
