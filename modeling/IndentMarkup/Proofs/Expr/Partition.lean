import IndentMarkup.Expr.Engine
import IndentMarkup.Proofs.Expr.Composition
import IndentMarkup.Proofs.Expr.Longest

/-!
# Where tokens stand

The tokens of a source stand in it one behind the other, each the longest one that begins at its
place, and only spaces, tabs, line ends and form feeds stand outside of them. Where no token begins,
none of the texts that begin there is a token, and what stands in front is made up of tokens. A
quoted text is one token as a whole, so it is read as the text that was quoted.
-/
namespace IndentMarkup

namespace Lexer

def IsToken (w : List Char) (t : Token) : Prop :=
  tokenize (String.ofList w) = .ok [⟨t, 0, Text.byteCount w⟩]

/-- A text whose first byte has the given offset is made up of the lexemes and of spaces. -/
inductive Lexed : Nat → List Char → List Lexeme → Prop
  | nil {offset : Nat} : Lexed offset [] []
  | space {offset : Nat} {c : Char} {s : List Char} {lexemes : List Lexeme}
      (hc : isSpace c = true) (h : Lexed (offset + c.utf8Size) s lexemes) :
      Lexed offset (c :: s) lexemes
  | token {offset : Nat} {s : List Char} {x : Scanned} {lexemes : List Lexeme}
      (hx : token? s = some x) (h : Lexed (offset + Text.byteCount x.spelling) x.rest lexemes) :
      Lexed offset s (⟨x.token, offset, offset + Text.byteCount x.spelling⟩ :: lexemes)

theorem Lexed.scan_eq {offset : Nat} {s : List Char} {lexemes : List Lexeme}
    (h : Lexed offset s lexemes) : scan offset s = .ok lexemes := by
  induction h with
  | nil => rw [scan]
  | space hc _ ih => rw [scan_space hc, ih]
  | token hx _ ih =>
    rw [scan_token hx, ih]
    rfl

theorem lexed_of_scan {offset : Nat} {s : List Char} {lexemes : List Lexeme}
    (h : scan offset s = .ok lexemes) : Lexed offset s lexemes := by
  fun_induction scan offset s generalizing lexemes with
  | case1 =>
    cases h
    exact .nil
  | case2 offset c s hc ih => exact .space hc (ih h)
  | case3 => cases h
  | case4 offset c s hc x hx stop =>
    rename_i ih
    cases hr : scan stop x.rest with
    | error n =>
      rw [hr] at h
      cases h
    | ok rest =>
      rw [hr] at h
      cases h
      exact .token hx (ih hr)

theorem Lexed.le_start {offset : Nat} {s : List Char} {lexemes : List Lexeme}
    (h : Lexed offset s lexemes) : ∀ l ∈ lexemes, offset ≤ l.start := by
  induction h with
  | nil => exact fun l hl => (List.not_mem_nil hl).elim
  | space _ _ ih => exact fun l hl => Nat.le_of_add_right_le (ih l hl)
  | token _ _ ih =>
    exact List.forall_mem_cons.2 ⟨Nat.le_refl _, fun l hl => Nat.le_of_add_right_le (ih l hl)⟩

/-- A lexeme that begins where the text begins is the token that the text begins with. -/
theorem Lexed.exists_of_cons {offset : Nat} {s : List Char} {l : Lexeme} {lexemes : List Lexeme}
    (h : Lexed offset s (l :: lexemes)) (hl : l.start = offset) :
    ∃ x, token? s = some x ∧ l = ⟨x.token, offset, offset + Text.byteCount x.spelling⟩ := by
  cases h with
  | @space _ c _ _ _ h =>
    have hs := h.le_start l List.mem_cons_self
    have hc := c.utf8Size_pos
    omega
  | token hx _ => exact ⟨_, hx, rfl⟩

/-- A text is read as one token if the token that it begins with takes all of it. -/
theorem isToken_iff {w : List Char} {t : Token} : IsToken w t ↔ IsSpelling w t := by
  unfold IsToken tokenize
  rw [String.toList_ofList]
  constructor
  · intro h
    obtain ⟨x, hx, e⟩ := (lexed_of_scan h).exists_of_cons rfl
    obtain ⟨-, happ⟩ := splits_token? hx
    have ht : t = x.token := congrArg Lexeme.token e
    have hb : Text.byteCount w = 0 + Text.byteCount x.spelling := congrArg Lexeme.stop e
    have hrest : x.rest = [] := by
      by_contra hne
      have hpos := Text.byteCount_pos hne
      rw [← happ, Text.byteCount_append] at hb
      omega
    rw [hrest, List.append_nil] at happ
    rw [IsSpelling, hx, ht, ← happ, ← hrest]
  · intro h
    rw [scan_token h, scan, Nat.zero_add]
    rfl

/-! ### Where the tokens of a text stand -/

/-- A lexeme of a text whose first byte has the given offset: what it spans is a token, and nothing
longer that begins at the same place is one. -/
def Stands (offset : Nat) (s : List Char) (l : Lexeme) : Prop :=
  ∃ before w after, s = before ++ (w ++ after) ∧
    l.start = offset + Text.byteCount before ∧ l.stop = l.start + Text.byteCount w ∧
    IsToken w l.token ∧ ∀ p t, p <+: w ++ after → w.length < p.length → ¬ IsToken p t

/-- The lexemes of a text whose first byte has the given offset. -/
structure Partitioned (offset : Nat) (s : List Char) (lexemes : List Lexeme) : Prop where
  /-- None is empty, and none reaches beyond the text. -/
  inside : ∀ l ∈ lexemes, offset ≤ l.start ∧ l.start < l.stop ∧
    l.stop ≤ offset + Text.byteCount s
  /-- Each ends before the next one begins. -/
  ordered : lexemes.Pairwise fun l m => l.stop ≤ m.start
  /-- A character that stands in none of them separates tokens. -/
  separated : ∀ before c after, s = before ++ c :: after →
    (∀ l ∈ lexemes, ¬ (l.start ≤ offset + Text.byteCount before ∧
      offset + Text.byteCount before < l.stop)) →
    c ∈ [' ', '\t', '\r', '\n', '\x0c']
  longest : ∀ l ∈ lexemes, Stands offset s l

theorem isSpace_iff {c : Char} : isSpace c = true ↔ c ∈ [' ', '\t', '\r', '\n', '\x0c'] := by
  simp [isSpace, or_assoc]

theorem Stands.behind {offset : Nat} {u s : List Char} {l : Lexeme}
    (h : Stands (offset + Text.byteCount u) s l) : Stands offset (u ++ s) l := by
  obtain ⟨before, w, after, rfl, hstart, hstop, ht, hlong⟩ := h
  refine ⟨u ++ before, w, after, by simp, ?_, hstop, ht, hlong⟩
  rw [hstart, Text.byteCount_append, Nat.add_assoc]

theorem stands_of_token? {offset : Nat} {s : List Char} {x : Scanned} (h : token? s = some x) :
    Stands offset s ⟨x.token, offset, offset + Text.byteCount x.spelling⟩ := by
  have happ := (splits_token? h).2
  refine ⟨[], x.spelling, x.rest, happ.symm, rfl, rfl, isToken_iff.2 (isSpelling_of_token? h), ?_⟩
  intro p t hp hl ht
  rw [happ] at hp
  exact not_isSpelling_of_longer h hp hl t (isToken_iff.1 ht)

theorem partitioned_nil (offset : Nat) : Partitioned offset [] [] where
  inside := fun l hl => (List.not_mem_nil hl).elim
  ordered := .nil
  separated := by
    intro before c after h
    simp at h
  longest := fun l hl => (List.not_mem_nil hl).elim

section

variable {offset : Nat} {s : List Char} {lexemes : List Lexeme}

theorem Partitioned.space {c : Char} (hc : isSpace c = true)
    (h : Partitioned (offset + c.utf8Size) s lexemes) : Partitioned offset (c :: s) lexemes where
  inside := by
    intro l hl
    obtain ⟨hle, hlt, hstop⟩ := h.inside l hl
    rw [Text.byteCount]
    omega
  ordered := h.ordered
  separated := by
    intro before d after he hout
    cases before with
    | nil =>
      cases he
      exact isSpace_iff.1 hc
    | cons b before =>
      cases he
      simp only [Text.byteCount, ← Nat.add_assoc] at hout
      exact h.separated before d after rfl hout
  longest := fun l hl => .behind (u := [c]) (h.longest l hl)

theorem Partitioned.token {x : Scanned} (hx : token? s = some x)
    (h : Partitioned (offset + Text.byteCount x.spelling) x.rest lexemes) :
    Partitioned offset s (⟨x.token, offset, offset + Text.byteCount x.spelling⟩ :: lexemes) where
  inside := by
    obtain ⟨hne, happ⟩ := splits_token? hx
    have hpos := Text.byteCount_pos hne
    have hcount := congrArg Text.byteCount happ
    rw [Text.byteCount_append] at hcount
    refine List.forall_mem_cons.2 ⟨⟨Nat.le_refl _, ?_, ?_⟩, fun l hl => ?_⟩
    · exact Nat.lt_add_of_pos_right hpos
    · dsimp only
      omega
    · obtain ⟨hle, hlt, hstop⟩ := h.inside l hl
      omega
  ordered := List.pairwise_cons.2 ⟨fun l hl => (h.inside l hl).1, h.ordered⟩
  separated := by
    intro before c after he hout
    rw [List.forall_mem_cons] at hout
    rw [← (splits_token? hx).2] at he
    rcases List.append_eq_append_iff.1 he with ⟨q, hq, hr⟩ | ⟨q, hq, hr⟩
    · rw [hq, Text.byteCount_append, ← Nat.add_assoc] at hout
      exact h.separated q c after hr hout.2
    · cases q with
      | nil =>
        rw [List.append_nil] at hq
        rw [← hq] at hout
        exact h.separated [] c after hr.symm hout.2
      | cons d q =>
        -- The text in front of the character is a part of the token, so the character stands in it.
        exfalso
        refine hout.1 ⟨Nat.le_add_right _ _, ?_⟩
        have hpos := Text.byteCount_pos (List.cons_ne_nil d q)
        dsimp only
        rw [hq, Text.byteCount_append]
        omega
  longest := by
    refine List.forall_mem_cons.2 ⟨stands_of_token? hx, fun l hl => ?_⟩
    rw [← (splits_token? hx).2]
    exact (h.longest l hl).behind

theorem Lexed.partitioned (h : Lexed offset s lexemes) : Partitioned offset s lexemes := by
  induction h with
  | nil => exact partitioned_nil _
  | space hc _ ih => exact ih.space hc
  | token hx _ ih => exact ih.token hx

end

/-- Where a text has no tokens, there is a first place where none begins. -/
theorem exists_of_scan_eq_error {offset n : Nat} {s : List Char} (h : scan offset s = .error n) :
    ∃ before c after lexemes, s = before ++ c :: after ∧ n = offset + Text.byteCount before ∧
      Lexed offset before lexemes ∧ isSpace c = false ∧ token? (c :: after) = none := by
  fun_induction scan offset s with
  | case1 => cases h
  | case2 offset c s hc ih =>
    obtain ⟨before, d, after, lexemes, rfl, rfl, hl, hd, hn⟩ := ih h
    refine ⟨c :: before, d, after, lexemes, rfl, ?_, .space hc hl, hd, hn⟩
    rw [Text.byteCount, Nat.add_assoc]
  | case3 offset c s hc hn =>
    cases h
    exact ⟨[], c, s, [], rfl, rfl, .nil, by simpa using hc, hn⟩
  | case4 offset c s hc x hx stop =>
    rename_i ih
    cases hr : scan stop x.rest with
    | ok rest =>
      rw [hr] at h
      cases h
    | error m =>
      rw [hr] at h
      cases h
      obtain ⟨before, d, after, lexemes, he, rfl, hl, hd, hn⟩ := ih hr
      refine ⟨x.spelling ++ before, d, after, _, ?_, ?_, .token (token?_cut hx ⟨_, he.symm⟩) hl, hd,
        hn⟩
      · rw [List.append_assoc, ← he, (splits_token? hx).2]
      · rw [Text.byteCount_append, Nat.add_assoc]

end Lexer

open Lexer in
/-- The tokens of a source lie in it in their order, apart from each other and with nothing but
separators around them, and each is the longest token at its place. A source without tokens has a
first place at which no token begins, however much of what stands there is taken, and the text in
front of this place has tokens. -/
theorem tokenize_partitions (source : String) :
    (∀ lexemes, tokenize source = .ok lexemes → Partitioned 0 source.toList lexemes) ∧
    ∀ offset, tokenize source = .error offset →
      ∃ before c after, source.toList = before ++ c :: after ∧ offset = Text.byteCount before ∧
        (∃ lexemes, tokenize (String.ofList before) = .ok lexemes) ∧
        c ∉ [' ', '\t', '\r', '\n', '\x0c'] ∧
        ∀ p t, p <+: c :: after → ¬ IsToken p t := by
  refine ⟨fun lexemes h => (lexed_of_scan h).partitioned, fun offset h => ?_⟩
  obtain ⟨before, c, after, lexemes, hs, rfl, hl, hc, hn⟩ := exists_of_scan_eq_error h
  refine ⟨before, c, after, hs, Nat.zero_add _, ⟨lexemes, ?_⟩, ?_, fun p t hp ht => ?_⟩
  · rw [tokenize, String.toList_ofList]
    exact hl.scan_eq
  · rw [← isSpace_iff, hc]
    exact Bool.false_ne_true
  · exact not_isSpelling_of_token?_eq_none hn hp t (isToken_iff.1 ht)

/-- A number that leaves a point and a letter to the next tokens, and a text that is closed but
holds the code of no character. -/
theorem tokenize_partitions_backsOff :
    (tokenize "1.e !==" = .ok [⟨.number "1", 0, 1⟩, ⟨.symbol .dot, 1, 2⟩, ⟨.ident "e", 2, 3⟩,
        ⟨.symbol .strictNe, 4, 7⟩] ∧
      Lexer.Partitioned 0 "1.e !==".toList [⟨.number "1", 0, 1⟩, ⟨.symbol .dot, 1, 2⟩,
        ⟨.ident "e", 2, 3⟩, ⟨.symbol .strictNe, 4, 7⟩]) ∧
    tokenize "a '\\u00'" = .error 2 ∧
      ∃ before c after, "a '\\u00'".toList = before ++ c :: after ∧ 2 = Text.byteCount before ∧
        (∃ lexemes, tokenize (String.ofList before) = .ok lexemes) ∧
        c ∉ [' ', '\t', '\r', '\n', '\x0c'] ∧
        ∀ p t, p <+: c :: after → ¬ Lexer.IsToken p t := by
  have hok : tokenize "1.e !==" = .ok [⟨.number "1", 0, 1⟩, ⟨.symbol .dot, 1, 2⟩,
      ⟨.ident "e", 2, 3⟩, ⟨.symbol .strictNe, 4, 7⟩] := by decide +kernel
  have herr : tokenize "a '\\u00'" = .error 2 := by decide +kernel
  exact ⟨⟨hok, (tokenize_partitions _).1 _ hok⟩, herr, (tokenize_partitions _).2 _ herr⟩

/-! ### Quoted texts -/

/-- A quoted text is one token, from its first quote to its last; it is read as the text that was
quoted, and has this text as its value in every scope. -/
theorem Text.quote_readsBack (t : String) :
    tokenize (quote t) = .ok [⟨.str t, 0, byteCount (quote t).toList⟩] ∧
    Expr.read (quote t) = .ok (.constant (.string t)) ∧
    ∀ (engine : Engine) (s : Scope), engine.evaluate (quote t) s = .ok (.string t) := by
  have hr : Expr.read (quote t) = .ok (.constant (.string t)) := (Expr.isOperand_quote t).read
  have hq : Lexer.IsSpelling (quoteChars t.toList) (.str t) := by
    have hx := Lexer.token?_quoteChars t.toList []
    rwa [List.append_nil, String.ofList_toList] at hx
  refine ⟨?_, hr, fun engine s => ?_⟩
  · rw [toList_quote]
    exact Lexer.isToken_iff.2 hq
  · simp only [Engine.evaluate, hr, Engine.eval]
    rfl

end IndentMarkup
