import IndentMarkup.Proofs.Expr.Spelling
import Mathlib.Data.List.Infix
import Mathlib.Data.List.TakeWhile

/-!
# The longest token

The token that a text begins with is the longest one that it could begin with: no longer start of
the text is a token as a whole. This holds of words, numbers, quoted texts and symbols each by
itself, and the first character of a text decides which of these it can begin with. So a token is
read again from its spelling alone, and from its spelling with any part of what followed it.
-/
namespace IndentMarkup

namespace Lexer

/-- A reader of the start of a text that takes as much as it can and looks at no more than it needs:
what it takes it takes again when nothing follows, and a text that it takes as a whole is not cut
short when more follows. -/
structure Greedy (read : List Char → Option Scanned) : Prop where
  alone : ∀ {s : List Char} {x : Scanned}, read s = some x →
    read x.spelling = some ⟨x.token, x.spelling, []⟩
  extended : ∀ {w : List Char} {t : Token}, read w = some ⟨t, w, []⟩ → ∀ r : List Char,
    ∃ x, read (w ++ r) = some x ∧ w <+: x.spelling

/-! ### Words -/

theorem greedy_word? : Greedy word? where
  alone := by
    intro s x h
    obtain ⟨⟨name, rest⟩, hp, rfl⟩ := Option.map_eq_some_iff.1 h
    have hw : Text.splitIdentifier? (name ++ []) = some (name, []) :=
      Text.splitIdentifier?_append (Text.splitIdentifier?_spec hp).1 nofun
    rw [List.append_nil] at hw
    rw [word?, hw]
    rfl
  extended := by
    intro w t h r
    obtain ⟨⟨name, rest⟩, hp, e⟩ := Option.map_eq_some_iff.1 h
    cases e
    obtain ⟨hi, -⟩ := Text.splitIdentifier?_spec hp
    cases name with
    | nil => cases hi
    | cons c w =>
      simp only [Text.isIdentifier, Bool.and_eq_true, List.all_eq_true] at hi
      refine ⟨_, by rw [List.cons_append, word?, Text.splitIdentifier?, if_pos hi.1]; rfl, ?_⟩
      rw [List.takeWhile_append_of_pos hi.2, List.cons_prefix_cons]
      exact ⟨rfl, List.prefix_append _ _⟩

/-! ### Numbers -/

def IsDigits (d : List Char) : Prop := d ≠ [] ∧ ∀ c ∈ d, c.isDigit = true

inductive IsFraction : List Char → Prop
  | nil : IsFraction []
  | digits {d : List Char} (h : IsDigits d) : IsFraction ('.' :: d)

inductive IsExponent : List Char → Prop
  | nil : IsExponent []
  | digits {c : Char} {sign d : List Char} (hc : c = 'e' ∨ c = 'E')
      (hs : sign = [] ∨ sign = ['+'] ∨ sign = ['-']) (h : IsDigits d) :
      IsExponent (c :: (sign ++ d))

inductive IsNumber : List Char → Prop
  | parts {d f e : List Char} (hd : IsDigits d) (hf : IsFraction f) (he : IsExponent e) :
      IsNumber (d ++ f ++ e)

theorem splitDigits?_append {d : List Char} (h : IsDigits d) (r : List Char) :
    splitDigits? (d ++ r) = some (d ++ r.takeWhile Char.isDigit, r.dropWhile Char.isDigit) := by
  unfold splitDigits?
  rw [List.takeWhile_append_of_pos h.2, List.dropWhile_append_of_pos h.2]
  split
  · next e => exact (h.1 (List.append_eq_nil_iff.1 e).1).elim
  · rfl

/-- Digits are cut off where another character follows. -/
theorem splitDigits?_append_cons {d : List Char} (h : IsDigits d) {c : Char}
    (hc : c.isDigit = false) (r : List Char) : splitDigits? (d ++ c :: r) = some (d, c :: r) := by
  rw [splitDigits?_append h, List.takeWhile_cons_of_neg (by simp [hc]),
    List.dropWhile_cons_of_neg (by simp [hc]), List.append_nil]

theorem isDigits_of_splitDigits? {s d r : List Char} (h : splitDigits? s = some (d, r)) :
    IsDigits d := by
  unfold splitDigits? at h
  split at h
  · cases h
  · next hne =>
    cases h
    exact ⟨hne, fun c hc => List.mem_takeWhile_imp hc⟩

theorem isFraction_splitFraction (s : List Char) : IsFraction (splitFraction s).1 := by
  unfold splitFraction
  split
  · split
    · next h => exact .digits (isDigits_of_splitDigits? h)
    · exact .nil
  · exact .nil

theorem splitSign_cases (s : List Char) :
    (splitSign s).1 = [] ∨ (splitSign s).1 = ['+'] ∨ (splitSign s).1 = ['-'] := by
  unfold splitSign
  split
  · exact .inr (.inl rfl)
  · exact .inr (.inr rfl)
  · exact .inl rfl

theorem isExponent_splitExponent (s : List Char) : IsExponent (splitExponent s).1 := by
  unfold splitExponent
  split
  · next c r =>
    split
    · next hc =>
      split
      · next h => exact .digits hc (splitSign_cases r) (isDigits_of_splitDigits? h)
      · exact .nil
    · exact .nil
  · exact .nil

theorem isNumber_of_splitNumber? {s n r : List Char} (h : splitNumber? s = some (n, r)) :
    IsNumber n := by
  obtain ⟨⟨d, t⟩, hd, e⟩ := Option.map_eq_some_iff.1 h
  cases e
  exact .parts (isDigits_of_splitDigits? hd) (isFraction_splitFraction _)
    (isExponent_splitExponent _)

/-- Digits begin with no sign, so what stands behind a sign or none is found again. -/
theorem splitSign_append_digits {sign d : List Char}
    (hs : sign = [] ∨ sign = ['+'] ∨ sign = ['-']) (h : IsDigits d) (r : List Char) :
    splitSign (sign ++ (d ++ r)) = (sign, d ++ r) := by
  rcases hs with rfl | rfl | rfl
  · cases d with
    | nil => exact (h.1 rfl).elim
    | cons c d =>
      have hc : c.isDigit = true := h.2 c List.mem_cons_self
      unfold splitSign
      split
      · next e =>
        cases e
        cases hc
      · next e =>
        cases e
        cases hc
      · rfl
  · rfl
  · rfl

theorem splitExponent_append_digits {c : Char} (hc : c = 'e' ∨ c = 'E') {sign d : List Char}
    (hs : sign = [] ∨ sign = ['+'] ∨ sign = ['-']) (h : IsDigits d) (r : List Char) :
    splitExponent (c :: (sign ++ (d ++ r))) =
      (c :: (sign ++ (d ++ r.takeWhile Char.isDigit)), r.dropWhile Char.isDigit) := by
  rw [splitExponent, if_pos hc, splitSign_append_digits hs h, splitDigits?_append h]

theorem splitFraction_append_exponent {f : List Char} (hf : IsFraction f) {c : Char}
    (hc : c = 'e' ∨ c = 'E') (r : List Char) : splitFraction (f ++ c :: r) = (f, c :: r) := by
  have hd : c.isDigit = false := by rcases hc with rfl | rfl <;> rfl
  cases hf with
  | nil =>
    rcases hc with rfl | rfl <;> rfl
  | digits h =>
    rw [List.cons_append, splitFraction, splitDigits?_append_cons h hd]

/-- A number is not cut short by what follows it: its last part goes on as far as it can, and the
parts in front of that end where they did. -/
theorem splitNumber?_append {n : List Char} (h : IsNumber n) (r : List Char) :
    ∃ more rest, splitNumber? (n ++ r) = some (n ++ more, rest) := by
  cases h with
  | @parts d f e hd hf he =>
    cases he with
    | @digits c sign g hc hs hg =>
      have hsplit : splitDigits? (d ++ (f ++ c :: (sign ++ (g ++ r)))) =
          some (d, f ++ c :: (sign ++ (g ++ r))) := by
        cases hf with
        | nil =>
          refine splitDigits?_append_cons hd ?_ _
          rcases hc with rfl | rfl <;> rfl
        | digits => exact splitDigits?_append_cons hd rfl _
      refine ⟨r.takeWhile Char.isDigit, r.dropWhile Char.isDigit, ?_⟩
      have he : d ++ f ++ c :: (sign ++ g) ++ r = d ++ (f ++ c :: (sign ++ (g ++ r))) := by simp
      rw [he, splitNumber?, hsplit, Option.map_some]
      simp only [splitFraction_append_exponent hf hc, splitExponent_append_digits hc hs hg]
      simp
    | nil =>
      cases hf with
      | @digits g hg =>
        refine ⟨r.takeWhile Char.isDigit ++ (splitExponent (r.dropWhile Char.isDigit)).1,
          (splitExponent (r.dropWhile Char.isDigit)).2, ?_⟩
        have he : d ++ '.' :: g ++ [] ++ r = d ++ '.' :: (g ++ r) := by simp
        rw [he, splitNumber?, splitDigits?_append_cons hd rfl, Option.map_some]
        simp only [splitFraction, splitDigits?_append hg]
        simp
      | nil =>
        rw [List.append_nil, List.append_nil, splitNumber?, splitDigits?_append hd,
          Option.map_some]
        simp only [List.append_assoc]
        exact ⟨_, _, rfl⟩

theorem greedy_number? : Greedy number? where
  alone := by
    intro s x h
    obtain ⟨⟨n, rest⟩, hp, rfl⟩ := Option.map_eq_some_iff.1 h
    obtain ⟨more, rest', hr⟩ := splitNumber?_append (isNumber_of_splitNumber? hp) []
    have he := (append_of_splitNumber? hr).2
    rw [List.append_assoc, List.append_cancel_left_eq, List.append_eq_nil_iff] at he
    rw [List.append_nil, he.1, he.2, List.append_nil] at hr
    rw [number?, hr]
    rfl
  extended := by
    intro w t h r
    obtain ⟨⟨n, rest⟩, hp, e⟩ := Option.map_eq_some_iff.1 h
    cases e
    obtain ⟨more, rest', hr⟩ := splitNumber?_append (isNumber_of_splitNumber? hp) r
    exact ⟨_, by rw [number?, hr]; rfl, List.prefix_append _ _⟩

/-! ### Quoted texts -/

/-- Where a quoted text ends does not depend on what follows the closing quote. -/
theorem splitQuoted?_closed {q : Char} {s b r : List Char} (h : splitQuoted? q s = some (b, r))
    (t : List Char) : splitQuoted? q (b ++ q :: t) = some (b, t) := by
  fun_induction splitQuoted? q s generalizing b with
  | case1 => cases h
  | case2 s =>
    cases h
    rw [List.nil_append, splitQuoted?.eq_def]
    exact if_pos rfl
  | case3 => cases h
  | case4 => cases h
  | case5 d r' hd hq ih =>
    obtain ⟨⟨b', r''⟩, hp, e⟩ := Option.map_eq_some_iff.1 h
    cases e
    rw [List.cons_append, List.cons_append, splitQuoted?.eq_def]
    simp [hq, hd, ih hp]
  | case6 c s hq hb ih =>
    obtain ⟨⟨b', r''⟩, hp, e⟩ := Option.map_eq_some_iff.1 h
    cases e
    rw [List.cons_append, splitQuoted?.eq_def]
    simp [hq, hb, ih hp]

theorem splitVerbatim?_closed {s b r : List Char} (h : splitVerbatim? s = some (b, r))
    (t : List Char) : splitVerbatim? (b ++ '\x60' :: t) = some (b, t) := by
  induction s generalizing b with
  | nil => cases h
  | cons c s ih =>
    rw [splitVerbatim?] at h
    split at h
    · cases h
      rw [List.nil_append, splitVerbatim?, if_pos rfl]
    · next hc =>
      obtain ⟨⟨b', r'⟩, hp, e⟩ := Option.map_eq_some_iff.1 h
      cases e
      rw [List.cons_append, splitVerbatim?, if_neg hc, ih hp]
      rfl

theorem greedy_quoted? : Greedy quoted? where
  alone := by
    intro s x h
    cases s with
    | nil => cases h
    | cons q s =>
      rw [quoted?] at h
      split at h
      · next hq =>
        obtain ⟨⟨b, r⟩, hp, hd⟩ := Option.bind_eq_some_iff.1 h
        obtain ⟨u, hu, rfl⟩ := Option.map_eq_some_iff.1 hd
        rw [quoted?, if_pos hq, splitQuoted?_closed hp, Option.bind_some, hu]
        rfl
      · next hq =>
        split at h
        · next hb =>
          obtain ⟨⟨b, r⟩, hp, rfl⟩ := Option.map_eq_some_iff.1 h
          subst hb
          rw [quoted?, if_neg hq, if_pos rfl, splitVerbatim?_closed hp]
          rfl
        · cases h
  extended := by
    intro w t h r
    exact ⟨_, quoted?_append h r, List.prefix_refl _⟩

/-! ### Symbols -/

/-- No symbol comes behind one that it goes on from. -/
theorem symbols_ordered :
    Symbol.all.Pairwise fun a b => ¬ a.text.toList <+: b.text.toList := by
  decide

/-- Of the symbols in a list that is ordered this way, the first one that fits is the longest. -/
theorem exists_of_findSome? {symbols : List Symbol}
    (ho : symbols.Pairwise fun a b => ¬ a.text.toList <+: b.text.toList) {sym : Symbol}
    (hm : sym ∈ symbols) {s : List Char} (hs : sym.text.toList <+: s) :
    ∃ x, (symbols.findSome? fun a => (Text.dropStart? a.text.toList s).map fun r =>
      (⟨.symbol a, a.text.toList, r⟩ : Scanned)) = some x ∧ sym.text.toList <+: x.spelling := by
  induction symbols with
  | nil => cases hm
  | cons a symbols ih =>
    rw [List.pairwise_cons] at ho
    rw [List.findSome?_cons]
    cases hd : Text.dropStart? a.text.toList s with
    | none =>
      refine ih ho.2 ((List.mem_cons.1 hm).resolve_left ?_)
      rintro rfl
      obtain ⟨r, rfl⟩ := hs
      rw [Text.dropStart?_append] at hd
      cases hd
    | some r =>
      refine ⟨_, rfl, ?_⟩
      have ha : a.text.toList <+: s := ⟨r, (Text.dropStart?_eq_some_iff.1 hd).symm⟩
      rcases List.mem_cons.1 hm with rfl | hm
      · exact List.prefix_refl _
      · exact (List.prefix_or_prefix_of_prefix hs ha).resolve_right (ho.1 sym hm)

theorem exists_of_symbol? {s : List Char} {x : Scanned} (h : symbol? s = some x) :
    ∃ sym, sym ∈ Symbol.all ∧ s = sym.text.toList ++ x.rest ∧ x.token = .symbol sym ∧
      x.spelling = sym.text.toList := by
  obtain ⟨sym, hm, hs⟩ := List.exists_of_findSome?_eq_some h
  obtain ⟨r, hr, rfl⟩ := Option.map_eq_some_iff.1 hs
  exact ⟨sym, hm, Text.dropStart?_eq_some_iff.1 hr, rfl, rfl⟩

theorem greedy_symbol? : Greedy symbol? where
  alone := by
    intro s x h
    obtain ⟨sym, -, -, ht, hs⟩ := exists_of_symbol? h
    rw [ht, hs]
    cases sym <;> rfl
  extended := by
    intro w t h r
    obtain ⟨sym, hm, hw, -, -⟩ := exists_of_symbol? h
    rw [List.append_nil] at hw
    rw [hw]
    exact exists_of_findSome? symbols_ordered hm (List.prefix_append _ _)

/-! ### All tokens -/

theorem isIdentStart_of_isDigit {c : Char} (h : c.isDigit = true) :
    Text.isIdentStart c = false := by
  have hn : 48 ≤ c.toNat ∧ c.toNat ≤ 57 := by
    simpa [Char.isDigit, UInt32.le_iff_toNat_le] using h
  have hd : ∀ n ∈ List.range 58, 48 ≤ n → Text.isIdentStart (Char.ofNat n) = false := by decide
  have hc := hd c.toNat (List.mem_range.2 (by omega)) hn.1
  rwa [Char.ofNat_toNat] at hc

theorem word?_eq_none_iff {c : Char} {s : List Char} :
    word? (c :: s) = none ↔ Text.isIdentStart c = false := by
  simp [word?, Text.splitIdentifier?]

theorem number?_eq_none_iff {c : Char} {s : List Char} :
    number? (c :: s) = none ↔ c.isDigit = false := by
  cases hc : c.isDigit <;> simp [number?, splitNumber?, splitDigits?, hc]

theorem word?_eq_none_of_number? {s : List Char} {x : Scanned} (h : number? s = some x) :
    word? s = none := by
  cases s with
  | nil => rfl
  | cons c s =>
    cases hc : c.isDigit with
    | false =>
      rw [number?_eq_none_iff.2 hc] at h
      cases h
    | true => exact word?_eq_none_iff.2 (isIdentStart_of_isDigit hc)

theorem eq_none_of_quoted? {s : List Char} {x : Scanned} (h : quoted? s = some x) :
    word? s = none ∧ number? s = none := by
  cases s with
  | nil => cases h
  | cons q s =>
    have hq : (q = '"' ∨ q = '\x27') ∨ q = '\x60' := by
      by_contra hn
      rw [not_or] at hn
      rw [quoted?, if_neg hn.1, if_neg hn.2] at h
      cases h
    rcases hq with (rfl | rfl) | rfl <;> exact ⟨rfl, rfl⟩

theorem eq_none_of_symbol? {s : List Char} {x : Scanned} (h : symbol? s = some x) :
    word? s = none ∧ number? s = none ∧ quoted? s = none := by
  obtain ⟨sym, -, rfl, -, -⟩ := exists_of_symbol? h
  cases sym <;> exact ⟨rfl, rfl, rfl⟩

/-- A text begins with one kind of token at most. -/
theorem token?_eq_some_iff {s : List Char} {x : Scanned} : token? s = some x ↔
    word? s = some x ∨ number? s = some x ∨ quoted? s = some x ∨ symbol? s = some x := by
  constructor
  · intro h
    unfold token? at h
    split at h
    · next hw => exact .inl (hw.trans h)
    · split at h
      · next hn => exact .inr (.inl (hn.trans h))
      · split at h
        · next hq => exact .inr (.inr (.inl (hq.trans h)))
        · exact .inr (.inr (.inr h))
  · rintro (h | h | h | h)
    · rw [token?, h]
    · rw [token?, word?_eq_none_of_number? h, h]
    · obtain ⟨hw, hn⟩ := eq_none_of_quoted? h
      rw [token?, hw, hn, h]
    · obtain ⟨hw, hn, hq⟩ := eq_none_of_symbol? h
      rw [token?, hw, hn, hq, h]

theorem greedy_token? : Greedy token? where
  alone := by
    intro s x h
    rw [token?_eq_some_iff] at h ⊢
    exact h.imp greedy_word?.alone (.imp greedy_number?.alone
      (.imp greedy_quoted?.alone greedy_symbol?.alone))
  extended := by
    intro w t h r
    rcases token?_eq_some_iff.1 h with h | h | h | h
    · obtain ⟨x, hx, hp⟩ := greedy_word?.extended h r
      exact ⟨x, token?_eq_some_iff.2 (.inl hx), hp⟩
    · obtain ⟨x, hx, hp⟩ := greedy_number?.extended h r
      exact ⟨x, token?_eq_some_iff.2 (.inr (.inl hx)), hp⟩
    · obtain ⟨x, hx, hp⟩ := greedy_quoted?.extended h r
      exact ⟨x, token?_eq_some_iff.2 (.inr (.inr (.inl hx))), hp⟩
    · obtain ⟨x, hx, hp⟩ := greedy_symbol?.extended h r
      exact ⟨x, token?_eq_some_iff.2 (.inr (.inr (.inr hx))), hp⟩

/-- The text as a whole is a spelling of the token. -/
def IsSpelling (w : List Char) (t : Token) : Prop := token? w = some ⟨t, w, []⟩

theorem isSpelling_of_token? {s : List Char} {x : Scanned} (h : token? s = some x) :
    IsSpelling x.spelling x.token := greedy_token?.alone h

/-- Whatever token a text begins with, the text begins with a token at least as long. -/
theorem IsSpelling.exists_longer {w s : List Char} {t : Token} (h : IsSpelling w t)
    (hp : w <+: s) : ∃ x, token? s = some x ∧ w <+: x.spelling := by
  obtain ⟨r, rfl⟩ := hp
  exact greedy_token?.extended h r

/-- Where no token begins, no start of the text is a token. -/
theorem not_isSpelling_of_token?_eq_none {w s : List Char} (h : token? s = none) (hp : w <+: s)
    (t : Token) : ¬ IsSpelling w t := by
  intro hw
  obtain ⟨x, hx, -⟩ := hw.exists_longer hp
  rw [h] at hx
  cases hx

/-- No start of a text that is longer than the token it begins with is a token. -/
theorem not_isSpelling_of_longer {w s : List Char} {x : Scanned} (h : token? s = some x)
    (hp : w <+: s) (hl : x.spelling.length < w.length) (t : Token) : ¬ IsSpelling w t := by
  intro hw
  obtain ⟨y, hy, hwy⟩ := hw.exists_longer hp
  rw [h] at hy
  cases hy
  exact Nat.not_lt.2 hwy.length_le hl

/-- A token is the same one when what follows it is cut off somewhere. -/
theorem token?_cut {s g : List Char} {x : Scanned} (h : token? s = some x) (hg : g <+: x.rest) :
    token? (x.spelling ++ g) = some ⟨x.token, x.spelling, g⟩ := by
  have hx := isSpelling_of_token? h
  have happ := (splits_token? h).2
  obtain ⟨y, hy, hxy⟩ := hx.exists_longer (List.prefix_append x.spelling g)
  have hy' := isSpelling_of_token? hy
  have happ' := (splits_token? hy).2
  -- the token of the cut text begins the whole text too, so it is no longer than the first one
  have hp : y.spelling <+: s := by
    rw [← happ]
    have hyg : y.spelling <+: x.spelling ++ g := ⟨y.rest, happ'⟩
    exact hyg.trans ((List.prefix_append_right_inj _).2 hg)
  obtain ⟨z, hz, hyz⟩ := hy'.exists_longer hp
  rw [h] at hz
  cases hz
  have he : y.spelling = x.spelling := hyz.eq_of_length_le hxy.length_le
  obtain ⟨t, w, r⟩ := y
  dsimp only at he hy' happ'
  subst he
  have ht : some (⟨x.token, x.spelling, []⟩ : Scanned) = some ⟨t, x.spelling, []⟩ :=
    hx.symm.trans hy'
  cases ht
  rw [hy, List.append_cancel_left happ']

end Lexer

end IndentMarkup
