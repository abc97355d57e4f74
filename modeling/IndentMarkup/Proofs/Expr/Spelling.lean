import IndentMarkup.Expr.Lexer
import IndentMarkup.Text.Split

/-!
# Tokens of composed texts

What tokens a text has when it is put together from others. A token ends before a character that
cannot belong to it, so a text keeps its tokens in front of a blank, a closing bracket or a comma;
the tokens behind it are those of what follows.
-/
namespace IndentMarkup

namespace Lexer

/-- The characters besides those of words that a number or a symbol may go on with. -/
def joining : List Char := ['.', '+', '-', '=', '&', '|']

/-- A character before which every token ends, wherever it stands outside of quotes. -/
def ends (c : Char) : Bool := !Text.isIdentRest c && !joining.contains c

/-- Every token that stands before this text ends before it. -/
def EndsToken (t : List Char) : Prop := ∀ c ∈ t.head?, ends c = true

theorem endsToken_nil : EndsToken [] := by
  intro c h
  cases h

theorem endsToken_cons {c : Char} (h : ends c = true) (t : List Char) : EndsToken (c :: t) := by
  intro d hd
  cases hd
  exact h

def Scanned.followedBy (x : Scanned) (t : List Char) : Scanned := { x with rest := x.rest ++ t }

theorem isIdentRest_of_ends {c : Char} (h : ends c = true) : Text.isIdentRest c = false := by
  simp only [ends, Bool.and_eq_true, Bool.not_eq_true'] at h
  exact h.1

theorem isDigit_of_ends {c : Char} (h : ends c = true) : c.isDigit = false := by
  have hr := isIdentRest_of_ends h
  simp only [Text.isIdentRest, Char.isAlphanum, Bool.or_eq_false_iff] at hr
  exact hr.1.1.2

theorem ne_of_ends {c d : Char} (h : ends c = true) (hd : d ∈ joining) : c ≠ d := by
  intro e
  subst e
  simp only [ends, Bool.and_eq_true, Bool.not_eq_true', List.contains_eq_mem,
    decide_eq_false_iff_not] at h
  exact h.2 hd

section

variable {t : List Char} (ht : EndsToken t)
include ht

theorem word?_append {s : List Char} {x : Scanned} (h : word? s = some x) :
    word? (s ++ t) = some (x.followedBy t) := by
  cases s with
  | nil => cases h
  | cons c s =>
    have hw := takeWhile_append_of_head (p := Text.isIdentRest)
      (fun d hd => isIdentRest_of_ends (ht d hd)) s
    by_cases hc : Text.isIdentStart c = true
    · simp only [word?, Text.splitIdentifier?, hc, if_true, Option.map_some, Option.some.injEq,
        List.cons_append, hw.1, hw.2] at h ⊢
      subst h
      rfl
    · simp [word?, Text.splitIdentifier?, hc] at h

theorem splitDigits?_append_of_some {s d r : List Char} (h : splitDigits? s = some (d, r)) :
    splitDigits? (s ++ t) = some (d, r ++ t) := by
  have hw := takeWhile_append_of_head (p := Char.isDigit) (fun c hc => isDigit_of_ends (ht c hc)) s
  unfold splitDigits? at h ⊢
  rw [hw.1, hw.2]
  cases hs : s.takeWhile Char.isDigit with
  | nil =>
    rw [hs] at h
    cases h
  | cons c cs =>
    rw [hs] at h
    cases h
    rfl

theorem splitDigits?_append_of_none {s : List Char} (h : splitDigits? s = none) :
    splitDigits? (s ++ t) = none := by
  have hw := takeWhile_append_of_head (p := Char.isDigit) (fun c hc => isDigit_of_ends (ht c hc)) s
  unfold splitDigits? at h ⊢
  rw [hw.1, hw.2]
  cases hs : s.takeWhile Char.isDigit with
  | nil => rfl
  | cons c cs =>
    rw [hs] at h
    cases h

theorem splitFraction_of_endsToken : splitFraction t = ([], t) := by
  cases t with
  | nil => rfl
  | cons c r =>
    have hc : c ≠ '.' := ne_of_ends (ht c rfl) (by simp [joining])
    unfold splitFraction
    split
    · next e =>
      cases e
      exact (hc rfl).elim
    · rfl

theorem splitSign_of_endsToken : splitSign t = ([], t) := by
  cases t with
  | nil => rfl
  | cons c r =>
    have hp : c ≠ '+' := ne_of_ends (ht c rfl) (by simp [joining])
    have hm : c ≠ '-' := ne_of_ends (ht c rfl) (by simp [joining])
    unfold splitSign
    split
    · next e =>
      cases e
      exact (hp rfl).elim
    · next e =>
      cases e
      exact (hm rfl).elim
    · rfl

theorem splitExponent_of_endsToken : splitExponent t = ([], t) := by
  cases t with
  | nil => rfl
  | cons c r =>
    have hr := isIdentRest_of_ends (ht c rfl)
    have hne : ¬ (c = 'e' ∨ c = 'E') := by
      rintro (rfl | rfl) <;> cases hr
    rw [splitExponent, if_neg hne]

theorem splitFraction_append (s : List Char) :
    splitFraction (s ++ t) = ((splitFraction s).1, (splitFraction s).2 ++ t) := by
  match s with
  | [] => exact splitFraction_of_endsToken ht
  | c :: r =>
    rw [List.cons_append]
    by_cases hc : c = '.'
    · rw [hc, splitFraction, splitFraction]
      cases hd : splitDigits? r with
      | none => rw [splitDigits?_append_of_none ht hd]; rfl
      | some p => rw [splitDigits?_append_of_some ht hd]
    · unfold splitFraction
      split <;> simp_all

theorem splitSign_append (s : List Char) :
    splitSign (s ++ t) = ((splitSign s).1, (splitSign s).2 ++ t) := by
  match s with
  | [] => exact splitSign_of_endsToken ht
  | c :: r =>
    rw [List.cons_append]
    unfold splitSign
    split <;> simp_all

theorem splitExponent_append (s : List Char) :
    splitExponent (s ++ t) = ((splitExponent s).1, (splitExponent s).2 ++ t) := by
  match s with
  | [] => exact splitExponent_of_endsToken ht
  | c :: r =>
    rw [List.cons_append, splitExponent, splitExponent, splitSign_append ht r]
    split
    · cases hd : splitDigits? (splitSign r).2 with
      | none => rw [splitDigits?_append_of_none ht hd]; rfl
      | some p => rw [splitDigits?_append_of_some ht hd]
    · rfl

theorem number?_append {s : List Char} {x : Scanned} (h : number? s = some x) :
    number? (s ++ t) = some (x.followedBy t) := by
  unfold number? splitNumber? at h ⊢
  cases hd : splitDigits? s with
  | none =>
    rw [hd] at h
    cases h
  | some p =>
    rw [hd] at h
    rw [splitDigits?_append_of_some ht hd]
    cases h
    simp [splitFraction_append ht, splitExponent_append ht, Scanned.followedBy]

theorem number?_append_of_none {s : List Char} (h : number? s = none) :
    number? (s ++ t) = none := by
  unfold number? splitNumber? at h ⊢
  cases hd : splitDigits? s with
  | none => rw [splitDigits?_append_of_none ht hd]; rfl
  | some p =>
    rw [hd] at h
    cases h

/-- A text that does not begin with `p` does not come to do so by what is put behind it, as long as
`p` goes on with characters that end no token. -/
theorem dropStart?_append_of_none {p s : List Char} (hs : s ≠ [])
    (hp : ∀ c ∈ p.tail, ends c = false) (h : Text.dropStart? p s = none) :
    Text.dropStart? p (s ++ t) = none := by
  cases hr : Text.dropStart? p (s ++ t) with
  | none => rfl
  | some r =>
    exfalso
    have hst : s ++ t = p ++ r := Text.dropStart?_eq_some_iff.1 hr
    rcases List.append_eq_append_iff.1 hst with ⟨q, hq, htq⟩ | ⟨q, hq, htq⟩
    · -- `p` reaches into `t`, so `t` begins with a character of `p` behind its first
      cases q with
      | nil =>
        rw [List.append_nil] at hq
        rw [hq, Text.dropStart?_eq_some_iff.2 (List.append_nil s).symm] at h
        cases h
      | cons c q =>
        have hc : ends c = true := ht c (by rw [htq]; rfl)
        have hm : c ∈ p.tail := by
          cases s with
          | nil => exact (hs rfl).elim
          | cons d s => rw [hq]; simp
        rw [hp c hm] at hc
        cases hc
    · rw [hq, Text.dropStart?_append] at h
      cases h

end

theorem ends_of_mem_tail_text (sym : Symbol) : ∀ c ∈ sym.text.toList.tail, ends c = false := by
  have h : (sym.text.toList.tail.all fun c => !ends c) = true := by cases sym <;> decide
  intro c hc
  simpa using List.all_eq_true.1 h c hc

theorem symbol?_append {t : List Char} (ht : EndsToken t) {s : List Char} {x : Scanned}
    (h : symbol? s = some x) : symbol? (s ++ t) = some (x.followedBy t) := by
  have hne : s ≠ [] := by
    rintro rfl
    exact absurd (splits_symbol? h).2 (by simp [(splits_symbol? h).1])
  unfold symbol? at h ⊢
  generalize Symbol.all = symbols at h ⊢
  induction symbols with
  | nil => cases h
  | cons sym symbols ih =>
    rw [List.findSome?_cons] at h ⊢
    cases hd : Text.dropStart? sym.text.toList s with
    | none =>
      rw [hd] at h
      rw [dropStart?_append_of_none ht hne (ends_of_mem_tail_text sym) hd]
      exact ih h
    | some r =>
      have hr : s ++ t = sym.text.toList ++ (r ++ t) := by
        rw [Text.dropStart?_eq_some_iff.1 hd, List.append_assoc]
      rw [hd] at h
      rw [hr, Text.dropStart?_append]
      cases h
      rfl

theorem word?_append_of_none {s : List Char} (hne : s ≠ []) (h : word? s = none) (t : List Char) :
    word? (s ++ t) = none := by
  cases s with
  | nil => exact (hne rfl).elim
  | cons c s =>
    by_cases hc : Text.isIdentStart c = true
    · simp [word?, Text.splitIdentifier?, hc] at h
    · simp [word?, Text.splitIdentifier?, hc]

theorem splitQuoted?_append {q : Char} {s b r : List Char} (h : splitQuoted? q s = some (b, r))
    (t : List Char) : splitQuoted? q (s ++ t) = some (b, r ++ t) := by
  fun_induction splitQuoted? q s generalizing b with
  | case1 => cases h
  | case2 s =>
    cases h
    rw [List.cons_append, splitQuoted?.eq_def]
    exact if_pos rfl
  | case3 => cases h
  | case4 => cases h
  | case5 d r' hd hq ih =>
    obtain ⟨⟨b', r''⟩, hp, e⟩ := Option.map_eq_some_iff.1 h
    cases e
    rw [List.cons_append, List.cons_append, splitQuoted?.eq_def]
    simp [hq, hd, ih hp]
  | case6 c s hq hb ih =>
    obtain ⟨⟨b', r''⟩, hp, e⟩ := Option.map_eq_some_iff.1 h
    cases e
    rw [List.cons_append, splitQuoted?.eq_def]
    simp [hq, hb, ih hp]

theorem splitVerbatim?_append {s b r : List Char} (h : splitVerbatim? s = some (b, r))
    (t : List Char) : splitVerbatim? (s ++ t) = some (b, r ++ t) := by
  induction s generalizing b with
  | nil => cases h
  | cons c s ih =>
    rw [splitVerbatim?] at h
    rw [List.cons_append, splitVerbatim?]
    split at h
    · next hc =>
      cases h
      rw [if_pos hc]
    · next hc =>
      obtain ⟨⟨b', r'⟩, hp, e⟩ := Option.map_eq_some_iff.1 h
      cases e
      rw [if_neg hc, ih hp]
      rfl

theorem quoted?_append {s : List Char} {x : Scanned} (h : quoted? s = some x) (t : List Char) :
    quoted? (s ++ t) = some (x.followedBy t) := by
  cases s with
  | nil => cases h
  | cons q s =>
    rw [quoted?] at h
    rw [List.cons_append, quoted?]
    split at h
    · next hq =>
      obtain ⟨p, hp, hd⟩ := Option.bind_eq_some_iff.1 h
      obtain ⟨u, hu, e⟩ := Option.map_eq_some_iff.1 hd
      cases e
      rw [if_pos hq, splitQuoted?_append hp, Option.bind_some, hu]
      rfl
    · next hq =>
      rw [if_neg hq]
      split at h
      · next hb =>
        obtain ⟨p, hp, e⟩ := Option.map_eq_some_iff.1 h
        cases e
        rw [if_pos hb, splitVerbatim?_append hp]
        rfl
      · cases h

theorem quoted?_append_of_none {s : List Char} {x : Scanned} (h : symbol? s = some x)
    (t : List Char) : quoted? (s ++ t) = none := by
  obtain ⟨sym, -, hs⟩ := List.exists_of_findSome?_eq_some h
  obtain ⟨r, hr, -⟩ := Option.map_eq_some_iff.1 hs
  rw [Text.dropStart?_eq_some_iff.1 hr]
  cases sym <;> rfl

/-- A text that begins with a token begins with the same one in front of any text before which
tokens end. -/
theorem token?_append {t : List Char} (ht : EndsToken t) {s : List Char} {x : Scanned}
    (h : token? s = some x) : token? (s ++ t) = some (x.followedBy t) := by
  have hne : s ≠ [] := by
    rintro rfl
    exact absurd (splits_token? h).2 (by simp [(splits_token? h).1])
  unfold token? at h ⊢
  cases hw : word? s with
  | some y =>
    rw [hw] at h
    cases h
    rw [word?_append ht hw]
  | none =>
    rw [hw] at h
    rw [word?_append_of_none hne hw]
    cases hn : number? s with
    | some y =>
      rw [hn] at h
      cases h
      rw [number?_append ht hn]
    | none =>
      rw [hn] at h
      rw [number?_append_of_none ht hn]
      cases hq : quoted? s with
      | some y =>
        rw [hq] at h
        cases h
        rw [quoted?_append hq]
      | none =>
        rw [hq] at h
        rw [quoted?_append_of_none h, symbol?_append ht h]

end Lexer

end IndentMarkup
