import IndentMarkup.Proofs.Expr.Lexemes

/-!
# Texts that are cut at a place where tokens end

A text that has no tokens has none behind which more is put, unless the place where reading its
tokens stops is a quote that is never closed: such a quote can be closed by what follows. Without
one, the tokens of a text and of what stands behind it are those of the two texts.
-/
namespace IndentMarkup

namespace Lexer

/-- What is left of a text where no token begins; nothing if the text is made up of tokens. -/
def fault (s : List Char) : List Char :=
  match s with
  | [] => []
  | c :: r =>
    if isSpace c then fault r
    else
      match _h : token? (c :: r) with
      | none => c :: r
      | some x => fault x.rest
termination_by s.length
decreasing_by
  · exact Nat.lt_succ_self _
  · exact length_rest_lt _h

/-- Whether a text begins with a quote that is not closed in it. -/
def leavesOpen : List Char → Bool
  | [] => false
  | q :: s =>
    if q = '"' ∨ q = '\x27' then (splitQuoted? q s).isNone
    else q == '\x60' && (splitVerbatim? s).isNone

theorem Spells.of_space {c : Char} {s : List Char} {ts : List Token} (hc : isSpace c = true)
    (h : Spells (c :: s) ts) : Spells s ts := by
  cases h with
  | space _ h => exact h
  | token hx _ =>
    rw [token?_of_isSpace hc] at hx
    cases hx

theorem Spells.of_token {s : List Char} {x : Scanned} {ts : List Token} (hx : token? s = some x)
    (h : Spells s ts) : ∃ us, ts = x.token :: us ∧ Spells x.rest us := by
  cases h with
  | nil => cases hx
  | space hc _ =>
    rw [token?_of_isSpace hc] at hx
    cases hx
  | token hy h =>
    rw [hx] at hy
    cases hy
    exact ⟨_, rfl, h⟩

theorem Spells.of_symbol (sym : Symbol) {s : List Char} {us : List Token}
    (h : sym ∈ [Symbol.lParen, .rParen, .lBrace, .rBrace, .comma, .colon, .question, .plus])
    (hs : Spells (sym.text.toList ++ s) us) : ∃ ts, us = .symbol sym :: ts ∧ Spells s ts :=
  hs.of_token (token?_symbol sym h s)

theorem Spells.of_quote {s t : List Char} {us : List Token}
    (h : Spells (Text.quoteChars s ++ t) us) :
    ∃ ts, us = .str (String.ofList s) :: ts ∧ Spells t ts :=
  h.of_token (token?_quoteChars s t)

theorem Spells.unique {s : List Char} {ts us : List Token} (h : Spells s ts) (h' : Spells s us) :
    ts = us := by
  obtain ⟨lexemes, hl, rfl⟩ := h.scan 0
  obtain ⟨lexemes', hl', rfl⟩ := h'.scan 0
  rw [hl] at hl'
  cases hl'
  rfl

theorem Spells.fault_eq_nil {s : List Char} {ts : List Token} (h : Spells s ts) : fault s = [] := by
  fun_induction fault s generalizing ts with
  | case1 => rfl
  | case2 c r hc ih => exact ih (h.of_space hc)
  | case3 c r hc hx =>
    cases h with
    | space hc' _ => exact (hc hc').elim
    | token hy _ =>
      rw [hx] at hy
      cases hy
  | case4 c r hc x hx ih =>
    obtain ⟨us, -, hu⟩ := h.of_token hx
    exact ih hu

theorem quoted?_append_of_closed {s : List Char} (hs : quoted? s = none)
    (ho : leavesOpen s = false) (hne : s ≠ []) (t : List Char) : quoted? (s ++ t) = none := by
  cases s with
  | nil => exact (hne rfl).elim
  | cons q s =>
    rw [leavesOpen] at ho
    rw [quoted?] at hs
    rw [List.cons_append, quoted?]
    split at hs
    · next hq =>
      rw [if_pos hq] at ho
      -- the quote is closed, so what it holds is no text, whatever stands behind it
      obtain ⟨p, hp⟩ := Option.isSome_iff_exists.1 (Option.isNone_eq_false_iff.1 ho)
      rw [hp, Option.bind_some] at hs
      rw [if_pos hq, splitQuoted?_append hp, Option.bind_some]
      rw [Option.map_eq_none_iff] at hs ⊢
      exact hs
    · next hq =>
      rw [if_neg hq] at ho
      split at hs
      · next hb =>
        rw [Option.map_eq_none_iff] at hs
        simp [hb, hs] at ho
      · next hb => rw [if_neg hq, if_neg hb]

section

variable {t : List Char} (ht : EndsToken t)
include ht

theorem symbol?_append_of_none {s : List Char} (hs : symbol? s = none) (hne : s ≠ []) :
    symbol? (s ++ t) = none := by
  unfold symbol? at hs ⊢
  rw [List.findSome?_eq_none_iff] at hs ⊢
  intro sym hm
  have h := hs sym hm
  rw [Option.map_eq_none_iff] at h ⊢
  exact dropStart?_append_of_none ht hne (ends_of_mem_tail_text sym) h

/-- Where no token begins, none comes to do so by what is put behind it, unless there is an open
quote. -/
theorem token?_append_of_none {s : List Char} (hs : token? s = none) (ho : leavesOpen s = false)
    (hne : s ≠ []) : token? (s ++ t) = none := by
  unfold token? at hs ⊢
  split at hs
  · cases hs
  · next hw =>
    rw [word?_append_of_none hne hw]
    split at hs
    · cases hs
    · next hn =>
      rw [number?_append_of_none ht hn]
      split at hs
      · cases hs
      · next hq =>
        rw [quoted?_append_of_closed hq ho hne]
        exact symbol?_append_of_none ht hs hne

/-- In front of a place where tokens end, the tokens of two texts fall apart into those of each. -/
theorem Spells.exists_of_append {s : List Char} {us : List Token} (h : Spells (s ++ t) us)
    (ho : leavesOpen (fault s) = false) :
    ∃ ts vs, us = ts ++ vs ∧ Spells s ts ∧ Spells t vs := by
  fun_induction fault s generalizing us with
  | case1 => exact ⟨[], us, rfl, .nil, h⟩
  | case2 c r hc ih =>
    obtain ⟨ts, vs, e, hr, hv⟩ := ih (h.of_space hc) ho
    exact ⟨ts, vs, e, .space hc hr, hv⟩
  | case3 c r hc hx =>
    have hn := token?_append_of_none ht hx ho (List.cons_ne_nil c r)
    cases h with
    | space hc' _ => exact (hc hc').elim
    | token hy _ =>
      rw [hn] at hy
      cases hy
  | case4 c r hc x hx ih =>
    obtain ⟨ws, rfl, hw⟩ := h.of_token (token?_append ht hx)
    obtain ⟨ts, vs, rfl, hr, hv⟩ := ih hw ho
    exact ⟨x.token :: ts, vs, rfl, .token hx hr, hv⟩

end

end Lexer

end IndentMarkup
