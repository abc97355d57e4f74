import IndentMarkup.Proofs.Expr.Steps
import Mathlib.Computability.Language

/-!
# Readers that look one token ahead

A reader foresees its input if what it finds uses up a word of its language, if the tokens in front
of those at which it fails can be completed to such a word, and if it does the same on all inputs
that agree up to the token behind the tokens used, or up to the one at which it failed. A name with
a parenthesis behind it is left out, because whether it is a call depends on everything up to the
other parenthesis. Readers one behind the other foresee their input if each does, and the second
begins with no parenthesis.
-/
namespace IndentMarkup

namespace Parser

/-- A reader without the bound on the rest that it leaves. -/
abbrev Reader (α : Type) : Type := List Token → Except (List Token) (α × List Token)

/-- Tokens that end in a name, in front of tokens that begin with a parenthesis. -/
def AtCall (us vs : List Token) : Prop :=
  (∃ n, us.getLast? = some (.ident n)) ∧ vs.head? = some (.symbol .lParen)

theorem AtCall.append_left {us vs : List Token} (h : AtCall us vs) (ws : List Token) :
    AtCall (ws ++ us) vs := by
  obtain ⟨⟨n, hn⟩, hv⟩ := h
  exact ⟨⟨n, by rw [List.getLast?_append, hn]; rfl⟩, hv⟩

def only (t : Token) : Language Token := {[t]}

theorem mem_only_mul {t : Token} {L : Language Token} {us : List Token} :
    us ∈ only t * L ↔ ∃ vs ∈ L, us = t :: vs := by
  rw [Language.mem_mul]
  constructor
  · intro h
    obtain ⟨_, rfl, vs, hv, rfl⟩ := h
    exact ⟨vs, hv, rfl⟩
  · intro h
    obtain ⟨vs, hv, rfl⟩ := h
    exact ⟨[t], rfl, vs, hv, rfl⟩

theorem mem_only {t : Token} {us : List Token} : us ∈ only t ↔ us = [t] := Iff.rfl

theorem exists_mem_mul {L M : Language Token} (hL : ∃ us, us ∈ L) (hM : ∃ us, us ∈ M) :
    ∃ us, us ∈ L * M := by
  obtain ⟨us, hu⟩ := hL
  obtain ⟨vs, hv⟩ := hM
  exact ⟨us ++ vs, Language.append_mem_mul hu hv⟩

/-- A language that may follow a name: it has words, and none of them begins with a parenthesis. -/
structure Follows (L : Language Token) : Prop where
  exists_mem : ∃ us, us ∈ L
  not_lParen : ∀ us ∈ L, us.head? ≠ some (.symbol .lParen)

namespace Follows

theorem one : Follows 1 where
  exists_mem := ⟨[], Language.nil_mem_one⟩
  not_lParen us h := by
    rw [(Language.mem_one us).1 h]
    nofun

theorem only_mul {t : Token} (ht : t ≠ .symbol .lParen) {L : Language Token} (hL : ∃ us, us ∈ L) :
    Follows (only t * L) where
  exists_mem := by
    obtain ⟨us, hu⟩ := hL
    exact ⟨t :: us, mem_only_mul.2 ⟨us, hu, rfl⟩⟩
  not_lParen us h := by
    obtain ⟨vs, -, rfl⟩ := mem_only_mul.1 h
    exact fun e => ht (Option.some.inj e)

theorem only {t : Token} (ht : t ≠ .symbol .lParen) : Follows (only t) where
  exists_mem := ⟨[t], rfl⟩
  not_lParen us h := by
    rw [mem_only.1 h]
    exact fun e => ht (Option.some.inj e)

theorem add {L M : Language Token} (hL : Follows L) (hM : Follows M) : Follows (L + M) where
  exists_mem := by
    obtain ⟨us, hu⟩ := hL.exists_mem
    exact ⟨us, .inl hu⟩
  not_lParen us h := h.elim (hL.not_lParen us) (hM.not_lParen us)

theorem mul {L M : Language Token} (hL : Follows L) (hM : Follows M) : Follows (L * M) where
  exists_mem := exists_mem_mul hL.exists_mem hM.exists_mem
  not_lParen us h := by
    obtain ⟨vs, hv, ws, hw, rfl⟩ := Language.mem_mul.1 h
    cases vs with
    | nil => exact hM.not_lParen ws hw
    | cons t vs => exact hL.not_lParen (t :: vs) hv

/-- A call in front of one word would be there in front of every word with the same beginning. -/
theorem not_atCall {L : Language Token} (hL : Follows L) {us vs ws r : List Token}
    (hw : vs ++ ws ∈ L) (h : ¬AtCall (us ++ vs) r) : ¬AtCall us (vs ++ r) := by
  cases vs with
  | nil => rwa [List.append_nil] at h
  | cons t vs => exact fun hc => hL.not_lParen _ hw hc.2

end Follows

/-- Tokens with the same first token begin with the same one. -/
theorem ne_cons_of_head {t : Token} {ts us : List Token} (h : ∀ r, ts ≠ t :: r)
    (hu : us.head? = ts.head?) (r : List Token) : us ≠ t :: r := by
  intro e
  rw [e, List.head?_cons] at hu
  obtain ⟨r', hr⟩ := List.head?_eq_some_iff.1 hu.symm
  exact h r' hr

/-- A reader uses up a word of a language or fails behind the beginning of one, and does the same
with everything that agrees with its input up to the next token. -/
structure Foresees {α : Type} (L : Language Token) (read : Reader α) (ts : List Token) : Prop where
  found {v : α} {r : List Token} (h : read ts = .ok (v, r)) : ∃ us ∈ L, ts = us ++ r ∧
    ∀ r', r'.head? = r.head? → ¬AtCall us r → read (us ++ r') = .ok (v, r')
  failed {r : List Token} (h : read ts = .error r) : ∃ us, ts = us ++ r ∧ (∃ vs, us ++ vs ∈ L) ∧
    ∀ r', r'.head? = r.head? → ¬AtCall us r → read (us ++ r') = .error r'

namespace Foresees

variable {α β : Type} {L M : Language Token} {ts : List Token}

theorem mono {read : Reader α} (h : Foresees L read ts) (hL : ∀ us ∈ L, us ∈ M) :
    Foresees M read ts where
  found hf := by
    obtain ⟨us, hu, e, hr⟩ := h.found hf
    exact ⟨us, hL us hu, e, hr⟩
  failed hf := by
    obtain ⟨us, e, ⟨vs, hv⟩, hr⟩ := h.failed hf
    exact ⟨us, e, ⟨vs, hL _ hv⟩, hr⟩

/-- Readers that agree on all inputs with the same first token foresee the same. -/
theorem of_head {read other : Reader α} (h : Foresees L other ts)
    (he : ∀ us : List Token, us.head? = ts.head? → read us = other us) : Foresees L read ts where
  found {v r} hf := by
    rw [he ts rfl] at hf
    obtain ⟨us, hu, rfl, hr⟩ := h.found hf
    refine ⟨us, hu, rfl, fun r' h' hc => ?_⟩
    rw [he _ (by rw [List.head?_append, List.head?_append, h'])]
    exact hr r' h' hc
  failed {r} hf := by
    rw [he ts rfl] at hf
    obtain ⟨us, rfl, hv, hr⟩ := h.failed hf
    refine ⟨us, rfl, hv, fun r' h' hc => ?_⟩
    rw [he _ (by rw [List.head?_append, List.head?_append, h'])]
    exact hr r' h' hc

theorem congr {read other : Reader α} (he : ∀ us, read us = other us)
    (h : Foresees L other ts) : Foresees L read ts :=
  h.of_head fun us _ => he us

/-- A reader that uses up nothing. -/
theorem pure (v : α) (ts : List Token) : Foresees 1 (fun us => .ok (v, us)) ts where
  found hf := by
    cases hf
    exact ⟨[], Language.nil_mem_one, rfl, fun r' _ _ => rfl⟩
  failed hf := by cases hf

/-- A reader that fails at once. -/
theorem fail (hL : ∃ us, us ∈ L) (ts : List Token) :
    Foresees L (fun us => (.error us : Except (List Token) (α × List Token))) ts where
  found hf := by cases hf
  failed hf := by
    cases hf
    exact ⟨[], rfl, hL, fun r' _ _ => rfl⟩

/-- A reader that goes on as another behind its first token. -/
theorem cons {t : Token} {read other : Reader α} (he : ∀ us, read (t :: us) = other us)
    (h : Foresees L other ts) : Foresees (only t * L) read (t :: ts) where
  found {v r} hf := by
    rw [he] at hf
    obtain ⟨us, hu, rfl, hr⟩ := h.found hf
    refine ⟨t :: us, mem_only_mul.2 ⟨us, hu, rfl⟩, rfl, fun r' h' hc => ?_⟩
    rw [List.cons_append, he]
    exact hr r' h' fun hc' => hc (hc'.append_left [t])
  failed {r} hf := by
    rw [he] at hf
    obtain ⟨us, rfl, ⟨vs, hv⟩, hr⟩ := h.failed hf
    refine ⟨t :: us, rfl, ⟨vs, mem_only_mul.2 ⟨us ++ vs, hv, rfl⟩⟩, fun r' h' hc => ?_⟩
    rw [List.cons_append, he]
    exact hr r' h' fun hc' => hc (hc'.append_left [t])

/-- Readers one behind the other. -/
theorem bind {read : Reader α} {next : α × List Token → Except (List Token) (β × List Token)}
    (h : Foresees L read ts) (hM : Follows M)
    (hn : ∀ v r, read ts = .ok (v, r) → Foresees M (fun us => next (v, us)) r) :
    Foresees (L * M) (fun us => read us >>= next) ts where
  found {w r} hf := by
    cases hx : read ts with
    | error e =>
      rw [hx] at hf
      cases hf
    | ok p =>
      obtain ⟨v, r₁⟩ := p
      rw [hx, ok_bind] at hf
      obtain ⟨us, hu, rfl, hr⟩ := h.found hx
      obtain ⟨vs, hv, rfl, hs⟩ := (hn v _ hx).found hf
      refine ⟨us ++ vs, Language.append_mem_mul hu hv, (List.append_assoc _ _ _).symm,
        fun r' h' hc => ?_⟩
      have hw : vs ++ [] ∈ M := by rwa [List.append_nil]
      have hu' := hM.not_atCall hw hc
      rw [List.append_assoc, hr (vs ++ r') (by rw [List.head?_append, List.head?_append, h']) hu',
        ok_bind]
      exact hs r' h' fun hc' => hc (hc'.append_left us)
  failed {r} hf := by
    cases hx : read ts with
    | error e =>
      rw [hx] at hf
      cases hf
      obtain ⟨us, e, ⟨vs, hv⟩, hr⟩ := h.failed hx
      obtain ⟨ws, hw⟩ := hM.exists_mem
      refine ⟨us, e, ⟨vs ++ ws, ?_⟩, fun r' h' hc => ?_⟩
      · rw [← List.append_assoc]
        exact Language.append_mem_mul hv hw
      · rw [hr r' h' hc, error_bind]
    | ok p =>
      obtain ⟨v, r₁⟩ := p
      rw [hx, ok_bind] at hf
      obtain ⟨us, hu, rfl, hr⟩ := h.found hx
      obtain ⟨vs, rfl, ⟨ws, hw⟩, hs⟩ := (hn v _ hx).failed hf
      refine ⟨us ++ vs, (List.append_assoc _ _ _).symm, ⟨ws, ?_⟩, fun r' h' hc => ?_⟩
      · rw [List.append_assoc]
        exact Language.append_mem_mul hu hw
      · have hu' := hM.not_atCall hw hc
        rw [List.append_assoc, hr (vs ++ r') (by rw [List.head?_append, List.head?_append, h'])
          hu', ok_bind]
        exact hs r' h' fun hc' => hc (hc'.append_left us)

/-- What a reader finds may be changed. -/
theorem map {read : Reader α} (f : α → β) (h : Foresees L read ts) :
    Foresees L (fun us => read us >>= fun p => .ok (f p.1, p.2)) ts := by
  rw [← mul_one L]
  exact h.bind .one fun v r _ => pure (f v) r

/-- A token that has to be there, in front of another reader. -/
theorem after {t : Token} {read : Reader α} (hL : ∃ us, us ∈ L)
    (h : ∀ r, ts = t :: r → Foresees L read r) :
    Foresees (only t * L) (fun us => Parser.after t us >>= read) ts := by
  by_cases ht : ∃ r, ts = t :: r
  · obtain ⟨r, rfl⟩ := ht
    refine cons (fun us => ?_) (h r rfl)
    rw [after_self, ok_bind]
  · refine of_head (fail ?_ ts) fun us hu => ?_
    · obtain ⟨us, hu⟩ := hL
      exact ⟨t :: us, mem_only_mul.2 ⟨us, hu, rfl⟩⟩
    · have hne := ne_cons_of_head (fun r e => ht ⟨r, e⟩) hu
      cases us with
      | nil => rfl
      | cons u us =>
        rw [Parser.after, if_neg fun e => hne us (by rw [e]), error_bind]

/-- A token that has to be there at the end. -/
theorem close {t : Token} (v : α) :
    Foresees (only t) (fun us => Parser.after t us >>= fun r => .ok (v, r)) ts := by
  rw [← mul_one (only t)]
  exact after ⟨[], Language.nil_mem_one⟩ fun r _ => pure v r

end Foresees

end Parser

end IndentMarkup
