import IndentMarkup.Expr.Reading
import IndentMarkup.Proofs.Expr.Soundness
import IndentMarkup.Proofs.Expr.Words

/-!
# Where reading fails

An expression fails to be read at the first token that cannot continue one. The tokens in front of
that token can be completed to an expression, and none begins with those and the token itself. A
parenthesis behind a name is the exception, since a call that cannot be read to its end is reported
there. If no token is to blame, all tokens can be completed. The readers of expressions foresee
their input, each by the rules of the grammar that it follows, and this carries over to whole
expressions.
-/
namespace IndentMarkup

namespace Grammar

open IndentMarkup.Parser

theorem follows_operandsWords (k : Nat) : Follows (operandsWords k) where
  exists_mem := ⟨[], [], .nil⟩
  not_lParen us h := by
    obtain ⟨rest, h⟩ := h
    cases h with
    | nil => nofun
    | cons hs _ _ =>
      intro e
      cases e
      cases (mem_operators_iff.1 hs).1

theorem follows_accessesWords : Follows accessesWords where
  exists_mem := ⟨[], fun target => ⟨target, .nil⟩⟩
  not_lParen us h := by
    obtain ⟨e, h⟩ := h (.constant .null)
    cases h <;> nofun

/-- A reader of one token of some kind, which fails at every other. -/
theorem foresees_token (kind : Token → Option String) (read : Reader String)
    (hk : ∃ t n, kind t = some n) (he : read [] = .error [])
    (hs : ∀ t n r, kind t = some n → read (t :: r) = .ok (n, r))
    (hn : ∀ t r, kind t = none → read (t :: r) = .error (t :: r)) (ts : List Token) :
    Foresees (tokenWords kind) read ts := by
  have hw : ∃ us, us ∈ tokenWords kind := by
    obtain ⟨t, n, hk⟩ := hk
    exact ⟨[t], t, n, rfl, hk⟩
  cases ts with
  | nil =>
    refine (Foresees.fail hw []).of_head fun us hu => ?_
    rw [List.head?_eq_none_iff.1 hu, he]
  | cons t r =>
    cases hv : kind t with
    | some n =>
      refine ((Foresees.pure n r).cons fun us => hs t n us hv).mono fun us hu => ?_
      obtain ⟨vs, h, rfl⟩ := mem_only_mul.1 hu
      exact ⟨t, n, by rw [(Language.mem_one vs).1 h], hv⟩
    | none =>
      refine (Foresees.fail hw (t :: r)).of_head fun us hu => ?_
      obtain ⟨us, rfl⟩ := List.head?_eq_some_iff.1 hu
      exact hn t us hv

theorem foresees_name (ts : List Token) :
    Foresees nameWords (fun us => Parser.found (name us)) ts := by
  refine foresees_token Token.name? (fun us => Parser.found (name us)) ⟨.ident "x", "x", rfl⟩ rfl
    (fun t n r h => found_name h r) (fun t r h => ?_) ts
  rw [name]
  split
  · next h' =>
    rw [h] at h'
    cases h'
  · rfl

theorem foresees_key (ts : List Token) :
    Foresees keyWords (fun us => Parser.found (key us)) ts := by
  refine foresees_token Token.key? (fun us => Parser.found (key us)) ⟨.ident "x", "x", rfl⟩ rfl
    (fun t n r h => found_key h r) (fun t r h => ?_) ts
  rw [key]
  split
  · next h' =>
    rw [h] at h'
    cases h'
  · rfl

theorem foresees_indexName (ts : List Token) :
    Foresees (1 + only (.symbol .comma) * nameWords) (fun us => foundAny (indexName us)) ts := by
  by_cases hc : ∃ r, ts = .symbol .comma :: r
  · obtain ⟨r, rfl⟩ := hc
    refine (((foresees_name r).map some).cons fun us => ?_).mono fun us hu => .inr hu
    exact foundAny_indexName_comma us
  · refine ((Foresees.pure none ts).of_head fun us hu => ?_).mono fun us hu => .inl hu
    exact foundAny_indexName_of_ne (ne_cons_of_head (fun r e => hc ⟨r, e⟩) hu)

/-- Whether tokens begin with an operator depends on the first of them. -/
theorem operator?_eq_none_of_head {k : Nat} {ts us : List Token} (h : operator? k ts = none)
    (hu : us.head? = ts.head?) : operator? k us = none := by
  cases ho : operator? k us with
  | none => rfl
  | some p =>
    obtain ⟨op, r⟩ := p
    obtain ⟨s, rfl, hs, hl⟩ := eq_cons_of_operator? ho
    obtain ⟨r', rfl⟩ := List.head?_eq_some_iff.1 hu.symm
    rw [operator?_of_binaryOp? hs hl] at h
    cases h

/-- Behind a part of a list there is a comma with the parts that follow or the closing symbol. -/
theorem foresees_continued {α : Type} {close : Symbol} {v : α} {L : Language Token}
    {read next : Reader α} {ts : List Token}
    (hn : ∀ r, read (.symbol .comma :: r) = next r)
    (hc : ∀ us, (∀ r, us ≠ .symbol .comma :: r) →
      read us = after (.symbol close) us >>= fun r => .ok (v, r))
    (h : ∀ r, ts = .symbol .comma :: r → Foresees L next r) :
    Foresees (only (.symbol .comma) * L + only (.symbol close)) read ts := by
  by_cases hs : ∃ r, ts = .symbol .comma :: r
  · obtain ⟨r, rfl⟩ := hs
    exact ((h r rfl).cons hn).mono fun us hu => .inl hu
  · refine (Foresees.of_head (.close v) fun us hu => ?_).mono fun us hu => .inr hu
    exact hc us (ne_cons_of_head (fun r e => hs ⟨r, e⟩) hu)

theorem follows_continued (close : Symbol) (hc : close ≠ .lParen) {L : Language Token}
    (hL : ∃ us, us ∈ L) : Follows (only (.symbol .comma) * L + only (.symbol close)) :=
  .add (.only_mul (by decide) hL) (.only fun e => hc (Token.symbol.inj e))

/-- A reader that fails at a token fails at it in front of whatever stands behind. -/
theorem foresees_operand_of_error {t : Token}
    (h : ∀ r, Parser.found (operand (t :: r)) = .error (t :: r)) (r : List Token) :
    Foresees operandWords (fun us => Parser.found (operand us)) (t :: r) := by
  refine (Foresees.fail ⟨_, null_mem_operandWords⟩ (t :: r)).of_head fun us hu => ?_
  obtain ⟨us, rfl⟩ := List.head?_eq_some_iff.1 hu
  exact h us

theorem foresees_operand_constant {t : Token} {e : Expr} (h : t.constant? = some e)
    (r : List Token) : Foresees operandWords (fun us => Parser.found (operand us)) (t :: r) := by
  refine ((Foresees.pure e r).cons fun us => found_operand_constant h us).mono fun us hu => ?_
  obtain ⟨vs, hv, rfl⟩ := mem_only_mul.1 hu
  rw [(Language.mem_one vs).1 hv]
  exact ⟨e, .constant h⟩

theorem foresees_operand_var (n : String) {r : List Token} (h : ∀ r', r ≠ .symbol .lParen :: r') :
    Foresees operandWords (fun us => Parser.found (operand us)) (.ident n :: r) := by
  have hv : [.ident n] ∈ operandWords := ⟨_, .var⟩
  constructor
  · intro v r' hf
    rw [found_operand_var n h] at hf
    cases hf
    refine ⟨_, hv, rfl, fun r' h' _ => ?_⟩
    exact found_operand_var n (ne_cons_of_head h h')
  · intro r' hf
    rw [found_operand_var n h] at hf
    cases hf

/-- A call that cannot be read to its end is reported at its first parenthesis. That is the place
behind a name at which nothing can be said about other tokens that follow. -/
theorem foresees_operand_call (n : String) {r : List Token}
    (h : Foresees (itemsWords * only (.symbol .rParen))
      (fun us => Parser.found (items .rParen us)) r) :
    Foresees operandWords (fun us => Parser.found (operand us))
      (.ident n :: .symbol .lParen :: r) := by
  constructor
  · intro v r' hf
    rw [found_operand_call] at hf
    split at hf
    · next p hp =>
      cases hf
      obtain ⟨us, hu, rfl, hs⟩ := h.found hp
      refine ⟨.ident n :: .symbol .lParen :: us, mem_operandWords_of_call hu, rfl,
        fun r' h' hc => ?_⟩
      have hr := hs r' h' fun hc' => hc (hc'.append_left [.ident n, .symbol .lParen])
      rw [List.cons_append, List.cons_append, found_operand_call, hr]
    · cases hf
  · intro r' hf
    rw [found_operand_call] at hf
    split at hf
    · cases hf
    · cases hf
      exact ⟨[.ident n], rfl, ⟨[], _, .var⟩, fun r' _ hc => (hc ⟨⟨n, rfl⟩, rfl⟩).elim⟩

mutual

theorem foresees_condition (ts : List Token) :
    Foresees conditionWords (fun us => Parser.found (condition us)) ts := by
  refine .mono ?_ fun us hu => mem_conditionWords_of_choice hu
  refine .congr found_condition ?_
  have hc : ∃ us, us ∈ conditionWords := ⟨_, null_mem_conditionWords⟩
  have hs : Follows (only (.symbol .colon) * conditionWords) := .only_mul (by decide) hc
  have hv := exists_mem_mul hc hs.exists_mem
  refine (foresees_level 6 ts).bind (.add .one (.only_mul (by decide) hv))
    fun test r h => ?_
  have l := length_of_found h
  by_cases hq : ∃ r₁, r = .symbol .question :: r₁
  · obtain ⟨r₁, e₁⟩ := hq
    have l₁ : r.length = r₁.length + 1 := by rw [e₁, List.length_cons]
    rw [e₁]
    refine (Foresees.cons (fun us => rfl) ?_).mono fun us hu => .inr hu
    dsimp only
    refine (foresees_condition r₁).bind hs fun whenTrue r₂ h₂ => ?_
    have l₂ := length_of_found h₂
    dsimp only
    refine .after hc fun r₃ e₃ => ?_
    have l₃ : r₂.length = r₃.length + 1 := by rw [e₃, List.length_cons]
    exact (foresees_condition r₃).map (Expr.cond test whenTrue)
  · refine ((Foresees.pure test r).of_head fun us hu => ?_).mono fun us hu => .inl hu
    have hne := ne_cons_of_head (fun r₁ e => hq ⟨r₁, e⟩) hu
    dsimp only
    split
    · exact (hne _ rfl).elim
    · rfl
termination_by 16 * ts.length + 12
decreasing_by all_goals omega

theorem foresees_level (k : Nat) (ts : List Token) :
    Foresees (levelWords k) (fun us => Parser.found (level k us)) ts := by
  match k with
  | 0 =>
    refine (Foresees.congr found_level_zero (foresees_signed ts)).mono fun us hu => ?_
    obtain ⟨e, h⟩ := hu
    exact ⟨e, .signed h⟩
  | k + 1 =>
    refine .mono ?_ fun us hu => mem_levelWords_of_run hu
    refine .congr (found_level_succ k) ?_
    refine (foresees_level k ts).bind (follows_operandsWords k) fun first r h => ?_
    have l := length_of_found h
    exact (foresees_operands k r).map (Expr.ofOperands first)
termination_by 16 * ts.length + 2 + k
decreasing_by all_goals omega

theorem foresees_operands (k : Nat) (ts : List Token) :
    Foresees (operandsWords k) (fun us => foundAny (operands k us)) ts := by
  match ho : operator? (k + 1) ts with
  | none =>
    refine ((Foresees.pure [] ts).of_head fun us hu => ?_).mono fun us hu => ?_
    · exact foundAny_operands_none (operator?_eq_none_of_head ho hu)
    · rw [(Language.mem_one us).1 hu]
      exact ⟨[], .nil⟩
  | some (op, r) =>
    have l := length_operator? ho
    obtain ⟨s, e, hs, hl⟩ := eq_cons_of_operator? ho
    rw [e]
    refine .mono ?_ fun us hu => mem_operandsWords_of_cons hs hl hu
    refine .cons (fun us => foundAny_operands_some (operator?_of_binaryOp? hs hl us)) ?_
    refine (foresees_level k r).bind (follows_operandsWords k) fun operand r₁ h₁ => ?_
    have l₁ := length_of_found h₁
    exact (foresees_operands k r₁).map fun rest => (op, operand) :: rest
termination_by 16 * ts.length
decreasing_by all_goals omega

theorem foresees_signed (ts : List Token) :
    Foresees signedWords (fun us => Parser.found (signed us)) ts := by
  by_cases hb : ∃ r, ts = .symbol .bang :: r
  · obtain ⟨r, e⟩ := hb
    have l : ts.length = r.length + 1 := by rw [e, List.length_cons]
    rw [e]
    refine .mono ?_ fun us hu => mem_signedWords_of_sign (s := .bang) rfl hu
    exact .cons found_signed_bang ((foresees_signed r).map (Expr.unary .not))
  by_cases hm : ∃ r, ts = .symbol .minus :: r
  · obtain ⟨r, e⟩ := hm
    have l : ts.length = r.length + 1 := by rw [e, List.length_cons]
    rw [e]
    refine .mono ?_ fun us hu => mem_signedWords_of_sign (s := .minus) rfl hu
    exact .cons found_signed_minus ((foresees_signed r).map (Expr.unary .neg))
  · refine .mono ?_ fun us hu => mem_signedWords_of_accessed hu
    refine .of_head ?_ fun us hu => found_signed_of_ne
      (ne_cons_of_head (fun r e => hb ⟨r, e⟩) hu) (ne_cons_of_head (fun r e => hm ⟨r, e⟩) hu)
    refine (foresees_operand ts).bind follows_accessesWords fun target r h => ?_
    have l := length_of_found h
    exact foresees_accesses target r
termination_by 16 * ts.length + 1
decreasing_by all_goals omega

theorem foresees_accesses (target : Expr) (ts : List Token) :
    Foresees accessesWords (fun us => foundAny (accesses target us)) ts := by
  by_cases hd : ∃ r, ts = .symbol .dot :: r
  · obtain ⟨r, e⟩ := hd
    have l : ts.length = r.length + 1 := by rw [e, List.length_cons]
    rw [e]
    refine .mono ?_ fun us hu => mem_accessesWords_of_member hu
    refine .cons (foundAny_accesses_dot target) ?_
    refine (foresees_name r).bind follows_accessesWords fun n r₁ h₁ => ?_
    have l₁ := length_of_found h₁
    exact foresees_accesses (.member target n) r₁
  by_cases hb : ∃ r, ts = .symbol .lBracket :: r
  · obtain ⟨r, e⟩ := hb
    have l : ts.length = r.length + 1 := by rw [e, List.length_cons]
    rw [e]
    refine .mono ?_ fun us hu => mem_accessesWords_of_index hu
    refine .cons (foundAny_accesses_bracket target) ?_
    have ha := follows_accessesWords.exists_mem
    refine (foresees_condition r).bind (.only_mul (by decide) ha) fun position r₁ h₁ => ?_
    have l₁ := length_of_found h₁
    dsimp only
    refine .after ha fun r₂ e₂ => ?_
    have l₂ : r₁.length = r₂.length + 1 := by rw [e₂, List.length_cons]
    exact foresees_accesses (.index target position) r₂
  · refine ((Foresees.pure target ts).of_head fun us hu => ?_).mono
      fun us hu => mem_accessesWords_of_nil hu
    exact foundAny_accesses_of_ne target (ne_cons_of_head (fun r e => hd ⟨r, e⟩) hu)
      (ne_cons_of_head (fun r e => hb ⟨r, e⟩) hu)
termination_by 16 * ts.length
decreasing_by all_goals omega

theorem foresees_loop (ts : List Token) :
    Foresees operandWords (fun us => Parser.found (operand us)) (.keyword .loop :: ts) := by
  refine .mono ?_ fun us hu => mem_operandWords_of_loop hu
  have hb : ∃ us, us ∈ conditionWords * only (.symbol .rBrace) :=
    exists_mem_mul ⟨_, null_mem_conditionWords⟩ ⟨_, rfl⟩
  have hl : Follows (only (.symbol .lBrace) * _) := .only_mul (by decide) hb
  have hp : Follows (only (.symbol .rParen) * _) := .only_mul (by decide) hl.exists_mem
  have hs := exists_mem_mul ⟨_, null_mem_conditionWords⟩ hp.exists_mem
  have hw : Follows loopWords := .only_mul (by decide) hs
  have hn : ∃ us, us ∈ nameWords := ⟨_, .ident "item", "item", rfl, rfl⟩
  have hi : Follows ((1 + only (.symbol .comma) * nameWords) * loopWords) :=
    .mul (.add .one (.only_mul (by decide) hn)) hw
  refine .cons found_operand_loop ?_
  refine .after (exists_mem_mul hn hi.exists_mem) fun r₁ e₁ => ?_
  have l₁ : ts.length = r₁.length + 1 := by rw [e₁, List.length_cons]
  refine (foresees_name r₁).bind hi fun item r₂ h₂ => ?_
  have l₂ := length_of_found h₂
  dsimp only
  refine (foresees_indexName r₂).bind hw fun position r₃ h₃ => ?_
  have l₃ := length_of_foundAny h₃
  dsimp only
  refine .after hs fun r₄ e₄ => ?_
  have l₄ : r₃.length = r₄.length + 1 := by rw [e₄, List.length_cons]
  refine (foresees_condition r₄).bind hp fun source r₅ h₅ => ?_
  have l₅ := length_of_found h₅
  dsimp only
  refine .after hl.exists_mem fun r₆ e₆ => ?_
  have l₆ : r₅.length = r₆.length + 1 := by rw [e₆, List.length_cons]
  refine .after hb fun r₇ e₇ => ?_
  have l₇ : r₆.length = r₇.length + 1 := by rw [e₇, List.length_cons]
  exact (foresees_condition r₇).bind (.only (by decide)) fun body r₈ h₈ =>
    .close (Expr.loop item position source body)
termination_by 16 * ts.length + 15
decreasing_by all_goals omega

theorem foresees_named (n : String) (ts : List Token) :
    Foresees operandWords (fun us => Parser.found (operand us)) (.ident n :: ts) := by
  by_cases hp : ∃ r, ts = .symbol .lParen :: r
  · obtain ⟨r, e⟩ := hp
    have l : ts.length = r.length + 1 := by rw [e, List.length_cons]
    rw [e]
    exact foresees_operand_call n (foresees_items .rParen (by decide) r)
  · exact foresees_operand_var n fun r e => hp ⟨r, e⟩
termination_by 16 * ts.length + 15
decreasing_by all_goals omega

theorem foresees_bracketed (s : Symbol) (ts : List Token) :
    Foresees operandWords (fun us => Parser.found (operand us)) (.symbol s :: ts) := by
  by_cases ha : s = .lBracket
  · rw [ha]
    refine .mono ?_ fun us hu => mem_operandWords_of_array hu
    exact .cons found_operand_array ((foresees_items .rBracket (by decide) ts).map Expr.array)
  by_cases ho : s = .lBrace
  · rw [ho]
    refine .mono ?_ fun us hu => mem_operandWords_of_object hu
    exact .cons found_operand_object ((foresees_entries ts).map Expr.object)
  by_cases hp : s = .lParen
  · rw [hp]
    refine .mono ?_ fun us hu => mem_operandWords_of_parens hu
    refine .cons found_operand_parens ?_
    exact (foresees_condition ts).bind (.only (by decide)) fun e r h => .close e
  · refine foresees_operand_of_error (fun r => ?_) ts
    rw [operand]
    · rfl
    all_goals simp_all
termination_by 16 * ts.length + 15
decreasing_by all_goals omega

theorem foresees_operand (ts : List Token) :
    Foresees operandWords (fun us => Parser.found (operand us)) ts := by
  match ts with
  | .keyword .loop :: us => exact foresees_loop us
  | .ident n :: us => exact foresees_named n us
  | .symbol s :: us => exact foresees_bracketed s us
  | [] =>
    refine (Foresees.fail ⟨_, null_mem_operandWords⟩ []).of_head fun us hu => ?_
    rw [List.head?_eq_none_iff.1 hu, operand]
    · rfl
    all_goals nofun
  | .keyword .within :: us =>
    refine foresees_operand_of_error (fun r => ?_) us
    rw [operand]
    · rfl
    all_goals nofun
  | .keyword .true :: us | .keyword .false :: us | .keyword .null :: us
  | .keyword .undefined :: us | .number _ :: us | .str _ :: us =>
    exact foresees_operand_constant rfl us
termination_by 16 * ts.length
decreasing_by all_goals (try simp only [List.length_cons]); omega

theorem foresees_items (close : Symbol) (hc : close ≠ .lParen) (ts : List Token) :
    Foresees (itemsWords * only (.symbol close)) (fun us => Parser.found (items close us)) ts := by
  by_cases hs : ∃ r, ts = .symbol close :: r
  · obtain ⟨r, rfl⟩ := hs
    refine .mono ?_ fun us hu => mem_items_of_nil hu
    rw [← mul_one (only (.symbol close))]
    exact .cons (found_items_close close) (.pure [] r)
  · refine .mono ?_ fun us hu => mem_items_of_cons hu
    refine .of_head ?_ fun us hu =>
      found_items_of_ne (ne_cons_of_head (fun r e => hs ⟨r, e⟩) hu)
    refine (foresees_condition ts).bind (follows_continued close hc ⟨_, mem_items_of_nil rfl⟩)
      fun e r h => ?_
    have l := length_of_found h
    refine foresees_continued (v := [e]) (fun us => rfl) (fun us hne => ?_) fun r₁ e₁ => ?_
    · dsimp only
      split
      · exact (hne _ rfl).elim
      · rfl
    · have l₁ : r.length = r₁.length + 1 := by rw [e₁, List.length_cons]
      exact (foresees_items close hc r₁).map fun rest => e :: rest
termination_by 16 * ts.length + 13
decreasing_by all_goals omega

theorem foresees_entries (ts : List Token) :
    Foresees (entriesWords * only (.symbol .rBrace)) (fun us => Parser.found (entries us)) ts := by
  by_cases hs : ∃ r, ts = .symbol .rBrace :: r
  · obtain ⟨r, rfl⟩ := hs
    refine .mono ?_ fun us hu => mem_entries_of_nil hu
    rw [← mul_one (only (.symbol .rBrace))]
    exact .cons found_entries_close (.pure [] r)
  · refine .mono ?_ fun us hu => mem_entries_of_cons hu
    refine .of_head ?_ fun us hu => found_entries_of_ne (ne_cons_of_head (fun r e => hs ⟨r, e⟩) hu)
    have hw : ∃ us, us ∈ entriesWords * only (.symbol .rBrace) := ⟨_, mem_entries_of_nil rfl⟩
    have hv := exists_mem_mul ⟨_, null_mem_conditionWords⟩
      (follows_continued .rBrace (by decide) hw).exists_mem
    refine (foresees_key ts).bind (.only_mul (by decide) hv) fun k r₁ h₁ => ?_
    have l₁ := length_of_found h₁
    dsimp only
    refine .after hv fun r₂ e₂ => ?_
    have l₂ : r₁.length = r₂.length + 1 := by rw [e₂, List.length_cons]
    refine (foresees_condition r₂).bind (follows_continued .rBrace (by decide) hw) fun e r₃ h₃ => ?_
    have l₃ := length_of_found h₃
    refine foresees_continued (v := [(k, e)]) (fun us => rfl) (fun us hne => ?_) fun r₄ e₄ => ?_
    · dsimp only
      split
      · exact (hne _ rfl).elim
      · rfl
    · have l₄ : r₃.length = r₄.length + 1 := by rw [e₄, List.length_cons]
      exact (foresees_entries r₄).map fun rest => (k, e) :: rest
termination_by 16 * ts.length
decreasing_by all_goals omega

end

end Grammar

namespace Parser

/-- Tokens with which an expression begins. -/
def Viable (ts : List Token) : Prop := ∃ us e, whole (ts ++ us) = .ok e

theorem viable_of_mem {ts us : List Token} (h : ts ++ us ∈ Grammar.conditionWords) : Viable ts := by
  obtain ⟨e, h⟩ := h
  exact ⟨us, e, Grammar.whole_eq_ok_iff.2 h⟩

/-- Behind the tokens in front of the failure everything fails that begins with the same token. -/
theorem not_viable {us r : List Token} {t : Token}
    (h : ∀ r', r'.head? = (t :: r).head? → whole (us ++ r') = .error r') : ¬Viable (us ++ [t]) := by
  intro hv
  obtain ⟨vs, e, hv⟩ := hv
  rw [List.append_assoc, h ([t] ++ vs) rfl] at hv
  cases hv

/-- Tokens that are no expression fail behind the beginning of one. -/
theorem whole_failed {ts r : List Token} (h : whole ts = .error r) :
    ∃ us, ts = us ++ r ∧ Viable us ∧
      ∀ t r₀, r = t :: r₀ → ¬AtCall us r → ¬Viable (us ++ [t]) := by
  have hf := Grammar.foresees_condition ts
  rw [whole_eq] at h
  cases hc : found (condition ts) with
  | error r' =>
    rw [hc] at h
    cases h
    obtain ⟨us, e, ⟨vs, hv⟩, hs⟩ := hf.failed hc
    refine ⟨us, e, viable_of_mem hv, fun t r₀ hr hn => not_viable (r := r₀) fun r' h' => ?_⟩
    rw [← hr] at h'
    rw [whole_eq, hs r' h' hn, error_bind]
  | ok p =>
    obtain ⟨e, r'⟩ := p
    rw [hc, ok_bind] at h
    dsimp only at h
    split at h
    · cases h
    · cases h
      obtain ⟨us, hu, he, hs⟩ := hf.found hc
      rw [← List.append_nil us] at hu
      refine ⟨us, he, viable_of_mem hu, fun t r₀ hr hn => not_viable (r := r₀) fun r' h' => ?_⟩
      obtain ⟨r₁, e₁⟩ := List.head?_eq_some_iff.1 h'
      rw [← hr] at h'
      rw [whole_eq, hs r' h' hn, ok_bind, e₁]
      rfl

end Parser

open IndentMarkup.Parser

theorem SyntaxFault.ofRest_nil (lexemes : List Lexeme) : ofRest lexemes [] = .ended := by
  rw [ofRest, List.length_nil, Nat.sub_zero, List.drop_length]

theorem SyntaxFault.ofRest_append (before behind : List Lexeme) (l : Lexeme) :
    ofRest (before ++ l :: behind) ((l :: behind).map Lexeme.token) =
      .unexpected l.token l.start := by
  have hd : (before ++ l :: behind).length - ((l :: behind).map Lexeme.token).length =
      before.length := by
    rw [List.length_append, List.length_map, Nat.add_sub_cancel]
  rw [ofRest, hd, List.drop_left]

/-- What is reported about a text that has tokens and is no expression. -/
theorem Expr.exists_of_read_error {source : String} {lexemes : List Lexeme} {fault : SyntaxFault}
    (ht : tokenize source = .ok lexemes) (h : read source = .error fault) :
    ∃ rest, whole (lexemes.map Lexeme.token) = .error rest ∧ fault = .ofRest lexemes rest := by
  rw [read, ht] at h
  dsimp only at h
  split at h
  · next rest hw =>
    cases h
    exact ⟨rest, hw, rfl⟩
  · cases h

/-- A text that has tokens and is no expression is reported at a token of it, or at its end. The
tokens in front begin an expression, and with the token itself they no longer do, unless it is the
parenthesis of a call. -/
theorem Expr.read_fault_located {source : String} {lexemes : List Lexeme} {fault : SyntaxFault}
    (ht : tokenize source = .ok lexemes) (h : read source = .error fault) :
    (∃ before l behind, lexemes = before ++ l :: behind ∧ fault = .unexpected l.token l.start ∧
      Viable (before.map Lexeme.token) ∧
      (¬AtCall (before.map Lexeme.token) [l.token] →
        ¬Viable (before.map Lexeme.token ++ [l.token]))) ∨
    fault = .ended ∧ Viable (lexemes.map Lexeme.token) := by
  obtain ⟨rest, hw, rfl⟩ := exists_of_read_error ht h
  obtain ⟨us, e, hv, hn⟩ := whole_failed hw
  obtain ⟨before, behind, rfl, rfl, rfl⟩ := List.map_eq_append_iff.1 e
  cases behind with
  | nil =>
    right
    rw [List.append_nil]
    exact ⟨SyntaxFault.ofRest_nil before, hv⟩
  | cons l behind =>
    left
    refine ⟨before, l, behind, rfl, SyntaxFault.ofRest_append before behind l, hv, fun hc => ?_⟩
    exact hn _ _ rfl hc

/-- An operand behind an operand, and an operator with none behind it. -/
theorem Expr.read_fault_located_operands :
    (read "a b" = .error (.unexpected (.ident "b") 2) ∧ ¬Viable [.ident "a", .ident "b"]) ∧
      read "a +" = .error .ended ∧ Viable [.ident "a", .symbol .plus] := by
  have htwo : tokenize "a b" = .ok [⟨.ident "a", 0, 1⟩, ⟨.ident "b", 2, 3⟩] := by decide +kernel
  have hsum : tokenize "a +" = .ok [⟨.ident "a", 0, 1⟩, ⟨.symbol .plus, 2, 3⟩] := by decide +kernel
  have hb : read "a b" = .error (.unexpected (.ident "b") 2) := by with_unfolding_all rfl
  have he : read "a +" = .error .ended := by with_unfolding_all rfl
  refine ⟨⟨hb, ?_⟩, he, ?_⟩
  · rcases read_fault_located htwo hb with h | h
    · obtain ⟨before, l, behind, hl, hf, -, hn⟩ := h
      cases before with
      | nil =>
        cases hl
        exact absurd hf (by decide)
      | cons l₁ before =>
        cases before with
        | nil =>
          cases hl
          exact hn fun hc => by cases hc.2
        | cons l₂ before => exact absurd (congrArg List.length hl) (by simp)
    · cases h.1
  · rcases read_fault_located hsum he with h | h
    · obtain ⟨before, l, behind, -, hf, -⟩ := h
      cases hf
    · exact h.2

end IndentMarkup
