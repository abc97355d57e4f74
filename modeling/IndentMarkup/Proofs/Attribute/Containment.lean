import IndentMarkup.Proofs.Attribute.Joining
import IndentMarkup.Proofs.Expr.Faults
import IndentMarkup.Proofs.Expr.Parentheses

/-!
# Rejected texts in joined expressions

An expression that cannot be read leaves its attribute out. Where the reader of a line joins it to
other text, it puts the expression between parentheses without reading it first. As long as the text
keeps to these parentheses, the joined expression cannot be read either, so the attribute is left
out all the same. A text that closes the parenthesis in front of it and opens another one for the
one behind it may become part of an expression that can be read.
-/
namespace IndentMarkup

open Lexer Grammar

/-- The text keeps to the parentheses around it: every quote in it is closed, and it closes no
parenthesis that it does not open. -/
structure Contained (source : String) : Prop where
  quotes : leavesOpen (fault source.toList) = false
  parens : ∀ lexemes, tokenize source = .ok lexemes →
    (parensOpen? 0 (lexemes.map Lexeme.token)).isSome = true

theorem isExpression_of_condition {source : String} {ts : List Token} {e : Expr}
    (h : Spells source.toList ts) (hc : Condition ts e) : isExpression source = true :=
  isExpression_iff.2 ⟨e, Expr.read_eq_ok_iff.2 ⟨ts, h, hc⟩⟩

/-- Whatever can be read keeps to the parentheses around it. -/
theorem contained_of_isExpression {source : String} (h : isExpression source = true) :
    Contained source := by
  obtain ⟨e, he⟩ := isExpression_iff.1 h
  obtain ⟨ts, hs, hc⟩ := Expr.read_eq_ok_iff.1 he
  constructor
  · rw [hs.fault_eq_nil]
    rfl
  · intro lexemes hl
    rw [← hs.unique (spells_of_scan hl), hc.matched 0]
    rfl

namespace Contained

variable {source : String} (hc : Contained source)
include hc

theorem isSome_parensOpen? {ts : List Token} (h : Spells source.toList ts) :
    (parensOpen? 0 ts).isSome = true := by
  obtain ⟨lexemes, hl, rfl⟩ := h.scan 0
  exact hc.parens lexemes hl

/-- The parentheses around the text are found where they were put. -/
theorem exists_of_parens {t : List Char} {us : List Token}
    (h : Spells ('(' :: (source.toList ++ ')' :: t)) us) :
    ∃ ts vs, us = .symbol .lParen :: (ts ++ .symbol .rParen :: vs) ∧
      Spells source.toList ts ∧ Spells t vs := by
  obtain ⟨us', rfl, hu⟩ := Spells.of_symbol .lParen (by decide) h
  obtain ⟨ts, ws, rfl, hs, hw⟩ := hu.exists_of_append (Expr.endsToken_close t) hc.quotes
  obtain ⟨vs, rfl, hv⟩ := Spells.of_symbol .rParen (by decide) hw
  exact ⟨ts, vs, rfl, hs, hv⟩

end Contained

namespace Segment

inductive Spelled : Segment → List Token → Prop
  | literal {text : String} : Spelled (.literal text) [.str text]
  | expr {source : String} {ts : List Token} (hc : Contained source)
      (h : Spells source.toList ts) :
      Spelled (.expr source) (.symbol .lParen :: (ts ++ [.symbol .rParen]))

theorem exists_spelled {g : Segment} (hc : ∀ source, g = .expr source → Contained source)
    {t : List Char} {us : List Token} (h : Spells (g.operand.toList ++ t) us) :
    ∃ ts vs, us = ts ++ vs ∧ Spelled g ts ∧ Spells t vs := by
  cases g with
  | literal text =>
    rw [operand, Text.toList_quote] at h
    obtain ⟨vs, rfl, hv⟩ := h.of_quote
    rw [String.ofList_toList]
    exact ⟨[.str text], vs, rfl, .literal, hv⟩
  | expr source =>
    have hp : Spells ('(' :: (source.toList ++ ')' :: t)) us := by simpa [operand] using h
    obtain ⟨ts, vs, rfl, hs, hv⟩ := (hc source rfl).exists_of_parens hp
    exact ⟨_, vs, by simp, .expr (hc source rfl) hs, hv⟩

theorem exists_all_spelled {segments : List Segment}
    (hc : ∀ source, .expr source ∈ segments → Contained source) {us : List Token}
    (h : Spells (segments.flatMap fun g => ' ' :: '+' :: ' ' :: g.operand.toList) us) :
    ∃ tss, List.Forall₂ Spelled segments tss ∧ us = tss.flatMap fun ts => .symbol .plus :: ts := by
  induction segments generalizing us with
  | nil =>
    cases h with
    | nil => exact ⟨[], .nil, rfl⟩
    | token hx _ => cases hx
  | cons g rest ih =>
    rw [List.flatMap_cons] at h
    obtain ⟨vs, rfl, hv⟩ := Spells.of_symbol .plus (by decide) (h.of_space rfl)
    have hg : ∀ source, g = .expr source → Contained source := by
      rintro source rfl
      exact hc source List.mem_cons_self
    obtain ⟨ts, ws, rfl, hs, hw⟩ := exists_spelled hg (hv.of_space rfl)
    obtain ⟨tss, ht, rfl⟩ := ih (fun source hm => hc source (List.mem_cons_of_mem g hm)) hw
    exact ⟨ts :: tss, .cons hs ht, rfl⟩

theorem Spelled.isSome_parensOpen? {g : Segment} {ts r : List Token} (h : Spelled g ts)
    (hr : (parensOpen? 0 r).isSome = true) : (parensOpen? 0 (ts ++ r)).isSome = true := by
  cases h with
  | literal => exact hr
  | expr hc h =>
    have hp := isSome_parensOpen?_parens (hc.isSome_parensOpen? h) hr
    simpa using hp

theorem isSome_parensOpen?_of_spelled {segments : List Segment} {tss : List (List Token)}
    (h : List.Forall₂ Spelled segments tss) :
    (parensOpen? 0 (tss.flatMap fun ts => .symbol .plus :: ts)).isSome = true := by
  induction h with
  | nil => rfl
  | cons hg _ ih =>
    rw [List.flatMap_cons, List.cons_append, parensOpen?_of_not_isParen rfl]
    exact hg.isSome_parensOpen? ih

/-- The first operand of a sum can be read by itself, and so can what stands behind the plus sign.
-/
theorem Spelled.of_condition {g : Segment} {ts r : List Token} {e : Expr} (h : Spelled g ts)
    (hr : (parensOpen? 0 r).isSome = true) (hc : Condition (ts ++ r) e) :
    (∀ source, g = .expr source → isExpression source = true) ∧
      ∀ r', r = .symbol .plus :: r' → ∃ f, Condition r' f := by
  cases h with
  | literal =>
    refine ⟨nofun, ?_⟩
    rintro r' rfl
    exact hc.of_text
  | @expr source us hs h =>
    have hp : Condition (.symbol .lParen :: (us ++ .symbol .rParen :: r)) e := by simpa using hc
    obtain ⟨⟨f, hf⟩, hb⟩ := hp.of_parens (hs.isSome_parensOpen? h) hr
    refine ⟨?_, hb⟩
    rintro source ⟨⟩
    exact isExpression_of_condition h hf

/-- In a sum that can be read every insertion can be read. -/
theorem isExpression_of_mem_sum {segments : List Segment} {tss : List (List Token)}
    (h : List.Forall₂ Spelled segments tss) {g : Segment} {ts : List Token} (hg : Spelled g ts)
    {e : Expr} (hc : Condition (ts ++ tss.flatMap fun ts => .symbol .plus :: ts) e) :
    ∀ source, .expr source ∈ g :: segments → isExpression source = true := by
  induction h generalizing g ts e with
  | nil =>
    intro source hm
    exact (hg.of_condition (isSome_parensOpen?_of_spelled .nil) hc).1 source
      (List.mem_singleton.1 hm).symm
  | @cons g' ts' segments tss hg' ht ih =>
    obtain ⟨hfirst, hrest⟩ := hg.of_condition (isSome_parensOpen?_of_spelled (.cons hg' ht)) hc
    obtain ⟨f, hf⟩ := hrest _ rfl
    intro source hm
    rcases List.mem_cons.1 hm with hm | hm
    · exact hfirst source hm.symm
    · exact ih hg' hf source hm

theorem mem_lead_of_expr {segments : List Segment} {source : String}
    (h : .expr source ∈ segments) : .expr source ∈ (lead segments).2 := by
  unfold lead
  split
  · simpa using h
  · exact h

theorem isExpression_of_concatenation {segments : List Segment}
    (hc : ∀ source, .expr source ∈ segments → Contained source)
    (h : isExpression (concatenation segments) = true) :
    ∀ source, .expr source ∈ segments → isExpression source = true := by
  intro source hm
  obtain ⟨e, he⟩ := isExpression_iff.1 h
  rw [concatenation_eq (List.ne_nil_of_mem hm)] at he
  obtain ⟨us, hs, hu⟩ := Expr.read_eq_ok_iff.1 he
  rw [Expr.toList_intercalate_cons, List.flatMap_map, Text.toList_quote] at hs
  obtain ⟨vs, rfl, hv⟩ := hs.of_quote
  obtain ⟨tss, ht, rfl⟩ := exists_all_spelled
    (fun source hm => hc source (mem_of_mem_lead hm)) hv
  exact isExpression_of_mem_sum ht .literal hu source
    (List.mem_cons_of_mem _ (mem_lead_of_expr hm))

end Segment

namespace AttrValue

theorem isExpression_of_joinedClass {shorthand source : String} (hc : Contained source)
    (h : isExpression (joinedClass shorthand source) = true) : isExpression source = true := by
  obtain ⟨e, he⟩ := isExpression_iff.1 h
  obtain ⟨us, hs, hu⟩ := Expr.read_eq_ok_iff.1 he
  have ht : (joinedClass shorthand source).toList = Text.quoteChars shorthand.toList ++
      ' ' :: '+' :: ' ' :: '(' :: '(' :: (source.toList ++ ')' :: ' ' :: '?' :: ' ' ::
        (Text.quoteChars [' '] ++ ' ' :: '+' :: ' ' :: '(' :: (source.toList ++ ')' :: ' ' ::
          ':' :: ' ' :: (Text.quoteChars [] ++ [')'])))) := by
    simp [joinedClass, Text.quoteChars, Text.escapeQuoted]
  rw [ht] at hs
  -- the tokens, one after the other
  obtain ⟨vs, rfl, h₁⟩ := hs.of_quote
  obtain ⟨vs, rfl, h₂⟩ := Spells.of_symbol .plus (by decide) (h₁.of_space rfl)
  obtain ⟨vs, rfl, h₃⟩ := Spells.of_symbol .lParen (by decide) (h₂.of_space rfl)
  obtain ⟨ts, vs, rfl, hfirst, h₄⟩ := hc.exists_of_parens h₃
  obtain ⟨vs, rfl, h₅⟩ := Spells.of_symbol .question (by decide) (h₄.of_space rfl)
  obtain ⟨vs, rfl, h₆⟩ := (h₅.of_space rfl).of_quote
  obtain ⟨vs, rfl, h₇⟩ := Spells.of_symbol .plus (by decide) (h₆.of_space rfl)
  obtain ⟨ts', vs, rfl, hsecond, h₈⟩ := hc.exists_of_parens (h₇.of_space rfl)
  obtain ⟨vs, rfl, h₉⟩ := Spells.of_symbol .colon (by decide) (h₈.of_space rfl)
  obtain ⟨vs, rfl, hend⟩ := (h₉.of_space rfl).of_quote
  obtain ⟨vs, rfl, hnil⟩ := Spells.of_symbol .rParen (by decide) hend
  cases hnil with
  | token hx _ => cases hx
  | nil =>
    let behind : List Token := .symbol .question :: .str " " :: .symbol .plus :: .symbol .lParen ::
      (ts' ++ .symbol .rParen :: [.symbol .colon, .str ""])
    have hbehind : (parensOpen? 0 behind).isSome = true := by
      rw [parensOpen?_of_not_isParen rfl, parensOpen?_of_not_isParen rfl,
        parensOpen?_of_not_isParen rfl]
      exact isSome_parensOpen?_parens (hc.isSome_parensOpen? hsecond) rfl
    obtain ⟨f, hf⟩ := hu.of_text
    have hchoice : Condition (.symbol .lParen ::
        ((.symbol .lParen :: (ts ++ .symbol .rParen :: behind)) ++ .symbol .rParen :: [])) f := by
      simpa [behind] using hf
    obtain ⟨⟨f', hf'⟩, -⟩ := hchoice.of_parens
      (isSome_parensOpen?_parens (hc.isSome_parensOpen? hfirst) hbehind) rfl
    obtain ⟨⟨g, hg⟩, -⟩ := hf'.of_parens (hc.isSome_parensOpen? hfirst) hbehind
    exact isExpression_of_condition hfirst hg

/-- The attribute is left out, in a program and where nodes are walked. -/
def Omitted (key : String) (value : AttrValue) : Prop :=
  Piece.ofAttribute key value = [] ∧
    ∀ (engine : Engine) (s : Scope), Id.run (value.render engine.evaluator key s) = ""

theorem omitted_of_rejected {source : String} (h : isExpression source = false) (key : String)
    (raw : Bool) : Omitted key (.expr source raw) := by
  constructor
  · rw [Piece.ofAttribute, h, if_neg (by decide)]
  · intro engine s
    have hn : Expr.ofSource? source = none := by
      cases ho : Expr.ofSource? source with
      | none => rfl
      | some e =>
        rw [isExpression_of_ofSource? ho] at h
        cases h
    rw [engine.run_render_expr, engine.valueOr_of_ofSource?_eq_none s hn]
    rfl

end AttrValue

open AttrValue in
/-- A text that cannot be read but keeps to the parentheses around it does not become part of an
expression that can be read: neither the sum of segments with such an insertion nor a class behind
the classes of a head can be read. The attribute is left out then, as it is for the text alone. -/
theorem isExpression_joined_of_rejected (segments : List Segment) (shorthand source key : String)
    (raw : Bool) :
    ((∀ s, .expr s ∈ segments → isExpression s = false → Contained s) →
      (∃ s, .expr s ∈ segments ∧ isExpression s = false) →
      isExpression (concatenation segments) = false ∧
        Omitted key (.expr (concatenation segments) raw)) ∧
    (isExpression source = false → Contained source →
      combineClass shorthand (.expr source raw) = .expr (joinedClass shorthand source) raw ∧
        isExpression (joinedClass shorthand source) = false ∧
        Omitted key (.expr (joinedClass shorthand source) raw) ∧
        Omitted key (.expr source raw)) := by
  constructor
  · rintro hc ⟨s, hm, hr⟩
    have hall : ∀ other, .expr other ∈ segments → Contained other := by
      intro other ho
      cases he : isExpression other with
      | true => exact contained_of_isExpression he
      | false => exact hc other ho he
    have hj : isExpression (concatenation segments) = false := by
      by_contra h
      rw [Bool.not_eq_false] at h
      rw [Segment.isExpression_of_concatenation hall h s hm] at hr
      cases hr
    exact ⟨hj, omitted_of_rejected hj key raw⟩
  · intro hr hc
    have hj : isExpression (joinedClass shorthand source) = false := by
      by_contra h
      rw [Bool.not_eq_false] at h
      rw [isExpression_of_joinedClass hc h] at hr
      cases hr
    exact ⟨combineClass_expr shorthand source raw, hj, omitted_of_rejected hj key raw,
      omitted_of_rejected hr key raw⟩

/-- A sum that breaks off, in a title and in a class. -/
theorem isExpression_joined_of_rejected_sum :
    isExpression "a +" = false ∧ Contained "a +" ∧
      isExpression (concatenation [.expr "a +", .literal "x"]) = false ∧
      isExpression (AttrValue.joinedClass "k" "a +") = false := by
  have hr : isExpression "a +" = false := by decide +kernel
  have hf : fault "a +".toList = [] := by decide +kernel
  have ht : tokenize "a +" = .ok [⟨.ident "a", 0, 1⟩, ⟨.symbol .plus, 2, 3⟩] := by decide +kernel
  have hc : Contained "a +" := by
    refine ⟨by rw [hf]; rfl, fun lexemes hl => ?_⟩
    rw [ht] at hl
    cases hl
    rfl
  obtain ⟨hsum, hclass⟩ := isExpression_joined_of_rejected [.expr "a +", .literal "x"] "k" "a +"
    "title" false
  have hall : ∀ s, Segment.expr s ∈ [Segment.expr "a +", .literal "x"] → isExpression s = false →
      Contained s := by
    intro s hm _
    simp only [List.mem_cons, reduceCtorEq, List.not_mem_nil, or_false, Segment.expr.injEq] at hm
    rw [hm]
    exact hc
  exact ⟨hr, hc, (hsum hall ⟨"a +", by simp, hr⟩).1, (hclass hr hc).2.1⟩

/-- A parenthesis behind an expression closes none, whatever follows. -/
theorem isExpression_append_close {a : String} (ha : isExpression a = true) (t : String) :
    isExpression (a ++ ")" ++ t) = false := by
  by_contra h
  rw [Bool.not_eq_false] at h
  obtain ⟨e, he⟩ := isExpression_iff.1 ha
  obtain ⟨ts, hs, hc⟩ := Expr.read_eq_ok_iff.1 he
  obtain ⟨f, hf⟩ := isExpression_iff.1 h
  obtain ⟨us, hu, hcu⟩ := Expr.read_eq_ok_iff.1 hf
  have ht : (a ++ ")" ++ t).toList = a.toList ++ ')' :: t.toList := by simp
  rw [ht] at hu
  obtain ⟨ts', vs, rfl, hs', hv⟩ := hu.exists_of_append (Expr.endsToken_close _)
    (contained_of_isExpression ha).quotes
  obtain ⟨ws, rfl, -⟩ := Spells.of_symbol .rParen (by decide) hv
  have hn := hcu.matched 0
  rw [← hs.unique hs', parensOpen?_append, hc.matched 0, Option.bind_some,
    parensOpen?_rParen_zero] at hn
  cases hn

/-- Two expressions with the parentheses between them the wrong way round cannot be read, but what
they are joined to can. -/
theorem isExpression_joined_of_reversed {a b : String} (ha : isExpression a = true)
    (hb : isExpression b = true) (shorthand text : String) :
    isExpression (a ++ ")" ++ (" + (" ++ b)) = false ∧
      isExpression (concatenation [.expr (a ++ ")" ++ (" + (" ++ b)), .literal text]) = true ∧
      isExpression (AttrValue.joinedClass shorthand (a ++ ")" ++ (" + (" ++ b))) = true := by
  obtain ⟨e, he⟩ := isExpression_iff.1 ha
  obtain ⟨f, hf⟩ := isExpression_iff.1 hb
  have hpa := Expr.isOperand_parens he
  have hpb := Expr.isOperand_parens hf
  refine ⟨isExpression_append_close ha _, ?_, ?_⟩
  · have hx := Expr.read_sum (Expr.isOperand_quote "")
      (.cons hpa (.cons hpb (.cons (Expr.isOperand_quote text) .nil)))
    refine isExpression_iff.2 ⟨_, (congrArg Expr.read ?_).trans hx⟩
    apply String.toList_injective
    simp [concatenation, String.intercalate_cons_cons]
  · have hempty : Expr.IsOperand "\"\"" (.constant (.string "")) := Expr.isOperand_quote ""
    have hspace : Expr.IsOperand "\" \"" (.constant (.string " ")) := Expr.isOperand_quote " "
    have hchoice := (Expr.isTest_sum hpa (.cons hpb .nil)).read_choice
      (Expr.read_sum hspace (.cons hpa (.cons hpb .nil))) hempty.read
    have hx := Expr.read_sum (Expr.isOperand_quote shorthand)
      (.cons (Expr.isOperand_parens hchoice) .nil)
    refine isExpression_iff.2 ⟨_, (congrArg Expr.read ?_).trans hx⟩
    apply String.toList_injective
    simp [AttrValue.joinedClass, String.intercalate_cons_cons]

/-- The text `a) + (b` alone cannot be read, but in a title with more text and as a class behind
classes it becomes part of an expression that can. The title is not left out. -/
theorem isExpression_joined_of_reversed_names :
    isExpression "a) + (b" = false ∧
      isExpression (concatenation [.expr "a) + (b", .literal "x"]) = true ∧
      isExpression (AttrValue.joinedClass "k" "a) + (b") = true ∧
      ¬ AttrValue.Omitted "title"
        (.expr (concatenation [.expr "a) + (b", .literal "x"]) false) := by
  have ha : isExpression "a" = true := by decide +kernel
  have hb : isExpression "b" = true := by decide +kernel
  obtain ⟨hr, hj, hk⟩ := isExpression_joined_of_reversed ha hb "k" "x"
  have hj' : isExpression (concatenation [.expr "a) + (b", .literal "x"]) = true := hj
  refine ⟨hr, hj', hk, fun ho => ?_⟩
  have hp := ho.1
  rw [Piece.ofAttribute, if_pos hj'] at hp
  cases hp

end IndentMarkup
