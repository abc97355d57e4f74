import IndentMarkup.Proofs.Expr.Lexemes
import Mathlib.Data.List.Forall2

/-!
# Expressions of composed texts

What is read from a text that is put together from expressions. Whatever an expression holds, it is
one operand between brackets; calls, loops and literals are operands as they are, and operands make
up sums and conditions. Nothing is said about how the parts are written, only that each is read as
an expression of its own.
-/
namespace IndentMarkup

namespace Expr

open Lexer Grammar

/-- The text is read as the expression, as an operand, which no operator around it takes apart. -/
def IsOperand (source : String) (e : Expr) : Prop :=
  ∃ ts, Spells source.toList ts ∧ Operand ts e

theorem IsOperand.read {source : String} {e : Expr} (h : IsOperand source e) :
    Expr.read source = .ok e := by
  obtain ⟨ts, hs, ho⟩ := h
  exact read_eq_ok_iff.2 ⟨ts, hs, .of_operand ho⟩

theorem endsToken_close (t : List Char) : EndsToken (')' :: t) := endsToken_cons rfl t

theorem endsToken_comma (t : List Char) : EndsToken (',' :: t) := endsToken_cons rfl t

theorem endsToken_space (t : List Char) : EndsToken (' ' :: t) := endsToken_cons rfl t

theorem spells_close : Spells [')'] [.symbol .rParen] :=
  .symbol .rParen (by decide) .nil

theorem isOperand_quote (s : String) : IsOperand (Text.quote s) (.constant (.string s)) := by
  refine ⟨[.str s], ?_, .constant rfl⟩
  have h := Spells.quote s.toList
  rw [String.ofList_toList] at h
  rw [Text.toList_quote]
  exact h

theorem isOperand_null : IsOperand "null" (.constant .null) :=
  ⟨[.keyword .null], Spells.word (w := "null".toList) (by decide), .constant rfl⟩

theorem isOperand_false : IsOperand "false" (.constant (.bool false)) :=
  ⟨[.keyword .false], Spells.word (w := "false".toList) (by decide), .constant rfl⟩

theorem isOperand_parens {s : String} {e : Expr} (h : Expr.read s = .ok e) :
    IsOperand ("(" ++ s ++ ")") e := by
  obtain ⟨ts, hs, hc⟩ := read_eq_ok_iff.1 h
  refine ⟨.symbol .lParen :: (ts ++ [.symbol .rParen]), ?_, .parens hc⟩
  have hb := hs.append (endsToken_close []) spells_close
  have ho : Spells ('(' :: (s.toList ++ [')'])) _ := .symbol .lParen (by decide) hb
  rw [String.toList_append, String.toList_append]
  exact ho

section

variable {n : String} (hn : Spells n.toList [.ident n])
include hn

theorem isOperand_call {s : String} {e : Expr} (h : Expr.read s = .ok e) :
    IsOperand (n ++ "(" ++ s ++ ")") (.call n [e]) := by
  obtain ⟨ts, hs, hc⟩ := read_eq_ok_iff.1 h
  refine ⟨.ident n :: .symbol .lParen :: (ts ++ [.symbol .rParen]), ?_, .call (.last hc)⟩
  have hb := hs.append (endsToken_close []) spells_close
  have ho : Spells ('(' :: (s.toList ++ [')'])) _ := .symbol .lParen (by decide) hb
  have hw := hn.append (endsToken_cons rfl _) ho
  simpa using hw

theorem isOperand_call_pair {s t : String} {e f : Expr} (h : Expr.read s = .ok e)
    (h' : Expr.read t = .ok f) :
    IsOperand (n ++ "(" ++ s ++ ", " ++ t ++ ")") (.call n [e, f]) := by
  obtain ⟨ts, hs, hc⟩ := read_eq_ok_iff.1 h
  obtain ⟨us, hs', hc'⟩ := read_eq_ok_iff.1 h'
  refine ⟨.ident n :: .symbol .lParen :: (ts ++ .symbol .comma :: us ++ [.symbol .rParen]), ?_,
    .call (.cons hc (.last hc'))⟩
  have hb := hs'.append (endsToken_close []) spells_close
  have hm : Spells (',' :: ' ' :: (t.toList ++ [')'])) _ :=
    .symbol .comma (by decide) (.space rfl hb)
  have ho : Spells ('(' :: (s.toList ++ ',' :: ' ' :: (t.toList ++ [')']))) _ :=
    .symbol .lParen (by decide) (hs.append (endsToken_comma _) hm)
  have hw := hn.append (endsToken_cons rfl _) ho
  simpa using hw

end

theorem isOperand_loop {b s t : String} {bs : List Token} {item : String}
    {position : Option String} {e f : Expr} (hb : Spells b.toList bs)
    (hb' : Bindings bs item position) (h : Expr.read s = .ok e) (h' : Expr.read t = .ok f) :
    IsOperand ("for (" ++ b ++ " in " ++ s ++ ") \x7b " ++ t ++ " \x7d")
      (.loop item position e f) := by
  obtain ⟨ts, hs, hc⟩ := read_eq_ok_iff.1 h
  obtain ⟨us, hs', hc'⟩ := read_eq_ok_iff.1 h'
  refine ⟨_, ?_, .loop hb' hc hc'⟩
  have hclose : Spells [' ', '\x7d'] [.symbol .rBrace] :=
    .space rfl (.symbol .rBrace (by decide) .nil)
  have hbody := hs'.append (endsToken_space _) hclose
  have hopen : Spells (')' :: ' ' :: '\x7b' :: ' ' :: (t.toList ++ [' ', '\x7d'])) _ :=
    .symbol .rParen (by decide)
      (.space rfl (.symbol .lBrace (by decide) (.space rfl hbody)))
  have hsource := hs.append (endsToken_close _) hopen
  have hin : Spells ['i', 'n'] [.keyword .within] := .word (by decide)
  have hwithin := hin.append (endsToken_space _) (.space rfl hsource)
  have hhead : Spells ('(' :: (b.toList ++ _)) _ :=
    .symbol .lParen (by decide) (hb.append (endsToken_space _) (.space rfl hwithin))
  have hfor : Spells ['f', 'o', 'r'] [.keyword .loop] := .word (by decide)
  have hw := hfor.append (endsToken_space _) (.space rfl hhead)
  simpa using hw

/-- The text is read as the expression, and a question mark behind it takes all of it as a test. -/
def IsTest (source : String) (e : Expr) : Prop :=
  ∃ ts, Spells source.toList ts ∧ Level 6 ts e

theorem IsOperand.isTest {source : String} {e : Expr} (h : IsOperand source e) :
    IsTest source e := by
  obtain ⟨ts, hs, ho⟩ := h
  exact ⟨ts, hs, .of_operand ho 6⟩

theorem IsTest.read_choice {c s t : String} {test e f : Expr} (hc : IsTest c test)
    (h : Expr.read s = .ok e) (h' : Expr.read t = .ok f) :
    Expr.read (c ++ " ? " ++ s ++ " : " ++ t) = .ok (.cond test e f) := by
  obtain ⟨ts, hs, ho⟩ := hc
  obtain ⟨us, hs₁, hc₁⟩ := read_eq_ok_iff.1 h
  obtain ⟨vs, hs₂, hc₂⟩ := read_eq_ok_iff.1 h'
  refine read_eq_ok_iff.2 ⟨_, ?_, .choice ho hc₁ hc₂⟩
  have hcolon : Spells (' ' :: ':' :: ' ' :: t.toList) _ :=
    .space rfl (.symbol .colon (by decide) (.space rfl hs₂))
  have hquestion : Spells (' ' :: '?' :: ' ' :: (s.toList ++ ' ' :: ':' :: ' ' :: t.toList)) _ :=
    .space rfl (.symbol .question (by decide)
      (.space rfl (hs₁.append (endsToken_space _) hcolon)))
  have hw := hs.append (endsToken_space _) hquestion
  simpa using hw

theorem read_choice {c s t : String} {test e f : Expr} (hc : IsOperand c test)
    (h : Expr.read s = .ok e) (h' : Expr.read t = .ok f) :
    Expr.read (c ++ " ? " ++ s ++ " : " ++ t) = .ok (.cond test e f) :=
  hc.isTest.read_choice h h'

/-- Operands behind a first one, each behind a plus sign. -/
theorem operands_of_isOperand {sources : List String} {es : List Expr}
    (h : List.Forall₂ IsOperand sources es) :
    ∃ ts, Spells (sources.flatMap fun s => ' ' :: '+' :: ' ' :: s.toList) ts ∧
      EndsToken (sources.flatMap fun s => ' ' :: '+' :: ' ' :: s.toList) ∧
      Operands 1 ts (es.map fun e => (.add, e)) := by
  induction h with
  | nil => exact ⟨[], .nil, endsToken_nil, .nil⟩
  | @cons s e sources es hs _ ih =>
    obtain ⟨us, hu, he, hr⟩ := ih
    obtain ⟨ts, ht, ho⟩ := hs
    refine ⟨.symbol .plus :: (ts ++ us), ?_, endsToken_space _,
      .cons (s := .plus) (by decide) (.of_operand ho 1) hr⟩
    rw [List.flatMap_cons]
    exact .space rfl (.symbol .plus (by decide) (.space rfl (ht.append he hu)))

theorem toList_intercalate_cons (s : String) (sources : List String) :
    (String.intercalate " + " (s :: sources)).toList =
      s.toList ++ sources.flatMap fun t => ' ' :: '+' :: ' ' :: t.toList := by
  induction sources generalizing s with
  | nil => simp
  | cons t sources ih =>
    rw [String.intercalate_cons_cons, String.toList_append, String.toList_append, ih t,
      List.flatMap_cons, List.append_assoc]
    rfl

/-- Operands with plus signs between them are one chain. -/
theorem isTest_sum {s : String} {e : Expr} {sources : List String} {es : List Expr}
    (h : IsOperand s e) (hr : List.Forall₂ IsOperand sources es) :
    IsTest (String.intercalate " + " (s :: sources))
      (.ofOperands e (es.map fun f => (.add, f))) := by
  obtain ⟨ts, ht, ho⟩ := h
  obtain ⟨us, hu, he, hus⟩ := operands_of_isOperand hr
  refine ⟨ts ++ us, ?_, .mono (by decide) (.run (.of_operand ho 1) hus)⟩
  rw [toList_intercalate_cons]
  exact ht.append he hu

theorem read_sum {s : String} {e : Expr} {sources : List String} {es : List Expr}
    (h : IsOperand s e) (hr : List.Forall₂ IsOperand sources es) :
    Expr.read (String.intercalate " + " (s :: sources)) =
      .ok (.ofOperands e (es.map fun f => (.add, f))) := by
  obtain ⟨ts, hs, hl⟩ := isTest_sum h hr
  exact read_eq_ok_iff.2 ⟨ts, hs, .plain hl⟩

end Expr

end IndentMarkup
