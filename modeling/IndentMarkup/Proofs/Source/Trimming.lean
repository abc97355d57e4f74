import IndentMarkup.Line.Basic
import IndentMarkup.Text.Identifier
import IndentMarkup.Text.Word
import Mathlib.Data.List.TakeWhile

/-!
# Texts on one line

A text that fills a line has no blanks at its ends and no line feed in it. Put behind a margin of
blanks it is read as a line with the width of the margin as its indentation. No character of a name
is blank, so blanks separate names from what follows them.
-/
namespace IndentMarkup

namespace Text

/-- A text that is neither empty nor begins or ends with a blank, on one line. -/
structure OneLine (s : List Char) : Prop where
  ne_nil : s ≠ []
  trimmed : trim s = s
  unbroken : '\n' ∉ s

instance (s : List Char) : Decidable (OneLine s) :=
  decidable_of_iff (s ≠ [] ∧ trim s = s ∧ '\n' ∉ s)
    ⟨fun h => ⟨h.1, h.2.1, h.2.2⟩, fun h => ⟨h.ne_nil, h.trimmed, h.unbroken⟩⟩

theorem trimEnd_append {c : Char} (h : isBlank c = false) (s : List Char) :
    trimEnd (s ++ [c]) = s ++ [c] := by
  unfold trimEnd
  rw [List.reverse_append, List.reverse_singleton, List.singleton_append, List.dropWhile_cons,
    if_neg (by simp [h]), List.reverse_cons, List.reverse_reverse]

theorem trim_of_ends {c d : Char} {s t : List Char} (e : c :: s = t ++ [d])
    (hc : isBlank c = false) (hd : isBlank d = false) : trim (c :: s) = c :: s := by
  rw [trim, trimStart_cons_of_not_blank hc, e, trimEnd_append hd]

theorem OneLine.exists_last {s : List Char} (h : OneLine s) :
    ∃ t c, s = t ++ [c] ∧ isBlank c = false := by
  have hr : s.reverse = (trimStart s).reverse.dropWhile isBlank := by
    have ht := congrArg List.reverse h.trimmed
    rw [trim, trimEnd, List.reverse_reverse] at ht
    exact ht.symm
  cases hs : s.reverse with
  | nil => exact (h.ne_nil (List.reverse_eq_nil_iff.1 hs)).elim
  | cons c t =>
    have hc := List.head?_dropWhile_not isBlank (trimStart s).reverse
    rw [← hr, hs] at hc
    refine ⟨t.reverse, c, ?_, by simpa using hc⟩
    rw [← List.reverse_reverse s, hs, List.reverse_cons]

theorem trimEnd_prefix_self (s : List Char) : trimEnd s <+: s := by
  have hs := List.reverse_prefix.2 (List.dropWhile_suffix isBlank (l := s.reverse))
  rwa [List.reverse_reverse] at hs

/-- A trimmed text that is not empty begins with no blank. -/
theorem exists_first_of_trimmed {s : List Char} (hne : s ≠ []) (ht : trim s = s) :
    ∃ c t, s = c :: t ∧ isBlank c = false := by
  have hp : s <+: trimStart s := by
    have hs := trimEnd_prefix_self (trimStart s)
    rwa [show trimEnd (trimStart s) = s from ht] at hs
  cases hs : s with
  | nil => exact (hne hs).elim
  | cons c t =>
    obtain ⟨u, hu⟩ := hp
    have hu' : trimStart s = c :: (t ++ u) := by rw [← hu, hs]; rfl
    exact ⟨c, t, rfl, isBlank_of_trimStart_eq_cons hu'⟩

theorem OneLine.exists_first {s : List Char} (h : OneLine s) :
    ∃ c t, s = c :: t ∧ isBlank c = false := exists_first_of_trimmed h.ne_nil h.trimmed

/-- A text behind other text on the same line. -/
theorem OneLine.behind {c : Char} {s t : List Char} (h : OneLine t) (hc : isBlank c = false)
    (hs : '\n' ∉ c :: s) : OneLine (c :: (s ++ t)) := by
  obtain ⟨u, d, hu, hd⟩ := h.exists_last
  refine ⟨by simp, trim_of_ends (t := c :: (s ++ u)) (by simp [hu]) hc hd, ?_⟩
  have := h.unbroken
  simp_all

theorem trimEnd_trimEnd (s : List Char) : trimEnd (trimEnd s) = trimEnd s := by
  rw [trimEnd, trimEnd, List.reverse_reverse]
  exact congrArg List.reverse (trimStart_trimStart s.reverse)

theorem trimEnd_cons {c : Char} (h : isBlank c = false) (s : List Char) :
    trimEnd (c :: s) = c :: trimEnd s := by
  have hc : ∀ d ∈ [c].head?, isBlank d = false := by
    intro d hd
    cases hd
    exact h
  rw [trimEnd, List.reverse_cons, (takeWhile_append_of_head hc s.reverse).2, List.reverse_append]
  rfl

theorem trim_trim (s : List Char) : trim (trim s) = trim s := by
  cases ht : trimStart s with
  | nil => simp [trim, ht]
  | cons c r =>
    have hc := isBlank_of_trimStart_eq_cons ht
    rw [trim, trim, ht, trimEnd_cons hc, trimStart_cons_of_not_blank hc, trimEnd_cons hc,
      trimEnd_trimEnd]

theorem trim_eq_nil_iff (s : List Char) : trim s = [] ↔ isAllBlank s = true := by
  rw [← trimStart_eq_nil_iff]
  cases ht : trimStart s with
  | nil => simp [trim, ht]
  | cons c r => simp [trim, ht, trimEnd_cons (isBlank_of_trimStart_eq_cons ht)]

theorem trim_infix_self (s : List Char) : trim s <:+: s :=
  (trimEnd_prefix_self _).isInfix.trans (List.dropWhile_suffix isBlank).isInfix

theorem trim_sublist (s : List Char) : (trim s).Sublist s := (trim_infix_self s).sublist

/-- The leading blanks and the trimmed text are what a text begins with. -/
theorem takeWhile_append_trim_prefix_self (s : List Char) : s.takeWhile isBlank ++ trim s <+: s := by
  obtain ⟨u, hu⟩ := trimEnd_prefix_self (trimStart s)
  refine ⟨u, ?_⟩
  rw [List.append_assoc, trim, hu, takeWhile_append_trimStart]

/-- A line that is not all blanks, without the blanks at its ends. -/
theorem oneLine_trim {s : List Char} (hb : isAllBlank s = false) (hn : '\n' ∉ s) :
    OneLine (trim s) where
  ne_nil := by
    rw [Ne, trim_eq_nil_iff, hb]
    exact Bool.false_ne_true
  trimmed := trim_trim s
  unbroken := fun h => hn ((trim_sublist s).subset h)

theorem isBlank_of_mem_space : ∀ c ∈ [' '], isBlank c = true := by
  intro c hc
  rw [List.mem_singleton.1 hc]
  rfl

theorem trimStart_append {b : List Char} (hb : ∀ c ∈ b, isBlank c = true) (s : List Char) :
    trimStart (b ++ s) = trimStart s := List.dropWhile_append_of_pos hb

theorem trimEnd_append_blank {b : List Char} (hb : ∀ c ∈ b, isBlank c = true) (s : List Char) :
    trimEnd (s ++ b) = trimEnd s := by
  have hr : ∀ c ∈ b.reverse, isBlank c = true := fun c hc => hb c (List.mem_reverse.1 hc)
  rw [trimEnd, trimEnd, List.reverse_append, List.dropWhile_append_of_pos hr]

/-- Blanks around a trimmed text do not count. -/
theorem trim_append_of_trimmed {s a b : List Char} (hne : s ≠ []) (hs : trim s = s)
    (ha : ∀ c ∈ a, isBlank c = true) (hb : ∀ c ∈ b, isBlank c = true) :
    trim (a ++ (s ++ b)) = s := by
  obtain ⟨c, t, rfl, hc⟩ := exists_first_of_trimmed hne hs
  rw [trim, trimStart_cons_of_not_blank hc] at hs
  rw [trim, trimStart_append ha, List.cons_append, trimStart_cons_of_not_blank hc,
    ← List.cons_append, trimEnd_append_blank hb, hs]

theorem OneLine.trim_append {s a b : List Char} (h : OneLine s) (ha : ∀ c ∈ a, isBlank c = true)
    (hb : ∀ c ∈ b, isBlank c = true) : trim (a ++ (s ++ b)) = s :=
  trim_append_of_trimmed h.ne_nil h.trimmed ha hb

/-- Only blanks stand around the trimmed text. -/
theorem exists_append_trim (s : List Char) : ∃ a b, (∀ c ∈ a, isBlank c = true) ∧
    (∀ c ∈ b, isBlank c = true) ∧ s = a ++ (trim s ++ b) := by
  refine ⟨s.takeWhile isBlank, ((trimStart s).reverse.takeWhile isBlank).reverse,
    fun c hc => List.mem_takeWhile_imp hc, fun c hc => ?_, ?_⟩
  · exact List.mem_takeWhile_imp (List.mem_reverse.1 hc)
  · have ht : trim s ++ ((trimStart s).reverse.takeWhile isBlank).reverse = trimStart s := by
      rw [trim, trimEnd, ← List.reverse_append, List.takeWhile_append_dropWhile,
        List.reverse_reverse]
    rw [ht, takeWhile_append_trimStart]

theorem OneLine.trim_behind_space {s : List Char} (h : OneLine s) : trim (' ' :: s) = s := by
  have ht := h.trim_append isBlank_of_mem_space (b := []) fun c hc => (List.not_mem_nil hc).elim
  rwa [List.append_nil] at ht

def blankCodes : List Nat :=
  [0x09, 0x0A, 0x0B, 0x0C, 0x0D, 0x20, 0x85, 0xA0, 0x1680, 0x2000, 0x2001, 0x2002, 0x2003, 0x2004,
   0x2005, 0x2006, 0x2007, 0x2008, 0x2009, 0x200A, 0x2028, 0x2029, 0x202F, 0x205F, 0x3000]

theorem toNat_mem_blankCodes {c : Char} (h : isBlank c = true) : c.toNat ∈ blankCodes := by
  simp only [isBlank, Bool.or_eq_true, Bool.and_eq_true, decide_eq_true_eq, beq_iff_eq] at h
  simp only [blankCodes, List.mem_cons, List.not_mem_nil, or_false]
  omega

/-- What no number of a blank character has, no blank character has. -/
theorem eq_false_of_isBlank {p : Char → Bool}
    (hp : (blankCodes.all fun n => !p (Char.ofNat n)) = true) {c : Char} (h : isBlank c = true) :
    p c = false := by
  have hc := List.all_eq_true.1 hp c.toNat (toNat_mem_blankCodes h)
  rwa [Char.ofNat_toNat, Bool.not_eq_true'] at hc

theorem isName_of_isBlank {c : Char} (h : isBlank c = true) : isName c = false :=
  eq_false_of_isBlank (by decide +kernel) h

theorem isIdentRest_of_isBlank {c : Char} (h : isBlank c = true) : isIdentRest c = false :=
  eq_false_of_isBlank (by decide) h

theorem isBlank_of_isName {c : Char} (h : isName c = true) : isBlank c = false := by
  cases hb : isBlank c with
  | false => rfl
  | true =>
    rw [isName_of_isBlank hb] at h
    cases h

end Text

namespace Line

theorem ofText_append {b s : List Char} (hb : ∀ c ∈ b, Text.isBlank c = true)
    (h : Text.OneLine s) : ofText (b ++ s) = ⟨b.length, s⟩ := by
  obtain ⟨c, t, rfl, hc⟩ := h.exists_first
  have hi : Text.indent (b ++ c :: t) = b.length := by
    rw [Text.indent, List.takeWhile_append_of_pos hb, List.takeWhile_cons, if_neg (by simp [hc]),
      List.append_nil]
  have ht : Text.trim (b ++ c :: t) = c :: t := by
    rw [Text.trim, Text.trimStart_append hb]
    exact h.trimmed
  rw [ofText, hi, ht]

theorem isAllBlank_append {b s : List Char} (h : Text.OneLine s) :
    Text.isAllBlank (b ++ s) = false := by
  obtain ⟨c, t, rfl, hc⟩ := h.exists_first
  simp [Text.isAllBlank, hc]

/-- Texts with line feeds between them are split into the texts. -/
theorem splitOn_intercalate {lines : List (List Char)} (hne : lines ≠ [])
    (h : ∀ l ∈ lines, '\n' ∉ l) : Text.splitOn '\n' (['\n'].intercalate lines) = lines := by
  induction lines with
  | nil => exact (hne rfl).elim
  | cons l rest ih =>
    have hl := Text.splitOn_of_not_mem (h l List.mem_cons_self)
    cases rest with
    | nil => simpa using hl
    | cons l' rest =>
      have hr := ih (by simp) fun x hx => h x (List.mem_cons_of_mem _ hx)
      rw [List.intercalate_cons_cons, List.append_assoc, List.singleton_append,
        Text.splitOn_append_cons, hl, hr]
      rfl

end Line

end IndentMarkup
