import IndentMarkup.Line.Insertion
import IndentMarkup.Proofs.Line.Nesting

/-!
# Texts that are one insertion

A text is taken for one insertion if a second brace follows its first one and the block that the
first one opens ends with the text. The expression is what stands between these two braces and the
last two characters. If its braces are balanced, the last two characters are the closing braces of
the insertion, and nothing but blanks is lost around the expression. If not, the brace in front of
the last one may stand further inside; then the character in front of the last brace is lost, and
the insertion is not closed as it was opened. If that character takes more than one byte, the cut
falls inside it and reading breaks off.
-/
namespace IndentMarkup

open Nesting

namespace Nesting

/-- Behind a balanced text, only a closing brace closes the brace in front of it. -/
theorem Balanced.eq_close {s : List Char} (hs : Balanced s) {c : Char}
    (h : Balanced ('{' :: (s ++ [c]))) : c = '}' := by
  have hrun : start.inside.run (s ++ [c]) = start := h.run_eq
  rw [run_append, (balanced_iff_inside.1 hs).1, run_cons, run_nil] at hrun
  unfold step at hrun
  split_ifs at hrun with hq ho hopen hclose
  · cases hrun
  · cases ho
  · cases hrun
  · exact hclose
  · cases hrun

theorem balanced_blanks_append_iff {a b s : List Char} (ha : ∀ c ∈ a, Text.isBlank c = true)
    (hb : ∀ c ∈ b, Text.isBlank c = true) : Balanced (a ++ (s ++ b)) ↔ Balanced s := by
  have hpa : Balanced a := balanced_of_isPlain fun c hc => isPlain_of_isBlank (ha c hc)
  have hpb : Balanced b := balanced_of_isPlain fun c hc => isPlain_of_isBlank (hb c hc)
  rw [balanced_append_iff hpa.run_eq, and_iff_right hpa]
  constructor
  · intro h
    have hr : start.run s = start := by
      have hrun := h.run_eq
      rwa [run_append, run_of_isPlain fun c hc => isPlain_of_isBlank (hb c hc)] at hrun
    exact ((balanced_append_iff hr).1 h).1
  · exact fun h => h.append hpb

end Nesting

/-- The text, without the blanks at its ends, is the expression between opening and closing braces,
with nothing else than blanks next to the braces. -/
def Encloses (s e : List Char) : Prop :=
  ∃ a b, (∀ c ∈ a, Text.isBlank c = true) ∧ (∀ c ∈ b, Text.isBlank c = true) ∧
    Text.trim s = '{' :: '{' :: (a ++ (e ++ (b ++ ['}', '}'])))

/-- Two bytes can be cut off in front of the last brace only if they are two characters. -/
theorem Text.takeBytes?_of_brace (inner : List Char) (c : Char) :
    takeBytes? (byteCount (inner ++ [c, '}']) - 2) (inner ++ [c, '}']) =
      if c.utf8Size = 1 then some inner else none := by
  have hc := c.utf8Size_pos
  have hbrace : ('}' : Char).utf8Size = 1 := rfl
  have hall : byteCount (inner ++ [c, '}']) = byteCount inner + c.utf8Size + 1 := by
    rw [byteCount_append, byteCount, byteCount, byteCount, hbrace]
    omega
  split_ifs with h
  · exact takeBytes?_eq_some_iff.2 ⟨List.prefix_append inner _, by omega⟩
  · refine Option.eq_none_iff_forall_ne_some.2 fun t ht => ?_
    obtain ⟨hp, hb⟩ := takeBytes?_eq_some_iff.1 ht
    -- the cut would have to lie between the ends of the inner characters and the end of `c`
    rw [List.append_cons, List.prefix_concat_iff, List.prefix_concat_iff] at hp
    rcases hp with rfl | rfl | ⟨u, rfl⟩
    · rw [← List.append_cons] at hb
      omega
    · rw [byteCount_append, byteCount, byteCount] at hb
      omega
    · have hu : byteCount t ≤ byteCount (t ++ u) := by
        rw [byteCount_append]
        exact Nat.le_add_right _ _
      omega

theorem splitBlock?_of_two_braces {s rest b : List Char} (ht : s = '{' :: '{' :: rest)
    (hb : splitBlock? s = some (b, [])) :
    ∃ inner c, s = '{' :: '{' :: (inner ++ [c, '}']) ∧ Balanced ('{' :: (inner ++ [c])) := by
  obtain ⟨body, hbal, rfl, hbody⟩ := splitBlock?_eq_some_iff.1 hb
  rw [List.append_nil] at hbody
  rw [hbody, List.cons.injEq] at ht
  -- the body begins with the second brace, which alone is not balanced
  cases body with
  | nil => cases ht.2
  | cons d body =>
    obtain ⟨rfl, hrest⟩ := List.cons.inj ht.2
    rcases List.eq_nil_or_concat' body with rfl | ⟨inner, c, rfl⟩
    · exact absurd hbal (by decide)
    · exact ⟨inner, c, by simp [hbody], hbal⟩

/-- A text that is a block and holds another brace first is cut in front of its last two characters,
unless the first of them takes more than one byte. -/
theorem cutInsertion?_of_block {s inner : List Char} {c : Char}
    (ht : Text.trim s = '{' :: '{' :: (inner ++ [c, '}']))
    (hbal : Balanced ('{' :: (inner ++ [c]))) :
    cutInsertion? s = if c.utf8Size = 1 then
      some (if Text.trim inner = [] then none else some (Text.trim inner)) else none := by
  have hb : splitBlock? (Text.trim s) = some (Text.trim s, []) :=
    splitBlock?_eq_some_iff.2 ⟨_, hbal, by simp [ht], (List.append_nil _).symm⟩
  unfold cutInsertion?
  rw [ht] at hb ⊢
  simp only [hb, Text.takeBytes?_of_brace]
  split_ifs with hc hn
  · exact congrArg some (if_pos hn)
  · exact congrArg some (if_neg hn)
  · rfl

theorem exists_of_cutInsertion? {s : List Char} (h : cutInsertion? s ≠ some none) :
    ∃ inner c, Text.trim s = '{' :: '{' :: (inner ++ [c, '}']) ∧
      Balanced ('{' :: (inner ++ [c])) := by
  unfold cutInsertion? at h
  dsimp only at h
  split at h
  · next rest ht =>
    split at h
    · next block hb => exact splitBlock?_of_two_braces ht hb
    · exact (h rfl).elim
  · exact (h rfl).elim

/-- Reading a text as an insertion breaks off exactly if the text is a block that holds another
brace first, and the character in front of its last one takes more than one byte. -/
theorem cutInsertion?_eq_none_iff {s : List Char} : cutInsertion? s = none ↔
    ∃ inner c, Text.trim s = '{' :: '{' :: (inner ++ [c, '}']) ∧
      Balanced ('{' :: (inner ++ [c])) ∧ c.utf8Size ≠ 1 := by
  constructor
  · intro h
    obtain ⟨inner, c, ht, hbal⟩ := exists_of_cutInsertion? (by rw [h]; simp)
    refine ⟨inner, c, ht, hbal, fun hc => ?_⟩
    rw [cutInsertion?_of_block ht hbal, if_pos hc] at h
    cases h
  · rintro ⟨inner, c, ht, hbal, hc⟩
    rw [cutInsertion?_of_block ht hbal, if_neg hc]

/-- A text is one insertion if it is a block that holds another brace first; the last two characters
do not belong to the expression. -/
theorem singleInsertion?_eq_some_iff {s e : List Char} : singleInsertion? s = some e ↔
    ∃ inner c, Text.trim s = '{' :: '{' :: (inner ++ [c, '}']) ∧
      Balanced ('{' :: (inner ++ [c])) ∧ c.utf8Size = 1 ∧ e = Text.trim inner ∧ e ≠ [] := by
  unfold singleInsertion?
  constructor
  · intro h
    have hcut : cutInsertion? s = some (some e) := Option.join_eq_some_iff.1 h
    obtain ⟨inner, c, ht, hbal⟩ := exists_of_cutInsertion? (by rw [hcut]; simp)
    rw [cutInsertion?_of_block ht hbal] at hcut
    split_ifs at hcut with hc hne
    · cases hcut
    · cases hcut
      exact ⟨inner, c, ht, hbal, hc, rfl, hne⟩
  · rintro ⟨inner, c, ht, hbal, hc, rfl, hne⟩
    rw [cutInsertion?_of_block ht hbal, if_pos hc, if_neg hne]
    rfl

/-- The expression with the blanks around it, and the last two characters. -/
theorem exists_of_singleInsertion? {s e : List Char} (h : singleInsertion? s = some e) :
    ∃ a b c, (∀ d ∈ a, Text.isBlank d = true) ∧ (∀ d ∈ b, Text.isBlank d = true) ∧
      Text.trim s = '{' :: '{' :: (a ++ (e ++ (b ++ [c, '}']))) ∧ (Balanced e → c = '}') := by
  obtain ⟨inner, c, ht, hbal, -, rfl, -⟩ := singleInsertion?_eq_some_iff.1 h
  obtain ⟨a, b, ha, hb, hi⟩ := Text.exists_append_trim inner
  refine ⟨a, b, c, ha, hb, ?_, fun he => ?_⟩
  · rw [ht]
    nth_rewrite 1 [hi]
    simp
  · refine Balanced.eq_close ?_ hbal
    rw [hi]
    exact (balanced_blanks_append_iff ha hb).2 he

/-- Whatever the expression, the closing braces of an insertion enclose it if they end the text. -/
theorem encloses_iff_suffix {s e : List Char} (h : singleInsertion? s = some e) :
    Encloses s e ↔ ['}', '}'] <:+ Text.trim s := by
  constructor
  · rintro ⟨a, b, -, -, ht⟩
    exact ⟨'{' :: '{' :: (a ++ (e ++ b)), by simp [ht]⟩
  · rintro ⟨u, hu⟩
    obtain ⟨a, b, c, ha, hb, ht, -⟩ := exists_of_singleInsertion? h
    have he : u ++ ['}'] ++ ['}'] = '{' :: '{' :: (a ++ (e ++ b)) ++ [c] ++ ['}'] := by
      simpa [ht] using hu
    obtain ⟨-, hc⟩ := List.append_inj' (List.append_cancel_right he) rfl
    cases hc
    exact ⟨a, b, ha, hb, ht⟩

theorem singleInsertion?_of_encloses {s e : List Char} (he : Balanced e) (hne : e ≠ [])
    (ht : Text.trim e = e) (h : Encloses s e) : singleInsertion? s = some e := by
  obtain ⟨a, b, ha, hb, hs⟩ := h
  refine singleInsertion?_eq_some_iff.2 ⟨a ++ (e ++ b), '}', by simp [hs], ?_, rfl, ?_, hne⟩
  · exact ((balanced_blanks_append_iff ha hb).2 he).braces
  · exact (Text.trim_append_of_trimmed hne ht ha hb).symm

/-- A text is taken for the insertion of a balanced expression exactly if it encloses the
expression. For any expression, what is taken for its insertion encloses it exactly if the text ends
with two closing braces; the one character that may stand in place of the first of them is lost, and
then the braces of the expression are not balanced. -/
theorem singleInsertion?_encloses (s : List Char) :
    (∀ e, Balanced e → (singleInsertion? s = some e ↔
      e ≠ [] ∧ Text.trim e = e ∧ Encloses s e)) ∧
    ∀ e, singleInsertion? s = some e →
      (Encloses s e ↔ ['}', '}'] <:+ Text.trim s) ∧
      ∃ a b c, (∀ d ∈ a, Text.isBlank d = true) ∧ (∀ d ∈ b, Text.isBlank d = true) ∧
        Text.trim s = '{' :: '{' :: (a ++ (e ++ (b ++ [c, '}']))) ∧ (c ≠ '}' → ¬ Balanced e) := by
  refine ⟨fun e he => ⟨fun h => ?_, fun ⟨hne, ht, h⟩ => singleInsertion?_of_encloses he hne ht h⟩,
    fun e h => ⟨encloses_iff_suffix h, ?_⟩⟩
  · obtain ⟨a, b, c, ha, hb, hs, hc⟩ := exists_of_singleInsertion? h
    cases hc he
    obtain ⟨inner, -, -, -, -, rfl, hne⟩ := singleInsertion?_eq_some_iff.1 h
    exact ⟨hne, Text.trim_trim inner, a, b, ha, hb, hs⟩
  · obtain ⟨a, b, c, ha, hb, hs, hc⟩ := exists_of_singleInsertion? h
    exact ⟨a, b, c, ha, hb, hs, fun hne he => hne (hc he)⟩

/-- An insertion whose expression ends with two closing braces of its own. -/
def nestedInsertion : List Char :=
  ['{', '{', ' ', '{', 'a', ':', '{', '}', '}', '.', 'a', ' ', '}', '}']

/-- A text that closes its second brace in front of its last two characters. -/
def earlyClose : List Char := ['{', '{', ' ', 'x', ' ', '}', 'y', '}']

theorem singleInsertion?_encloses_nested :
    (Balanced ['{', 'a', ':', '{', '}', '}', '.', 'a'] ∧
      singleInsertion? nestedInsertion = some ['{', 'a', ':', '{', '}', '}', '.', 'a'] ∧
      Encloses nestedInsertion ['{', 'a', ':', '{', '}', '}', '.', 'a']) ∧
    singleInsertion? earlyClose = some ['x', ' ', '}'] ∧
      (Encloses earlyClose ['x', ' ', '}'] ↔ ['}', '}'] <:+ Text.trim earlyClose) := by
  have hb : Balanced ['{', 'a', ':', '{', '}', '}', '.', 'a'] := by decide
  have hn : singleInsertion? nestedInsertion = some ['{', 'a', ':', '{', '}', '}', '.', 'a'] := rfl
  have he : singleInsertion? earlyClose = some ['x', ' ', '}'] := rfl
  exact ⟨⟨hb, hn, (((singleInsertion?_encloses _).1 _ hb).1 hn).2.2⟩, he,
    ((singleInsertion?_encloses _).2 _ he).1⟩

/-- The text is taken for an insertion, but it does not enclose the expression. -/
theorem singleInsertion?_earlyClose :
    singleInsertion? earlyClose = some ['x', ' ', '}'] ∧ ¬ Encloses earlyClose ['x', ' ', '}'] ∧
      'y' ∈ earlyClose ∧ 'y' ∉ ['x', ' ', '}'] := by
  have he : singleInsertion? earlyClose = some ['x', ' ', '}'] := rfl
  refine ⟨he, ?_, by decide, by decide⟩
  rw [encloses_iff_suffix he]
  decide

end IndentMarkup
