import IndentMarkup.Proofs.Line.Characters
import IndentMarkup.Proofs.Source.Attributes

/-!
# Attributes one behind the other

An attribute ends where its value does: what it is read as does not depend on what follows. So the
attributes of a text that is nothing but attributes stay the same in front of others, and an
attribute that makes up a line is read as the same one behind them. A block of attributes ends at
its closing brace in the same way.
-/
namespace IndentMarkup

namespace Text

theorem trimStart_append_of_ne_nil {s : List Char} (h : trimStart s ≠ []) (t : List Char) :
    trimStart (s ++ t) = trimStart s ++ t := by
  rw [trimStart, List.dropWhile_append]
  exact if_neg fun he => h (List.isEmpty_iff.1 he)

end Text

namespace Insertion

/-- Closing braces are found in the same place whatever follows them. -/
theorem closing?_eq_none_of_append {b r : List Char} (hb : b ≠ [])
    (h : closing? (b ++ '}' :: '}' :: r) = none) (x : List Char) :
    closing? (b ++ '}' :: '}' :: x) = none := by
  apply SimpleAttribute.closing?_eq_none
  intro y he
  cases b with
  | nil => exact hb rfl
  | cons c b =>
    cases b with
    | nil =>
      cases he
      cases h
    | cons d b =>
      cases he
      cases h

theorem cutBody?_eq_some {s b r : List Char} (h : cutBody? closing? s = some (b, r)) :
    b ≠ [] ∧ s = b ++ '}' :: '}' :: r ∧
      ∀ x, cutBody? closing? (b ++ '}' :: '}' :: x) = some (b, x) := by
  induction s generalizing b with
  | nil => cases h
  | cons c s ih =>
    rw [cutBody?] at h
    split at h
    · cases h
    next hc =>
    split at h
    · next hr =>
      cases h
      refine ⟨List.cons_ne_nil _ _, congrArg (c :: ·) (closing?_eq_some hr), fun x => ?_⟩
      rw [List.singleton_append, cutBody?, if_neg hc]
      rfl
    · next hr =>
      obtain ⟨⟨b', r'⟩, hp, e⟩ := Option.map_eq_some_iff.1 h
      cases e
      obtain ⟨hb, rfl, hx⟩ := ih hp
      refine ⟨List.cons_ne_nil _ _, rfl, fun x => ?_⟩
      rw [List.cons_append, cutBody?, if_neg hc, closing?_eq_none_of_append hb hr x, hx x]
      rfl

end Insertion

theorem Nesting.cutBlock?_append {n : Nesting} {s b r : List Char}
    (h : n.cutBlock? s = some (b, r)) (t : List Char) :
    n.cutBlock? (s ++ t) = some (b, r ++ t) := by
  induction s generalizing n b with
  | nil => cases h
  | cons c s ih =>
    rw [cutBlock?] at h
    rw [List.cons_append, cutBlock?]
    split at h
    · next hc =>
      cases h
      rw [if_pos hc]
    · next hc =>
      obtain ⟨⟨b', r'⟩, hp, e⟩ := Option.map_eq_some_iff.1 h
      cases e
      rw [if_neg hc, ih hp]
      rfl

namespace SimpleAttribute

theorem key?_eq_some {s k r : List Char} (h : key? s = some (k, r)) :
    IsKey (String.ofList k) ∧ s = k ++ '=' :: r := by
  cases s with
  | nil => cases h
  | cons c s =>
    rw [key?] at h
    split at h
    · next hc =>
      split at h
      · next r hr =>
        cases h
        refine ⟨⟨c, _, String.toList_ofList, hc, fun d hd => List.mem_takeWhile_imp hd⟩, ?_⟩
        rw [List.cons_append, ← hr, List.takeWhile_append_dropWhile]
      · cases h
    · cases h

/-- A value ends with a quote or a brace, and is read as the same one whatever follows it. -/
theorem value?_eq_some {s r : List Char} {value : AttrValue} (h : value? s = some (value, r)) :
    ∃ t c, s = t ++ c :: r ∧ Text.isBlank c = false ∧
      ∀ x, value? (t ++ c :: x) = some (value, x) := by
  unfold value? at h
  split at h
  · next s =>
    obtain ⟨⟨b, r'⟩, hb, e⟩ := Option.map_eq_some_iff.1 h
    cases e
    obtain ⟨-, rfl, hx⟩ := Insertion.cutBody?_eq_some hb
    have ht : ∀ x, '{' :: '{' :: (b ++ ['}']) ++ '}' :: x = '{' :: '{' :: (b ++ '}' :: '}' :: x) :=
      fun x => by simp
    refine ⟨'{' :: '{' :: (b ++ ['}']), '}', (ht r').symm, rfl, fun x => ?_⟩
    rw [ht, value?, hx]
    rfl
  · next q s _ =>
    split at h
    · next hq =>
      split at h
      · next d after hd =>
        cases h
        have hn := List.head?_dropWhile_not (fun c => decide (c ≠ q)) s
        rw [hd] at hn
        obtain rfl : d = q := by simpa using hn
        have hm : d ∉ s.takeWhile (· ≠ d) := fun hm => by simpa using List.mem_takeWhile_imp hm
        refine ⟨d :: s.takeWhile (· ≠ d), d, ?_, ?_, fun x => value?_literal hq hm x⟩
        · rw [List.cons_append, ← hd, List.takeWhile_append_dropWhile]
        · rcases hq with rfl | rfl <;> rfl
      · cases h
    · cases h
  · cases h

/-- A text without blanks at its ends that is read as an attribute, whatever follows it. -/
structure Reads (text : List Char) (pair : AttributePair) : Prop where
  first : ∃ c s, text = c :: s ∧ Text.isWord c = true
  last : ∃ s c, text = s ++ [c] ∧ Text.isBlank c = false
  reads : ∀ rest, first? (text ++ rest) = some (pair, rest)

theorem exists_reads {s r : List Char} {pair : AttributePair} (h : first? s = some (pair, r)) :
    ∃ text, Reads text pair ∧ s = text ++ r := by
  unfold first? at h
  split at h
  · cases h
  next k v hk =>
  obtain ⟨⟨value, r'⟩, hv, e⟩ := Option.map_eq_some_iff.1 h
  cases e
  obtain ⟨hkey, -⟩ := key?_eq_some hk
  obtain ⟨t, c, rfl, hc, hx⟩ := value?_eq_some hv
  have hs := (key?_eq_some hk).2
  have hp : ∀ rest, key? (k ++ '=' :: rest) = some (k, rest) := by
    intro rest
    have hr := key?_printed hkey rest
    rwa [String.toList_ofList] at hr
  refine ⟨k ++ '=' :: (t ++ [c]), ⟨?_, ⟨k ++ '=' :: t, c, by simp, hc⟩, fun rest => ?_⟩,
    by simp [hs]⟩
  · obtain ⟨d, u, hd, hw, -⟩ := hkey
    rw [String.toList_ofList] at hd
    exact ⟨d, u ++ '=' :: (t ++ [c]), by simp [hd], hw⟩
  · rw [List.append_assoc, List.cons_append, List.append_assoc, List.singleton_append, first?, hp]
    dsimp only
    rw [hx]
    rfl

theorem Reads.split_append {text : List Char} {pair : AttributePair} (h : Reads text pair)
    {b : List Char} (hb : ∀ c ∈ b, Text.isBlank c = true) (rest : List Char) :
    split (b ++ (text ++ rest)) = (pair :: (split rest).1, (split rest).2) := by
  obtain ⟨c, s, rfl, hc⟩ := h.first
  have hn : Text.isBlank c = false := Text.isBlank_of_isName (by simp [Text.isName, hc])
  have ht : Text.trimStart (b ++ (c :: s ++ rest)) = c :: s ++ rest := by
    rw [Text.trimStart_append hb]
    exact Text.trimStart_cons_of_not_blank hn
  have hr := h.reads rest
  rw [← ht] at hr
  rw [split]
  split
  · next hnone =>
    rw [hr] at hnone
    cases hnone
  · next hsome =>
    rw [hr] at hsome
    cases hsome
    rfl

theorem split_congr {s t : List Char} (h : Text.trimStart s = Text.trimStart t) :
    split s = split t := by
  rw [split, split.eq_def t, Text.trim, Text.trim, h]

theorem isBlank_of_split_eq_nil {s : List Char} (h : split s = ([], [])) :
    ∀ c ∈ s, Text.isBlank c = true := by
  rw [split] at h
  split at h
  · have ht : Text.trim s = [] := congrArg Prod.snd h
    exact List.all_eq_true.1 ((Text.trim_eq_nil_iff s).1 ht)
  · cases h

/-- An attribute that makes up a line is read as itself without the blanks around it. -/
theorem reads_of_ofLine? {line : List Char} {pair : AttributePair} (h : ofLine? line = some pair) :
    Reads (Text.trim line) pair := by
  have hs : split line = ([pair], []) := by
    unfold ofLine? at h
    split at h
    · next hs =>
      cases h
      exact hs
    · cases h
  rw [split] at hs
  split at hs
  · cases hs
  next p r hf =>
  have hr : p = pair ∧ split r = ([], []) := by
    cases hr : split r with
    | mk pairs content =>
      rw [hr] at hs
      cases hs
      exact ⟨rfl, rfl⟩
  obtain ⟨text, ht, he⟩ := exists_reads hf
  obtain ⟨s, c, hl, hc⟩ := ht.last
  have htrim : Text.trim line = text := by
    rw [Text.trim, he, Text.trimEnd_append_blank (isBlank_of_split_eq_nil hr.2), hl,
      Text.trimEnd_append hc]
  rw [htrim, ← hr.1]
  exact ht

/-- Attributes behind which nothing stands keep their places in front of others. -/
theorem split_append {s : List Char} (h : (split s).2 = []) (t : List Char) :
    split (s ++ ' ' :: t) = ((split s).1 ++ (split t).1, (split t).2) := by
  fun_induction split s with
  | case1 s hf =>
    -- Nothing is left behind the attributes, so there are only blanks.
    have hb : ∀ c ∈ s ++ [' '], Text.isBlank c = true := by
      intro c hc
      rcases List.mem_append.1 hc with hc | hc
      · exact List.all_eq_true.1 ((Text.trim_eq_nil_iff s).1 h) c hc
      · exact Text.isBlank_of_mem_space c hc
    apply split_congr
    rw [← List.singleton_append, ← List.append_assoc, Text.trimStart_append hb]
  | case2 s p r hf pairs content hr ih =>
    rw [hr] at ih
    obtain ⟨text, ht, he⟩ := exists_reads hf
    have hs : s ++ ' ' :: t = s.takeWhile Text.isBlank ++ (text ++ (r ++ ' ' :: t)) := by
      rw [← List.append_assoc text, ← he, ← List.append_assoc, Text.takeWhile_append_trimStart]
    rw [hs, ht.split_append fun c hc => List.mem_takeWhile_imp hc, ih h]
    rfl

end SimpleAttribute

end IndentMarkup
