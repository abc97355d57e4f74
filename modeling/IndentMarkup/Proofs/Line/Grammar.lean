import IndentMarkup.Proofs.Line.Nesting

/-!
# The grammar of blocks

A block is said here without a scan: items between braces, where an item is a block again, a span
between backticks that holds no backtick, or a single character that is neither a brace nor a
backtick. The sequences of items are the balanced texts. So the scan for the end of a block, which
counts braces, recognizes the blocks of the grammar, and a text begins with one of them at most.
-/
namespace IndentMarkup

namespace BlockGrammar

mutual

/-- Items between braces. -/
inductive Block : List Char → Prop
  | braces {s : List Char} (h : Items s) : Block ('{' :: (s ++ ['}']))

inductive Item : List Char → Prop
  | block {s : List Char} (h : Block s) : Item s
  | span {s : List Char} (h : '\x60' ∉ s) : Item ('\x60' :: (s ++ ['\x60']))
  | single {c : Char} (ho : c ≠ '{') (hc : c ≠ '}') (hq : c ≠ '\x60') : Item [c]

inductive Items : List Char → Prop
  | nil : Items []
  | cons {s t : List Char} (h : Item s) (ht : Items t) : Items (s ++ t)

end

end BlockGrammar

namespace Nesting

open BlockGrammar

theorem isPlain_iff {c : Char} : isPlain c = true ↔ c ≠ '{' ∧ c ≠ '}' ∧ c ≠ '\x60' := by
  simp only [isPlain, Bool.and_eq_true, bne_iff_ne]
  tauto

/-! ### Spans between backticks -/

theorem step_of_quoted {n : Nesting} (h : n.quoted = true) {c : Char} (hc : c ≠ '\x60') :
    n.step c = n := by
  rw [step, if_neg hc, if_pos h]

theorem trace_of_quoted {n : Nesting} (h : n.quoted = true) {s : List Char} (hs : '\x60' ∉ s) :
    n.run s = n ∧ ∀ m ∈ n.trace s, m = n := by
  induction s with
  | nil => exact ⟨rfl, fun m hm => (List.not_mem_nil hm).elim⟩
  | cons c s ih =>
    rw [List.mem_cons, not_or] at hs
    have hc : n.step c = n := step_of_quoted h (Ne.symm hs.1)
    obtain ⟨hr, ht⟩ := ih hs.2
    rw [run_cons, trace, hc]
    exact ⟨hr, List.forall_mem_cons.2 ⟨rfl, ht⟩⟩

theorem balanced_span {s : List Char} (h : '\x60' ∉ s) :
    Balanced ('\x60' :: (s ++ ['\x60'])) := by
  let n : Nesting := ⟨0, true⟩
  obtain ⟨hr, ht⟩ := trace_of_quoted (n := n) rfl h
  constructor
  · change n.run (s ++ ['\x60']) = start
    rw [run_append, hr]
    rfl
  · change ∀ m ∈ n :: n.trace (s ++ ['\x60']), 0 ≤ m.depth
    rw [trace_append, hr, List.forall_mem_cons, List.forall_mem_append]
    refine ⟨Int.le_refl 0, fun m hm => ?_, by decide⟩
    exact Int.le_of_eq (congrArg Nesting.depth (ht m hm)).symm

/-- A span that a balanced text begins with is closed, and the text behind it is balanced. -/
theorem Balanced.exists_span {t : List Char} (h : Balanced ('\x60' :: t)) :
    ∃ s r, t = s ++ '\x60' :: r ∧ '\x60' ∉ s ∧ Balanced r := by
  by_cases hm : '\x60' ∈ t
  · obtain ⟨s, r, rfl, hs⟩ := List.eq_append_cons_of_mem hm
    have he : '\x60' :: (s ++ '\x60' :: r) = '\x60' :: (s ++ ['\x60']) ++ r := by simp
    rw [he, balanced_append_iff (balanced_span hs).run_eq] at h
    exact ⟨s, r, rfl, hs, h.2⟩
  · -- without a second backtick the scan would end inside the span
    have hr : run ⟨0, true⟩ t = start := h.run_eq
    rw [(trace_of_quoted rfl hm).1] at hr
    cases hr

/-! ### Blocks at the start of a text -/

theorem one_le_depth_of_cutBlock? {n : Nesting} {s : List Char} (hn : 1 ≤ n.depth)
    (h : n.cutBlock? s = none) : 1 ≤ (n.run s).depth := by
  induction s generalizing n with
  | nil => exact hn
  | cons c s ih =>
    rw [cutBlock?] at h
    split at h
    · cases h
    · next hc =>
      rw [run_cons]
      exact ih (one_le_depth_step hn hc) (Option.map_eq_none_iff.1 h)

/-- A brace that a balanced text begins with opens a block, and the text behind it is balanced. -/
theorem Balanced.exists_block {t : List Char} (h : Balanced ('{' :: t)) :
    ∃ s r, t = s ++ '}' :: r ∧ Balanced s ∧ Balanced r := by
  have hr : start.inside.run t = start := h.run_eq
  cases hc : start.inside.cutBlock? t with
  | none =>
    have hd := one_le_depth_of_cutBlock? (Int.le_refl 1) hc
    rw [hr] at hd
    cases hd
  | some cut =>
    obtain ⟨b, r⟩ := cut
    have ht := append_of_cutBlock? hc
    obtain ⟨s, rfl, hrun, hdepth⟩ := exists_of_cutBlock? (Int.le_refl 1) hc
    have hs : Balanced s := balanced_iff_inside.2 ⟨hrun, hdepth⟩
    rw [← ht, ← List.cons_append, balanced_append_iff hs.braces.run_eq] at h
    exact ⟨s, r, by simp [← ht], hs, h.2⟩

theorem Balanced.ne_close {c : Char} {t : List Char} (h : Balanced (c :: t)) : c ≠ '}' := by
  rintro rfl
  have hd : 0 ≤ (start.step '}').depth := h.depth_nonneg _ List.mem_cons_self
  exact absurd hd (by decide)

/-! ### Balanced texts are sequences of items -/

mutual

theorem balanced_of_block {s : List Char} (h : Block s) : Balanced s := by
  match h with
  | .braces hi => exact (balanced_of_items hi).braces

theorem balanced_of_item {s : List Char} (h : Item s) : Balanced s := by
  match h with
  | .block hb => exact balanced_of_block hb
  | .span hs => exact balanced_span hs
  | .single ho hc hq => exact balanced_singleton (isPlain_iff.2 ⟨ho, hc, hq⟩)

theorem balanced_of_items {s : List Char} (h : Items s) : Balanced s := by
  match h with
  | .nil => exact balanced_nil
  | .cons hi ht => exact (balanced_of_item hi).append (balanced_of_items ht)

end

/-- The first character of a balanced text decides what its first item is. -/
theorem items_of_balanced {s : List Char} (h : Balanced s) : Items s := by
  induction hn : s.length using Nat.strong_induction_on generalizing s with
  | _ n ih =>
    subst hn
    cases s with
    | nil => exact .nil
    | cons c t =>
      by_cases ho : c = '{'
      · subst ho
        obtain ⟨s, r, rfl, hs, hr⟩ := h.exists_block
        have hl : ('{' :: (s ++ '}' :: r)).length = s.length + r.length + 2 := by simp; omega
        have hi : Items s := ih s.length (by omega) hs rfl
        have ht : Items r := ih r.length (by omega) hr rfl
        have he : '{' :: (s ++ '}' :: r) = '{' :: (s ++ ['}']) ++ r := by simp
        rw [he]
        exact .cons (.block (.braces hi)) ht
      by_cases hq : c = '\x60'
      · subst hq
        obtain ⟨s, r, rfl, hs, hr⟩ := h.exists_span
        have hl : ('\x60' :: (s ++ '\x60' :: r)).length = s.length + r.length + 2 := by simp; omega
        have ht : Items r := ih r.length (by omega) hr rfl
        have he : '\x60' :: (s ++ '\x60' :: r) = '\x60' :: (s ++ ['\x60']) ++ r := by simp
        rw [he]
        exact .cons (.span hs) ht
      · have hp := isPlain_iff.2 ⟨ho, h.ne_close, hq⟩
        rw [← List.singleton_append, balanced_append_iff (balanced_singleton hp).run_eq] at h
        have ht : Items t := ih t.length (by simp) h.2 rfl
        exact .cons (.single ho (isPlain_iff.1 hp).2.1 hq) ht

theorem balanced_iff_items {s : List Char} : Balanced s ↔ Items s :=
  ⟨items_of_balanced, balanced_of_items⟩

end Nesting

namespace BlockGrammar

/-- The block that a text is cut behind is the one of the grammar that the text begins with. -/
theorem splitBlock?_eq_some_iff_block {t b r : List Char} :
    splitBlock? t = some (b, r) ↔ Block b ∧ t = b ++ r := by
  rw [splitBlock?_eq_some_iff]
  constructor
  · rintro ⟨s, hs, rfl, rfl⟩
    exact ⟨.braces (Nesting.balanced_iff_items.1 hs), rfl⟩
  · rintro ⟨⟨hi⟩, rfl⟩
    exact ⟨_, Nesting.balanced_iff_items.2 hi, rfl, rfl⟩

theorem Block.unique {t b b' : List Char} (h : Block b) (h' : Block b') (hp : b <+: t)
    (hp' : b' <+: t) : b = b' := by
  obtain ⟨r, rfl⟩ := hp
  obtain ⟨r', he⟩ := hp'
  have hs : splitBlock? (b ++ r) = some (b, r) := splitBlock?_eq_some_iff_block.2 ⟨h, rfl⟩
  have hs' : splitBlock? (b ++ r) = some (b', r') :=
    splitBlock?_eq_some_iff_block.2 ⟨h', he.symm⟩
  rw [hs] at hs'
  cases hs'
  rfl

theorem Block.byteCount_pos {b : List Char} (h : Block b) : 0 < Text.byteCount b := by
  cases h
  exact Text.byteCount_pos (List.cons_ne_nil _ _)

theorem blockEnd?_eq_some_iff {s : List Char} {i : Nat} :
    blockEnd? s = some i ↔ ∃ b r, s = b ++ r ∧ Text.byteCount b = i + 1 ∧ Block b := by
  rw [blockEnd?, Option.map_eq_some_iff]
  constructor
  · rintro ⟨⟨b, r⟩, hs, rfl⟩
    obtain ⟨hb, he⟩ := splitBlock?_eq_some_iff_block.1 hs
    exact ⟨b, r, he, (Nat.sub_add_cancel hb.byteCount_pos).symm, hb⟩
  · rintro ⟨b, r, he, hi, hb⟩
    exact ⟨(b, r), splitBlock?_eq_some_iff_block.2 ⟨hb, he⟩, by rw [hi, Nat.add_sub_cancel]⟩

/-- The scan finds the end of a block at an offset if and only if the text up to and with the byte
there is a block of the grammar. A text begins with one block at most, and the scan finds no end if
and only if the text begins with none. -/
theorem blockEnd?_recognizes (s : List Char) :
    (∀ i, blockEnd? s = some i ↔ ∃ b r, s = b ++ r ∧ Text.byteCount b = i + 1 ∧ Block b) ∧
    (∀ b b', b <+: s → b' <+: s → Block b → Block b' → b = b') ∧
    (blockEnd? s = none ↔ ∀ b, b <+: s → ¬ Block b) := by
  refine ⟨fun i => blockEnd?_eq_some_iff, fun b b' hp hp' hb hb' => hb.unique hb' hp hp', ?_⟩
  rw [Option.eq_none_iff_forall_ne_some]
  constructor
  · rintro h b ⟨r, hs⟩ hb
    have hi := (Nat.sub_add_cancel hb.byteCount_pos).symm
    exact h _ (blockEnd?_eq_some_iff.2 ⟨b, r, hs.symm, hi, hb⟩)
  · intro h i hi
    obtain ⟨b, r, rfl, -, hb⟩ := blockEnd?_eq_some_iff.1 hi
    exact h b (List.prefix_append b r) hb

end BlockGrammar

end IndentMarkup
