import IndentMarkup.Proofs.Line.Attributes

/-!
# Where insertions end

An expression goes on up to the nearest closing braces behind its first character, perhaps with
blanks in front of them, and the blanks that an insertion begins with are skipped before. So a text
begins with an insertion exactly when closing braces stand somewhere behind its opening braces and
something other than line feeds can be taken for the expression between them; whether there is one
does not depend on what follows the braces. The first insertion of a text has none in front of it.
-/
namespace IndentMarkup

namespace Text

theorem isBlank_of_mem_takeWhile {s : List Char} : ∀ c ∈ s.takeWhile isBlank, isBlank c = true :=
  fun _ hc => List.mem_takeWhile_imp hc

theorem takeWhile_append_blank {w : List Char} (hw : ∀ c ∈ w, isBlank c = true) {c : Char}
    (hc : isBlank c = false) (s : List Char) : (w ++ c :: s).takeWhile isBlank = w := by
  simp [List.takeWhile_append_of_pos hw, hc]

theorem trimStart_behind_space {c : Char} (hc : isBlank c = false) (s : List Char) :
    trimStart (' ' :: c :: s) = c :: s := by
  have ht := trimStart_append isBlank_of_mem_space (c :: s)
  rwa [List.singleton_append, trimStart_cons_of_not_blank hc] at ht

/-- Blanks do not go on beyond another character. -/
theorem length_le_of_blanks {w s u v : List Char} {c : Char} (hw : ∀ c ∈ w, isBlank c = true)
    (hc : isBlank c = false) (h : w ++ s = u ++ c :: v) : w.length ≤ u.length := by
  rcases List.append_eq_append_iff.1 h with ⟨a, rfl, -⟩ | ⟨a, rfl, ha⟩
  · simp
  · cases a with
    | nil => simp
    | cons d a =>
      obtain ⟨rfl, -⟩ := List.cons.inj ha
      rw [hw c (by simp)] at hc
      cases hc

/-- A text that is not all blanks begins, behind its blanks, with another character. -/
theorem exists_trimStart {s : List Char} (h : isAllBlank s = false) :
    ∃ c t, trimStart s = c :: t ∧ isBlank c = false := by
  cases hs : trimStart s with
  | nil =>
    rw [(trimStart_eq_nil_iff s).1 hs] at h
    cases h
  | cons c t => exact ⟨c, t, rfl, isBlank_of_trimStart_eq_cons hs⟩

end Text

namespace Insertion

/-- The text behind closing braces in front of which there may be blanks. -/
def closingBehind? (s : List Char) : Option (List Char) := closing? (Text.trimStart s)

theorem body?_eq (s : List Char) : body? s =
    match cutBody? closingBehind? (Text.trimStart s) with
    | some p => some p
    | none =>
      if (s.takeWhile Text.isBlank).any (· ≠ '\n') then
        (closingBehind? s).map fun r => ([], r)
      else none := rfl

theorem closingBehind?_eq_some_iff {s r : List Char} : closingBehind? s = some r ↔
    ∃ w, (∀ c ∈ w, Text.isBlank c = true) ∧ s = w ++ '}' :: '}' :: r := by
  constructor
  · intro h
    refine ⟨s.takeWhile Text.isBlank, Text.isBlank_of_mem_takeWhile, ?_⟩
    rw [← closing?_eq_some h, Text.takeWhile_append_trimStart]
  · rintro ⟨w, hw, rfl⟩
    rw [closingBehind?, Text.trimStart_append hw, Text.trimStart_cons_of_not_blank rfl]
    rfl

section

variable {close? : List Char → Option (List Char)} {s b r : List Char}

/-- The text is cut behind the shortest part of it, at least one character, behind which an end is
found. There is no line feed in that part. -/
structure CutBehind (close? : List Char → Option (List Char)) (s b r : List Char) : Prop where
  ne_nil : b ≠ []
  unbroken : '\n' ∉ b
  closed : ∃ v, s = b ++ v ∧ close? v = some r
  first : ∀ u v, u ≠ [] → s = u ++ v → u.length < b.length → close? v = none

theorem cutBehind_singleton {c : Char} (hc : c ≠ '\n') (hs : close? s = some r) :
    CutBehind close? (c :: s) [c] r where
  ne_nil := List.cons_ne_nil c []
  unbroken := by simpa using Ne.symm hc
  closed := ⟨s, rfl, hs⟩
  first := by
    intro u v hu _ hl
    exact (hu (by simpa using hl)).elim

theorem CutBehind.cons {c : Char} (hc : c ≠ '\n') (hs : close? s = none)
    (h : CutBehind close? s b r) : CutBehind close? (c :: s) (c :: b) r where
  ne_nil := List.cons_ne_nil c b
  unbroken := by simpa [Ne.symm hc] using h.unbroken
  closed := by
    obtain ⟨v, rfl, hv⟩ := h.closed
    exact ⟨v, rfl, hv⟩
  first := by
    rintro (_ | ⟨d, u⟩) v hu he hl
    · exact (hu rfl).elim
    · cases he
      cases u with
      | nil => exact hs
      | cons d u => exact h.first (d :: u) v (by simp) rfl (by simpa using hl)

theorem CutBehind.of_cons {c d : Char} (h : CutBehind close? (c :: s) (d :: b) r) :
    c ≠ '\n' ∧ ((b = [] ∧ close? s = some r) ∨
      (close? s = none ∧ CutBehind close? s b r)) := by
  obtain ⟨v, he, hv⟩ := h.closed
  cases he
  have hn := h.unbroken
  simp only [List.mem_cons, not_or] at hn
  refine ⟨Ne.symm hn.1, ?_⟩
  cases b with
  | nil => exact .inl ⟨rfl, hv⟩
  | cons d b =>
    refine .inr ⟨h.first [c] _ (by simp) rfl (by simp), by simp, hn.2, ⟨v, rfl, hv⟩, ?_⟩
    intro u x hu he hl
    exact h.first (c :: u) x (by simp) (by rw [he]; rfl) (by simpa using hl)

theorem cutBody?_eq_some_iff : cutBody? close? s = some (b, r) ↔ CutBehind close? s b r := by
  induction s generalizing b with
  | nil =>
    constructor
    · intro h
      cases h
    · intro h
      obtain ⟨v, he, -⟩ := h.closed
      exact (h.ne_nil (List.append_eq_nil_iff.1 he.symm).1).elim
  | cons c s ih =>
    rw [cutBody?]
    constructor
    · intro h
      split at h
      · cases h
      next hc =>
      split at h
      · next hs =>
        cases h
        exact cutBehind_singleton hc hs
      · next hs =>
        obtain ⟨⟨b', r'⟩, hp, e⟩ := Option.map_eq_some_iff.1 h
        cases e
        exact (ih.1 hp).cons hc hs
    · intro h
      cases b with
      | nil => exact (h.ne_nil rfl).elim
      | cons d b =>
        obtain ⟨v, he, -⟩ := h.closed
        obtain rfl : c = d := (List.cons.inj he).1
        obtain ⟨hc, ⟨rfl, hs⟩ | ⟨hs, hb⟩⟩ := h.of_cons
        · simp [hc, hs]
        · simp [hc, hs, ih.2 hb]

/-- If an end is found behind some characters without a line feed, the text is cut there or before.
-/
theorem isSome_cutBody? {u v : List Char} (hu : u ≠ []) (hn : '\n' ∉ u)
    (h : (close? v).isSome = true) : (cutBody? close? (u ++ v)).isSome = true := by
  induction u with
  | nil => exact (hu rfl).elim
  | cons c u ih =>
    simp only [List.mem_cons, not_or] at hn
    rw [List.cons_append, cutBody?, if_neg (Ne.symm hn.1)]
    split
    · rfl
    · next hs =>
      cases u with
      | nil =>
        rw [List.nil_append] at hs
        rw [hs] at h
        cases h
      | cons d u => simpa using ih (by simp) hn.2

end

/-- What can stand between braces: an expression without line feeds, perhaps of blanks only, between
blanks. -/
def Fits (y : List Char) : Prop :=
  ∃ w e w', (∀ c ∈ w, Text.isBlank c = true) ∧ (∀ c ∈ w', Text.isBlank c = true) ∧
    e ≠ [] ∧ '\n' ∉ e ∧ y = w ++ (e ++ w')

/-- The insertion behind opening braces, with the blanks around its expression: it ends at the first
closing braces behind the first character of the expression, or there are none and nothing but
blanks stands in it. -/
theorem body?_eq_some {s e r : List Char} (h : body? s = some (e, r)) :
    ∃ w w', (∀ c ∈ w, Text.isBlank c = true) ∧ (∀ c ∈ w', Text.isBlank c = true) ∧
      s = w ++ (e ++ (w' ++ '}' :: '}' :: r)) ∧
      (CutBehind closingBehind? (e ++ (w' ++ '}' :: '}' :: r)) e r ∧
          (∃ c t, e = c :: t ∧ Text.isBlank c = false) ∨
        e = [] ∧ w' = [] ∧ ∃ c ∈ w, c ≠ '\n') := by
  have hs := Text.takeWhile_append_trimStart s
  refine ⟨s.takeWhile Text.isBlank, ?_⟩
  rw [body?_eq] at h
  split at h
  · next p hp =>
    cases h
    have hc := cutBody?_eq_some_iff.1 hp
    obtain ⟨v, hv, hr⟩ := hc.closed
    obtain ⟨w', hw', rfl⟩ := closingBehind?_eq_some_iff.1 hr
    refine ⟨w', Text.isBlank_of_mem_takeWhile, hw', by rw [← hv, hs], .inl ⟨by rwa [← hv], ?_⟩⟩
    cases e with
    | nil => exact (hc.ne_nil rfl).elim
    | cons c t => exact ⟨c, t, rfl, Text.isBlank_of_trimStart_eq_cons hv⟩
  · split at h
    · next hany =>
      obtain ⟨r', hr, he⟩ := Option.map_eq_some_iff.1 h
      cases he
      refine ⟨[], Text.isBlank_of_mem_takeWhile, by simp, ?_, .inr ⟨rfl, rfl, by simpa using hany⟩⟩
      rw [List.nil_append, List.nil_append, ← closing?_eq_some hr, hs]
    · cases h

/-- The expression of an insertion has no blanks at its ends. -/
theorem trim_of_body? {s e r : List Char} (h : body? s = some (e, r)) : Text.trim e = e := by
  obtain ⟨w, w', -, hw', -, ⟨hc, c, t, rfl, hb⟩ | ⟨rfl, -⟩⟩ := body?_eq_some h
  · obtain ⟨u, d, he⟩ := (List.eq_nil_or_concat' (c :: t)).resolve_left (by simp)
    refine Text.trim_of_ends he hb ?_
    cases hd : Text.isBlank d with
    | false => rfl
    | true =>
      -- With a blank at its end, the expression would have ended in front of the blank.
      have hu : u ≠ [] := by
        rintro rfl
        cases he
        rw [hb] at hd
        cases hd
      have hs : closingBehind? (d :: w' ++ '}' :: '}' :: r) = some r :=
        closingBehind?_eq_some_iff.2 ⟨d :: w', by simpa [hd] using hw', rfl⟩
      have hn := hc.first u (d :: w' ++ '}' :: '}' :: r) hu (by rw [he]; simp) (by simp [he])
      rw [hs] at hn
      cases hn
  · rfl

/-- An insertion ends at the first closing braces behind its first character that is not a blank. -/
theorem ends_of_body? {s e r : List Char} (h : body? s = some (e, r)) :
    ∃ inside, inside ≠ [] ∧ s = inside ++ '}' :: '}' :: r ∧ Text.trim inside = e ∧
      ∀ u v, (∃ c ∈ u, Text.isBlank c = false) → s = u ++ '}' :: '}' :: v →
        inside.length ≤ u.length := by
  obtain ⟨w, w', hw, hw', hs, ⟨hc, -⟩ | ⟨rfl, rfl, c, hmem, -⟩⟩ := body?_eq_some h
  · have ho : Text.OneLine e := ⟨hc.ne_nil, trim_of_body? h, hc.unbroken⟩
    refine ⟨w ++ (e ++ w'), by simp [hc.ne_nil], by simp [hs], ho.trim_append hw hw', ?_⟩
    rintro u v ⟨d, hd, hdb⟩ hu
    rw [hs] at hu
    obtain ⟨a, rfl⟩ : w <+: u :=
      List.prefix_of_prefix_length_le ⟨_, hu⟩ (List.prefix_append u _)
        (Text.length_le_of_blanks hw (c := '}') rfl hu)
    rw [List.append_assoc, List.append_cancel_left_eq] at hu
    have hne : a ≠ [] := by
      rintro rfl
      rw [List.append_nil] at hd
      rw [hw d hd] at hdb
      cases hdb
    -- Closing braces are found behind `a`, so it is no shorter than the expression.
    have hl : e.length ≤ a.length := by
      by_contra hlt
      have hn := hc.first a ('}' :: '}' :: v) hne hu (Nat.lt_of_not_le hlt)
      have hv : closingBehind? ('}' :: '}' :: v) = some v :=
        closingBehind?_eq_some_iff.2 ⟨[], by simp, rfl⟩
      rw [hv] at hn
      cases hn
    obtain ⟨b, rfl⟩ : e <+: a :=
      List.prefix_of_prefix_length_le ⟨_, hu⟩ (List.prefix_append a _) hl
    rw [List.append_assoc, List.append_cancel_left_eq] at hu
    have hb := Text.length_le_of_blanks hw' (c := '}') rfl hu
    simp only [List.length_append]
    omega
  · refine ⟨w, List.ne_nil_of_mem hmem, by simpa using hs, ?_, ?_⟩
    · rw [Text.trim_eq_nil_iff]
      exact List.all_eq_true.2 hw
    · intro u v _ hu
      rw [hs, List.nil_append, List.nil_append] at hu
      exact Text.length_le_of_blanks hw (c := '}') rfl hu

theorem fits_of_body? {s e r : List Char} (h : body? s = some (e, r)) :
    ∃ y, Fits y ∧ s = y ++ '}' :: '}' :: r := by
  obtain ⟨w, w', hw, hw', rfl, ⟨hc, -⟩ | ⟨rfl, rfl, c, hc, hn⟩⟩ := body?_eq_some h
  · exact ⟨w ++ (e ++ w'), ⟨w, e, w', hw, hw', hc.ne_nil, hc.unbroken, rfl⟩, by simp⟩
  · obtain ⟨a, b, rfl⟩ := List.append_of_mem hc
    refine ⟨a ++ c :: b, ⟨a, [c], b, ?_, ?_, by simp, by simpa using Ne.symm hn, rfl⟩, by simp⟩
    · exact fun d hd => hw d (by simp [hd])
    · exact fun d hd => hw d (by simp [hd])

theorem isSome_body? {y : List Char} (h : Fits y) (r : List Char) :
    (body? (y ++ '}' :: '}' :: r)).isSome = true := by
  obtain ⟨w, e, w', hw, hw', he, hn, rfl⟩ := h
  have hclose : (closingBehind? (w' ++ '}' :: '}' :: r)).isSome = true := by
    rw [closingBehind?_eq_some_iff.2 ⟨w', hw', rfl⟩]
    rfl
  rw [body?_eq]
  split
  · rfl
  next hcut =>
  cases hb : Text.isAllBlank e with
  | true =>
    -- Between the braces stand blanks only, and one of them is no line feed.
    have hall : ∀ c ∈ w ++ (e ++ w'), Text.isBlank c = true := by
      have := List.all_eq_true.1 hb
      simp only [List.mem_append]
      rintro c (hc | hc | hc)
      · exact hw c hc
      · exact this c hc
      · exact hw' c hc
    obtain ⟨c, t, rfl⟩ := List.exists_cons_of_ne_nil he
    simp only [List.mem_cons, not_or] at hn
    have ht := Text.takeWhile_append_blank hall (c := '}') rfl ('}' :: r)
    have hany : ((w ++ (c :: t ++ w') ++ '}' :: '}' :: r).takeWhile Text.isBlank).any
        (· ≠ '\n') = true := by
      rw [ht]
      simp [Ne.symm hn.1]
    rw [if_pos hany, closingBehind?_eq_some_iff.2 ⟨_, hall, rfl⟩]
    rfl
  | false =>
    obtain ⟨c, t, ht, -⟩ := Text.exists_trimStart hb
    have hs : Text.trimStart (w ++ (e ++ w') ++ '}' :: '}' :: r) =
        Text.trimStart e ++ (w' ++ '}' :: '}' :: r) := by
      rw [List.append_assoc, List.append_assoc, Text.trimStart_append hw,
        Text.trimStart_append_of_ne_nil (by simp [ht])]
    have hsome := isSome_cutBody? (u := Text.trimStart e) (by simp [ht])
      (fun hm => hn (Text.trimStart_subset e hm)) hclose
    rw [← hs, hcut] at hsome
    cases hsome

theorem isSome_atStart?_iff {s : List Char} : (atStart? s).isSome = true ↔
    ∃ y r, Fits y ∧ s = '{' :: '{' :: (y ++ '}' :: '}' :: r) := by
  constructor
  · intro h
    unfold atStart? at h
    split at h
    · next t =>
      obtain ⟨⟨e, r⟩, hb⟩ := Option.isSome_iff_exists.1 h
      obtain ⟨y, hy, rfl⟩ := fits_of_body? hb
      exact ⟨y, r, hy, rfl⟩
    · cases h
  · rintro ⟨y, r, hy, rfl⟩
    exact isSome_body? hy r

/-- A text that begins with an insertion still does when more follows. -/
theorem isSome_atStart?_append {s : List Char} (h : (atStart? s).isSome = true) (t : List Char) :
    (atStart? (s ++ t)).isSome = true := by
  obtain ⟨y, r, hy, rfl⟩ := isSome_atStart?_iff.1 h
  exact isSome_atStart?_iff.2 ⟨y, r ++ t, hy, by simp⟩

theorem cut?_eq_some {s b e r : List Char} (h : cut? s = some (b, e, r)) :
    ∃ y, s = b ++ '{' :: '{' :: y ∧ body? y = some (e, r) := by
  induction s generalizing b with
  | nil => cases h
  | cons c s ih =>
    rw [cut?] at h
    split at h
    · next ha =>
      cases h
      unfold atStart? at ha
      split at ha
      · next y he =>
        cases he
        exact ⟨y, rfl, ha⟩
      · cases ha
    · obtain ⟨⟨b', e', r'⟩, hp, he⟩ := Option.map_eq_some_iff.1 h
      cases he
      obtain ⟨y, rfl, hy⟩ := ih hp
      exact ⟨y, rfl, hy⟩

/-- No insertion begins in front of the first one. -/
theorem length_le_of_cut? {s b e r : List Char} (h : cut? s = some (b, e, r)) {x t : List Char}
    (hs : s = x ++ t) (ht : (atStart? t).isSome = true) : b.length ≤ x.length := by
  induction s generalizing b x with
  | nil => cases h
  | cons c s ih =>
    rw [cut?] at h
    split at h
    · cases h
      exact Nat.zero_le _
    · next ha =>
      obtain ⟨⟨b', e', r'⟩, hp, he⟩ := Option.map_eq_some_iff.1 h
      cases he
      cases x with
      | nil =>
        rw [List.nil_append] at hs
        rw [← hs, ha] at ht
        cases ht
      | cons d x =>
        cases hs
        exact Nat.succ_le_succ (ih hp rfl)

/-- The text in front of the first insertion holds none. -/
theorem cut?_before {s b e r : List Char} (h : cut? s = some (b, e, r)) : cut? b = none := by
  obtain ⟨y, rfl, hy⟩ := cut?_eq_some h
  cases hb : cut? b with
  | none => rfl
  | some p =>
    obtain ⟨b', e', r'⟩ := p
    obtain ⟨y', rfl, hy'⟩ := cut?_eq_some hb
    have ha : (atStart? ('{' :: '{' :: y')).isSome = true := by
      rw [atStart?, hy']
      rfl
    have hl := length_le_of_cut? h (List.append_assoc _ _ _) (isSome_atStart?_append ha _)
    simp only [List.length_append, List.length_cons] at hl
    omega

end Insertion

end IndentMarkup
