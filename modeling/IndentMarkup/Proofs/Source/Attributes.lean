import IndentMarkup.Proofs.Source.Printing

/-!
# Reading printed attributes

The attributes behind a tag are read one after the other. A quoted value ends at its second quote,
and an expression at the first pair of closing braces, which is the one that was printed behind it.
-/
namespace IndentMarkup

theorem not_mem_rawMark (raw : Bool) : '\n' ∉ rawMark raw := by
  cases raw <;> decide

theorem oneLine_rawMark {source : String} {raw : Bool} (h : IsInserted source raw) :
    Text.OneLine (rawMark raw ++ source.toList) := by
  cases raw with
  | false => exact h.1
  | true => exact h.1.behind (c := 'r') (s := ['a', 'w', ' ']) rfl (by decide)

theorem Attributes.trimStart_printed {key : String} (h : IsKey key) (value : AttrValue)
    (rest : Attributes) :
    Text.trimStart (printed ((key, value) :: rest)) =
      key.toList ++ '=' :: (value.printed ++ printed rest) := by
  obtain ⟨c, s, hs, hw, -⟩ := h
  have hc : Text.isBlank c = false := Text.isBlank_of_isName (by simp [Text.isName, hw])
  have hp : printed ((key, value) :: rest) =
      [' '] ++ c :: (s ++ '=' :: (value.printed ++ printed rest)) := by
    simp [printed, hs]
  rw [hp, Text.trimStart_append Text.isBlank_of_mem_space, Text.trimStart_cons_of_not_blank hc, hs]
  rfl

namespace SimpleAttribute

theorem key?_printed {key : String} (h : IsKey key) (rest : List Char) :
    key? (key.toList ++ '=' :: rest) = some (key.toList, rest) := by
  obtain ⟨c, s, hk, hc, hs⟩ := h
  have he : Text.isName '=' = false := by decide
  rw [hk, List.cons_append, key?, if_pos hc, List.dropWhile_append_of_pos hs,
    List.takeWhile_append_of_pos hs, List.dropWhile_cons, List.takeWhile_cons, he]
  simp

theorem value?_literal {q : Char} (hq : q = '"' ∨ q = '\x27') {text : List Char} (h : q ∉ text)
    (rest : List Char) :
    value? (q :: (text ++ q :: rest)) = some (.literal (String.ofList text), rest) := by
  have hn : ∀ c ∈ text, decide (c ≠ q) = true := by
    intro c hc
    rw [decide_eq_true_eq]
    rintro rfl
    exact h hc
  rw [value?, if_pos hq, List.dropWhile_append_of_pos hn, List.takeWhile_append_of_pos hn]
  · simp
  · rintro r he
    cases he
    rcases hq with hq | hq <;> cases hq

theorem closing?_eq_none {s : List Char} (h : ∀ r, s ≠ '}' :: '}' :: r) :
    Insertion.closing? s = none := by
  unfold Insertion.closing?
  split
  · next r => exact (h r rfl).elim
  · rfl

/-- Closing braces cannot end inside a text that holds none and does not end with a brace. -/
theorem cutBody?_closing {c : Char} {s : List Char} (hb : ¬ ['}', '}'] <:+: c :: s)
    (hl : ∀ t, c :: s ≠ t ++ ['}']) (hn : '\n' ∉ c :: s) (rest : List Char) :
    Insertion.cutBody? Insertion.closing? (c :: (s ++ '}' :: '}' :: rest)) =
      some (c :: s, rest) := by
  induction s generalizing c with
  | nil =>
    have hc : c ≠ '\n' := fun e => hn (by simp [e])
    rw [Insertion.cutBody?, if_neg hc]
    rfl
  | cons d s ih =>
    have hc : c ≠ '\n' := fun e => hn (by simp [e])
    have hd : Insertion.closing? (d :: s ++ '}' :: '}' :: rest) = none := by
      refine closing?_eq_none fun r he => ?_
      cases s with
      | nil =>
        cases he
        exact hl [c] rfl
      | cons f s =>
        cases he
        exact hb ⟨[c], s, rfl⟩
    have hi := ih (fun hx => hb (List.infix_cons hx))
      (fun t he => hl (c :: t) (by rw [he]; rfl)) (fun hm => hn (List.mem_cons_of_mem c hm))
    rw [Insertion.cutBody?, if_neg hc, hd]
    dsimp only
    rw [List.cons_append, hi]
    rfl

theorem dropStart?_raw_of_not {s : List Char} (h : ¬ rawMark true <+: s) :
    Text.dropStart? "raw ".toList s = none := by
  cases hd : Text.dropStart? "raw ".toList s with
  | none => rfl
  | some r =>
    exfalso
    exact h ⟨r, (Text.dropStart?_eq_some_iff.1 hd).symm⟩

/-- What is printed for an expression is read as it, with blanks around it or without. -/
theorem splitRaw_printed {source : String} {raw : Bool} (h : IsInserted source raw) {s : String}
    (hs : Text.trim s.toList = rawMark raw ++ source.toList) : splitRaw s = (source, raw) := by
  unfold splitRaw
  dsimp only
  rw [hs]
  cases raw with
  | false =>
    have hd := dropStart?_raw_of_not (h.2 rfl)
    simp only [rawMark, Bool.false_eq_true, if_false, List.nil_append]
    rw [hd]
    dsimp only
    rw [String.ofList_toList]
  | true =>
    have hd : Text.dropStart? "raw ".toList (rawMark true ++ source.toList) =
        some source.toList := Text.dropStart?_append (rawMark true) source.toList
    rw [hd]
    dsimp only
    rw [h.1.trimmed, String.ofList_toList]

theorem not_infix_cons {c : Char} {s : List Char} (hc : c ≠ '}') (h : ¬ ['}', '}'] <:+: s) :
    ¬ ['}', '}'] <:+: c :: s := by
  intro hi
  rcases List.infix_cons_iff.1 hi with ⟨r, hp⟩ | hi
  · cases hp
    exact hc rfl
  · exact h hi

theorem not_infix_concat {c : Char} {s : List Char} (hc : c ≠ '}') (h : ¬ ['}', '}'] <:+: s) :
    ¬ ['}', '}'] <:+: s ++ [c] := by
  intro hi
  rcases List.infix_concat_iff.1 hi with ⟨r, hp⟩ | hi
  · have hg := congrArg List.getLast? hp
    rw [List.getLast?_concat, ← List.singleton_append, ← List.append_assoc,
      List.getLast?_concat] at hg
    cases hg
    exact hc rfl
  · exact h hi

theorem value?_expr {source : String} {raw : Bool} (h : (AttrValue.expr source raw).Printable)
    (rest : List Char) :
    value? ((AttrValue.expr source raw).printed ++ rest) = some (.expr source raw, rest) := by
  obtain ⟨hi, hb⟩ := h
  have hr : ¬ ['}', '}'] <:+: rawMark raw ++ source.toList := by
    cases raw with
    | false => exact hb
    | true =>
      exact not_infix_cons (by decide) (not_infix_cons (by decide)
        (not_infix_cons (by decide) (not_infix_cons (by decide) hb)))
  have ho := oneLine_rawMark hi
  have hc := cutBody?_closing (c := ' ') (s := rawMark raw ++ source.toList ++ [' '])
    (not_infix_cons (by decide) (not_infix_concat (by decide) hr))
    (by
      intro t he
      have hg := congrArg List.getLast? he
      rw [← List.cons_append, List.getLast?_concat, List.getLast?_concat] at hg
      cases hg)
    (by
      have hu := ho.unbroken
      simp_all) rest
  have ht : Text.trim (String.ofList
      (' ' :: (rawMark raw ++ source.toList ++ [' ']))).toList =
      rawMark raw ++ source.toList := by
    rw [String.toList_ofList]
    exact ho.trim_append Text.isBlank_of_mem_space Text.isBlank_of_mem_space
  have he : (AttrValue.expr source raw).printed ++ rest = '{' :: '{' ::
      (' ' :: (rawMark raw ++ source.toList ++ [' '] ++ '}' :: '}' :: rest)) := by
    simp [AttrValue.printed]
  rw [he, value?, hc, Option.map_some, AttrValue.ofSource, splitRaw_printed hi ht]

theorem first?_printed {key : String} {value : AttrValue} (hk : IsKey key)
    (hv : value.Printable) (rest : List Char) :
    first? (key.toList ++ '=' :: (value.printed ++ rest)) = some ((key, value), rest) := by
  rw [first?, key?_printed hk]
  dsimp only
  cases value with
  | literal text =>
    have hl := value?_literal (.inl rfl) hv.1 rest
    rw [AttrValue.printed, List.cons_append, List.append_assoc, List.singleton_append, hl,
      Option.map_some, String.ofList_toList, String.ofList_toList]
  | expr source raw => rw [value?_expr hv, Option.map_some, String.ofList_toList]

/-- Printed attributes are read one after the other, and nothing is left behind them. -/
theorem split_printed {attributes : Attributes} (hk : ∀ a ∈ attributes, IsKey a.1)
    (hv : ∀ a ∈ attributes, a.2.Printable) : split attributes.printed = (attributes, []) := by
  induction attributes with
  | nil =>
    rw [split]
    rfl
  | cons a rest ih =>
    have hi := ih (fun b hb => hk b (List.mem_cons_of_mem a hb))
      (fun b hb => hv b (List.mem_cons_of_mem a hb))
    have hf := first?_printed (hk a List.mem_cons_self) (hv a List.mem_cons_self)
      (Attributes.printed rest)
    have ht := Attributes.trimStart_printed (hk a List.mem_cons_self) a.2 rest
    rw [split]
    split
    · next h =>
      rw [ht, hf] at h
      cases h
    · next h =>
      rw [ht, hf] at h
      cases h
      rw [hi]

end SimpleAttribute

theorem Keyed.set_of_not_mem {α : Type} {entries : Keyed α} {key : String}
    (h : key ∉ entries.map Prod.fst) (value : α) :
    entries.set key value = entries ++ [(key, value)] := by
  induction entries with
  | nil => rfl
  | cons e rest ih =>
    simp only [List.map_cons, List.mem_cons, not_or] at h
    rw [Keyed.set, if_neg (Ne.symm h.1), ih h.2]
    rfl

/-- Attributes with different keys are set one behind the other. -/
theorem Attributes.mergeAll_of_nodup {before attributes : Attributes}
    (h : ((before ++ attributes).map Prod.fst).Nodup) :
    before.mergeAll none attributes = before ++ attributes := by
  induction attributes generalizing before with
  | nil => simp [mergeAll]
  | cons a rest ih =>
    have hn : a.1 ∉ before.map Prod.fst := by
      rw [List.map_append, List.map_cons] at h
      intro hm
      exact (List.nodup_append.1 h).2.2 _ hm _ List.mem_cons_self rfl
    have hs : before.merge none a = before ++ [a] := Keyed.set_of_not_mem hn a.2
    have hi := @ih (before ++ [a]) (by simpa using h)
    rw [mergeAll, List.foldl_cons, hs]
    rw [mergeAll] at hi
    rw [hi, List.append_assoc]
    rfl

end IndentMarkup
