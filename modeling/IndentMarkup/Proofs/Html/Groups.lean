import IndentMarkup.Html
import IndentMarkup.Text.Word
import Mathlib.Data.List.TakeWhile

/-!
# Groups of an output

Which elements an output consists of is told from its angle brackets alone. Every `<` has to begin a
group, which goes up to the next `>` and is the start or the end of an element, and no bracket may
stand anywhere else. The output is balanced if every end belongs to the last element that was
started and has not ended, and if every element ends. Texts without angle brackets are balanced,
whatever else they hold, and outputs put together from balanced ones are balanced.
-/
namespace IndentMarkup.Html

def isFlat (c : Char) : Bool := c ≠ '<' && c ≠ '>'

/-- A text without angle brackets. -/
def Flat (s : List Char) : Prop := ∀ c ∈ s, isFlat c = true

instance (s : List Char) : Decidable (Flat s) :=
  decidable_of_iff (s.all isFlat = true) List.all_eq_true

/-- What may stand between `<` and `>`: the start of an element with its tag, or its end. -/
inductive Group where
  | start (tag : List Char)
  | stop (tag : List Char)
  deriving Repr, DecidableEq

/-- The group that is spelled between `<` and `>`. The tag of a start is as long as it can be, and
anything may follow it; the end of an element is a slash and the tag, and nothing else. -/
def Group.ofText? (s : List Char) : Option Group :=
  match s with
  | '/' :: tag => if tag ≠ [] ∧ tag.all Text.isName = true then some (.stop tag) else none
  | s =>
    let tag := s.takeWhile Text.isName
    if tag = [] then none else some (.start tag)

/-- The groups of an output in their order, if every angle bracket belongs to one. -/
def groups? : List Char → Option (List Group)
  | [] => some []
  | c :: s =>
    if c = '<' then
      match _h : s.dropWhile isFlat with
      | '>' :: rest => do
        let group ← Group.ofText? (s.takeWhile isFlat)
        let others ← groups? rest
        some (group :: others)
      | _ => none
    else if c = '>' then none
    else groups? s
termination_by s => s.length
decreasing_by
  · have hl := (List.dropWhile_sublist (l := s) isFlat).length_le
    rw [_h] at hl
    exact Nat.lt_succ_of_le (Nat.le_of_succ_le hl)
  · exact Nat.lt_succ_self _

/-- The tags of the elements that are open behind some groups, the last one first. An end has to
have the tag of the element that was started last. -/
def open? : List (List Char) → List Group → Option (List (List Char))
  | tags, [] => some tags
  | tags, .start tag :: rest => open? (tag :: tags) rest
  | [], .stop _ :: _ => none
  | last :: tags, .stop tag :: rest => if tag = last then open? tags rest else none

/-- Every angle bracket of an output belongs to a group, and its elements end as they start. -/
def Balanced (out : List Char) : Prop := (groups? out).bind (open? []) = some []

instance (out : List Char) : Decidable (Balanced out) :=
  inferInstanceAs (Decidable (_ = _))

theorem open?_append (tags : List (List Char)) (gs hs : List Group) :
    open? tags (gs ++ hs) = (open? tags gs).bind fun tags' => open? tags' hs := by
  fun_induction open? tags gs with
  | case1 tags => rfl
  | case2 tags tag rest ih => rw [List.cons_append, open?, ih]
  | case3 tag rest => rfl
  | case4 tags tag rest ih => rw [List.cons_append, open?, if_pos rfl, ih]
  | case5 last tags tag rest hne => rw [List.cons_append, open?, if_neg hne]; rfl

/-- Elements that are open in front of some groups do not matter to those that end within them. -/
theorem open?_append_tags {tags behind : List (List Char)} {gs : List Group}
    (h : open? tags gs = some behind) (outer : List (List Char)) :
    open? (tags ++ outer) gs = some (behind ++ outer) := by
  fun_induction open? tags gs with
  | case1 tags =>
    cases h
    rfl
  | case2 tags tag rest ih =>
    rw [open?]
    exact ih h
  | case3 tag rest => cases h
  | case4 tags tag rest ih =>
    rw [List.cons_append, open?, if_pos rfl]
    exact ih h
  | case5 last tags tag rest hne => cases h

theorem groups?_cons_of_flat {c : Char} (h : isFlat c = true) (s : List Char) :
    groups? (c :: s) = groups? s := by
  simp only [isFlat, Bool.and_eq_true, decide_eq_true_eq] at h
  rw [groups?, if_neg h.1, if_neg h.2]

theorem groups?_append_of_flat {s : List Char} (h : Flat s) (t : List Char) :
    groups? (s ++ t) = groups? t := by
  induction s with
  | nil => rfl
  | cons c s ih =>
    have hs : Flat s := fun d hd => h d (List.mem_cons_of_mem c hd)
    rw [List.cons_append, groups?_cons_of_flat (h c List.mem_cons_self), ih hs]

/-- A bracket that opens begins a group, and the next bracket has to close it. -/
theorem groups?_group {s : List Char} (h : Flat s) (t : List Char) :
    groups? ('<' :: (s ++ '>' :: t)) = (do
      let group ← Group.ofText? s
      let others ← groups? t
      some (group :: others)) := by
  have hd : (s ++ '>' :: t).dropWhile isFlat = '>' :: t := by
    rw [List.dropWhile_append_of_pos h]
    rfl
  have ht : (s ++ '>' :: t).takeWhile isFlat = s := by
    rw [List.takeWhile_append_of_pos h]
    simp [isFlat]
  rw [groups?, if_pos rfl]
  split
  · next rest hr =>
    rw [hd] at hr
    cases hr
    rw [ht]
  · next hr => exact (hr t hd).elim

/-- The groups of an output that is put together are those of its parts. -/
theorem groups?_append {s : List Char} {gs : List Group} (h : groups? s = some gs)
    (t : List Char) : groups? (s ++ t) = (groups? t).map fun hs => gs ++ hs := by
  fun_induction groups? s generalizing gs with
  | case1 =>
    cases h
    simp
  | case2 s rest hr ih =>
    obtain ⟨group, hg, h⟩ := Option.bind_eq_some_iff.1 h
    obtain ⟨others, ho, h⟩ := Option.bind_eq_some_iff.1 h
    cases h
    have hf : Flat (s.takeWhile isFlat) := fun c hc => List.mem_takeWhile_imp hc
    have hs : s = s.takeWhile isFlat ++ '>' :: rest := by
      rw [← hr, List.takeWhile_append_dropWhile]
    rw [hs, List.cons_append, List.append_assoc, List.cons_append, groups?_group hf, hg, ih ho]
    cases groups? t <;> simp
  | case3 s hr => cases h
  | case4 s hne => cases h
  | case5 c s hl hr ih =>
    rw [List.cons_append, groups?, if_neg hl, if_neg hr]
    exact ih h

theorem balanced_iff {out : List Char} :
    Balanced out ↔ ∃ gs, groups? out = some gs ∧ open? [] gs = some [] :=
  Option.bind_eq_some_iff

theorem balanced_of_flat {s : List Char} (h : Flat s) : Balanced s := by
  have hg : groups? s = some [] := by
    have hn := groups?_append_of_flat h []
    rw [List.append_nil, groups?] at hn
    exact hn
  exact balanced_iff.2 ⟨[], hg, rfl⟩

theorem balanced_nil : Balanced [] := balanced_of_flat fun c hc => by cases hc

theorem Balanced.append {s t : List Char} (hs : Balanced s) (ht : Balanced t) :
    Balanced (s ++ t) := by
  obtain ⟨gs, hg, ho⟩ := balanced_iff.1 hs
  obtain ⟨hs', hg', ho'⟩ := balanced_iff.1 ht
  apply balanced_iff.2
  refine ⟨gs ++ hs', ?_, ?_⟩
  · rw [groups?_append hg, hg']
    rfl
  · rw [open?_append, ho]
    exact ho'

theorem isFlat_of_isName {c : Char} (h : Text.isName c = true) : isFlat c = true := by
  have hl : c ≠ '<' := by
    rintro rfl
    exact absurd h (by decide)
  have hr : c ≠ '>' := by
    rintro rfl
    exact absurd h (by decide)
  simp [isFlat, hl, hr]

section

variable {tag : List Char} (hne : tag ≠ []) (hn : ∀ c ∈ tag, Text.isName c = true)
include hne hn

theorem Group.ofText?_start {rest : List Char}
    (hr : ∀ c ∈ rest.head?, Text.isName c = false) :
    Group.ofText? (tag ++ rest) = some (.start tag) := by
  have ht : (tag ++ rest).takeWhile Text.isName = tag := by
    rw [List.takeWhile_append_of_pos hn]
    cases rest with
    | nil => simp
    | cons c rest => simp [hr c rfl]
  unfold Group.ofText?
  split
  · next t he =>
    -- a tag begins with a character of names, so the text begins with no slash
    cases tag with
    | nil => exact (hne rfl).elim
    | cons c tag =>
      cases he
      exact absurd (hn '/' List.mem_cons_self) (by decide)
  · dsimp only
    rw [ht, if_neg hne]

theorem Group.ofText?_stop : Group.ofText? ('/' :: tag) = some (.stop tag) := by
  have hc : tag ≠ [] ∧ tag.all Text.isName = true := ⟨hne, List.all_eq_true.2 hn⟩
  rw [Group.ofText?, if_pos hc]

/-- An element is balanced if its content is, whatever stands behind its tag. -/
theorem Balanced.element {attributes content : List Char} (ha : Flat attributes)
    (hb : ∀ c ∈ attributes.head?, Text.isName c = false) (hc : Balanced content) :
    Balanced ('<' :: (tag ++ attributes ++ '>' :: (content ++ '<' :: ('/' :: tag ++ ['>'])))) := by
  obtain ⟨gs, hg, ho⟩ := balanced_iff.1 hc
  have hf : Flat tag := fun c hm => isFlat_of_isName (hn c hm)
  have hs : Flat (tag ++ attributes) := by
    intro c hm
    rcases List.mem_append.1 hm with hm | hm
    · exact hf c hm
    · exact ha c hm
  have he : Flat ('/' :: tag) := by
    intro c hm
    rcases List.mem_cons.1 hm with rfl | hm
    · decide
    · exact hf c hm
  have hstop : groups? ('<' :: ('/' :: tag ++ ['>'])) = some [.stop tag] := by
    rw [groups?_group he, Group.ofText?_stop hne hn, groups?]
    rfl
  have hgroups : groups? (content ++ '<' :: ('/' :: tag ++ ['>'])) = some (gs ++ [.stop tag]) := by
    rw [groups?_append hg, hstop]
    rfl
  apply balanced_iff.2
  refine ⟨.start tag :: (gs ++ [.stop tag]), ?_, ?_⟩
  · rw [groups?_group hs, Group.ofText?_start hne hn hb, hgroups]
    rfl
  · have hopen : open? [tag] gs = some [tag] := open?_append_tags ho [tag]
    rw [open?, open?_append, hopen, Option.bind_some, open?, if_pos rfl, open?]

end

end IndentMarkup.Html
