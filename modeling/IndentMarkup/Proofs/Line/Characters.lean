import IndentMarkup.Markup.Element
import IndentMarkup.Proofs.Source.Trimming

/-!
# The characters of what is read

Whatever is cut out of a text, an expression, a name, a key or a value, consists of characters of
the text. A line holds no line feed, so nothing that is read from a line does: where characters are
added to those that were read, as in the expression that joins the pieces of a text, quoting writes
a line feed as an escape.
-/
namespace IndentMarkup

namespace Text

theorem trimStart_subset (s : List Char) : trimStart s ⊆ s := List.dropWhile_subset isBlank

theorem trim_subset (s : List Char) : trim s ⊆ s := (trim_sublist s).subset

theorem dropStart?_subset {p s r : List Char} (h : dropStart? p s = some r) : r ⊆ s := by
  rw [dropStart?_eq_some_iff.1 h]
  exact List.subset_append_right p r

theorem splitIdentifier?_subset {s name rest : List Char}
    (h : splitIdentifier? s = some (name, rest)) : name ⊆ s ∧ rest ⊆ s := by
  rw [← (splitIdentifier?_spec h).2]
  exact ⟨List.subset_append_left name rest, List.subset_append_right name rest⟩

end Text

namespace Insertion

theorem closing?_eq_some {s r : List Char} (h : closing? s = some r) : s = '}' :: '}' :: r := by
  unfold closing? at h
  split at h
  · cases h
    rfl
  · cases h

theorem closing?_subset {s r : List Char} (h : closing? s = some r) : r ⊆ s := by
  rw [closing?_eq_some h]
  exact List.subset_append_right ['}', '}'] r

theorem cutBody?_subset {close? : List Char → Option (List Char)}
    (hc : ∀ s r, close? s = some r → r ⊆ s) {s b r : List Char}
    (h : cutBody? close? s = some (b, r)) : b ⊆ s ∧ r ⊆ s := by
  induction s generalizing b with
  | nil => cases h
  | cons c s ih =>
    rw [cutBody?] at h
    split at h
    · cases h
    split at h
    · next hr =>
      cases h
      exact ⟨by simp, List.subset_cons_of_subset c (hc _ _ hr)⟩
    · obtain ⟨⟨b', r'⟩, hp, e⟩ := Option.map_eq_some_iff.1 h
      cases e
      obtain ⟨hb, hr⟩ := ih hp
      exact ⟨List.cons_subset_cons c hb, List.subset_cons_of_subset c hr⟩

theorem body?_subset {s b r : List Char} (h : body? s = some (b, r)) : b ⊆ s ∧ r ⊆ s := by
  unfold body? at h
  split at h
  · next p hp =>
    cases h
    obtain ⟨hb, hr⟩ := cutBody?_subset
      (fun t u hu => List.Subset.trans (closing?_subset hu) (Text.trimStart_subset t)) hp
    exact ⟨List.Subset.trans hb (Text.trimStart_subset s),
      List.Subset.trans hr (Text.trimStart_subset s)⟩
  split at h
  · obtain ⟨r', hr, e⟩ := Option.map_eq_some_iff.1 h
    cases e
    exact ⟨List.nil_subset s, List.Subset.trans (closing?_subset hr) (Text.trimStart_subset s)⟩
  · cases h

theorem atStart?_subset {s b r : List Char} (h : atStart? s = some (b, r)) : b ⊆ s ∧ r ⊆ s := by
  unfold atStart? at h
  split at h
  · next s =>
    have hs : s ⊆ '{' :: '{' :: s := List.subset_append_right ['{', '{'] s
    obtain ⟨hb, hr⟩ := body?_subset h
    exact ⟨List.Subset.trans hb hs, List.Subset.trans hr hs⟩
  · cases h

theorem cut?_subset {s b e r : List Char} (h : cut? s = some (b, e, r)) :
    b ⊆ s ∧ e ⊆ s ∧ r ⊆ s := by
  induction s generalizing b with
  | nil => cases h
  | cons c s ih =>
    rw [cut?] at h
    split at h
    · next hs =>
      cases h
      exact ⟨List.nil_subset _, atStart?_subset hs⟩
    · obtain ⟨⟨b', e', r'⟩, hp, he⟩ := Option.map_eq_some_iff.1 h
      cases he
      obtain ⟨hb, he, hr⟩ := ih hp
      exact ⟨List.cons_subset_cons c hb, List.subset_cons_of_subset c he,
        List.subset_cons_of_subset c hr⟩

end Insertion

def Segment.content : Segment → String
  | .literal text => text
  | .expr source => source

theorem Segment.subset_of_mem_ofRun {s : List Char} {segment : Segment} (h : segment ∈ ofRun s) :
    segment.content.toList ⊆ s := by
  unfold ofRun at h
  split at h
  · cases h
  · rw [List.mem_singleton.1 h, content, String.toList_ofList]
    exact List.Subset.refl s

theorem Segment.subset_of_mem_ofText {s : List Char} {segment : Segment} (h : segment ∈ ofText s) :
    segment.content.toList ⊆ s := by
  fun_induction ofText s with
  | case1 s hn => exact subset_of_mem_ofRun h
  | case2 s before source rest hs ih =>
    obtain ⟨hb, he, hr⟩ := Insertion.cut?_subset hs
    rcases List.mem_append.1 h with hm | hm
    · exact List.Subset.trans (subset_of_mem_ofRun hm) hb
    rcases List.mem_cons.1 hm with rfl | hm
    · rw [content, String.toList_ofList]
      exact he
    · exact List.Subset.trans (ih hm) hr

theorem splitBlock?_subset {s b r : List Char} (h : splitBlock? s = some (b, r)) :
    b ⊆ s ∧ r ⊆ s := by
  unfold splitBlock? at h
  split at h
  · rw [← Nesting.append_of_cutBlock? h]
    exact ⟨List.subset_append_left b r, List.subset_append_right b r⟩
  · cases h

theorem singleInsertion?_subset {s source : List Char} (h : singleInsertion? s = some source) :
    source ⊆ s := by
  unfold singleInsertion? cutInsertion? at h
  dsimp only at h
  split at h
  · next inner hi =>
    split at h
    · obtain ⟨body, hb, hs⟩ := Option.map_eq_some_iff.1 (Option.join_eq_some_iff.1 h)
      split at hs
      · cases hs
      · cases hs
        have ht : inner ⊆ Text.trim s := by
          rw [hi]
          exact List.subset_append_right ['{', '{'] inner
        have hbody : body ⊆ inner := (Text.takeBytes?_eq_some_iff.1 hb).1.subset
        exact List.Subset.trans (List.Subset.trans (Text.trim_subset body) hbody)
          (List.Subset.trans ht (Text.trim_subset s))
    · cases h
  · cases h

theorem Nesting.subset_of_mem_pieces {separator : Char} {n : Nesting} {s piece : List Char}
    (h : piece ∈ n.pieces separator s) : piece ⊆ s := by
  induction s generalizing n piece with
  | nil =>
    rw [List.mem_singleton.1 h]
    exact List.Subset.refl []
  | cons c s ih =>
    rw [pieces] at h
    split at h
    · rcases List.mem_cons.1 h with rfl | hm
      · exact List.nil_subset _
      · exact List.subset_cons_of_subset c (ih hm)
    split at h
    · rw [List.mem_singleton.1 h]
      exact List.cons_subset_cons c (List.nil_subset s)
    · next first rest hs =>
      have hp : ∀ p ∈ first :: rest, p ⊆ s := by
        intro p hm
        rw [← hs] at hm
        exact ih hm
      rcases List.mem_cons.1 h with rfl | hm
      · exact List.cons_subset_cons c (hp first List.mem_cons_self)
      · exact List.subset_cons_of_subset c (hp piece (List.mem_cons_of_mem first hm))

theorem subset_of_mem_splitTopLevel {separator : Char} {s piece : List Char}
    (h : piece ∈ splitTopLevel separator s) : piece ⊆ s := by
  have hm : piece ∈ (Nesting.start.pieces separator s).map Text.trim := by
    unfold splitTopLevel at h
    dsimp only at h
    split at h
    · exact List.dropLast_subset _ h
    · exact h
  obtain ⟨raw, hr, rfl⟩ := List.mem_map.1 hm
  exact List.Subset.trans (Text.trim_subset raw) (Nesting.subset_of_mem_pieces hr)

theorem stripQuotes_subset (s : List Char) : stripQuotes s ⊆ s := by
  unfold stripQuotes
  split
  · next q c r =>
    split
    · exact List.subset_cons_of_subset q (List.dropLast_subset _)
    · exact List.Subset.refl _
  · exact List.Subset.refl s

theorem modifierNames_subset (run : List Char) :
    (modifierNames run).1 ⊆ run ∧ ∀ m ∈ (modifierNames run).2, m.2 ⊆ run := by
  fun_induction modifierNames run with
  | case1 => exact ⟨List.Subset.refl [], fun m hm => by cases hm⟩
  | case2 c s name marked h hc ih =>
    rw [h] at ih
    refine ⟨List.nil_subset _, fun m hm => ?_⟩
    rcases List.mem_cons.1 hm with rfl | hm
    · exact List.subset_cons_of_subset c ih.1
    · exact List.subset_cons_of_subset c (ih.2 m hm)
  | case3 c s name marked h hc ih =>
    rw [h] at ih
    exact ⟨List.cons_subset_cons c ih.1, fun m hm => List.subset_cons_of_subset c (ih.2 m hm)⟩

end IndentMarkup
