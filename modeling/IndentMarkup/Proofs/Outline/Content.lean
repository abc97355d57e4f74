import IndentMarkup.Proofs.Line.Segments
import IndentMarkup.Proofs.Outline.Continuations

/-!
# The content of an element line

A content behind a tag is cut into segments like the text of a line of its own, unless it is taken
for something else before: an expression behind an equals sign, or attributes. What begins with a
brace that is closed again is a block of attributes, and so is an insertion at the beginning of a
content. Its expression stands in braces of its own and holds no pair, so nothing is left of it.
-/
namespace IndentMarkup

namespace SimpleAttribute

/-- The text begins with a key, an equals sign and a value, which is a text between quotes or an
expression in double braces. -/
def Heads (s : List Char) : Prop :=
  ∃ key rest, IsKey key ∧ s = key.toList ++ '=' :: rest ∧
    ((∃ q text r, (q = '"' ∨ q = '\x27') ∧ q ∉ text ∧ rest = q :: (text ++ q :: r)) ∨
      ∃ e r, e ≠ [] ∧ '\n' ∉ e ∧ rest = '{' :: '{' :: (e ++ '}' :: '}' :: r))

theorem isSome_value?_iff {s : List Char} : (value? s).isSome = true ↔
    (∃ q text r, (q = '"' ∨ q = '\x27') ∧ q ∉ text ∧ s = q :: (text ++ q :: r)) ∨
      ∃ e r, e ≠ [] ∧ '\n' ∉ e ∧ s = '{' :: '{' :: (e ++ '}' :: '}' :: r) := by
  constructor
  · intro h
    unfold value? at h
    split at h
    · next s =>
      rw [Option.isSome_map] at h
      obtain ⟨⟨e, r⟩, hb⟩ := Option.isSome_iff_exists.1 h
      have hc := Insertion.cutBody?_eq_some_iff.1 hb
      obtain ⟨v, rfl, hv⟩ := hc.closed
      exact .inr ⟨e, r, hc.ne_nil, hc.unbroken, by rw [Insertion.closing?_eq_some hv]⟩
    · next q s _ =>
      split at h
      · next hq =>
        split at h
        · next d after hd =>
          have hn := List.head?_dropWhile_not (fun c => decide (c ≠ q)) s
          rw [hd] at hn
          obtain rfl : d = q := by simpa using hn
          refine .inl ⟨d, s.takeWhile (· ≠ d), after, hq, ?_, ?_⟩
          · exact fun hm => by simpa using List.mem_takeWhile_imp hm
          · rw [← hd, List.takeWhile_append_dropWhile]
        · cases h
      · cases h
    · cases h
  · rintro (⟨q, text, r, hq, hm, rfl⟩ | ⟨e, r, he, hn, rfl⟩)
    · rw [value?_literal hq hm]
      rfl
    · rw [value?, Option.isSome_map]
      exact Insertion.isSome_cutBody? he hn rfl

theorem isSome_first?_iff {s : List Char} : (first? s).isSome = true ↔ Heads s := by
  unfold first?
  constructor
  · intro h
    split at h
    · cases h
    · next key r hk =>
      obtain ⟨hkey, hs⟩ := key?_eq_some hk
      rw [Option.isSome_map] at h
      exact ⟨String.ofList key, r, hkey, by rw [String.toList_ofList, hs], isSome_value?_iff.1 h⟩
  · rintro ⟨key, rest, hkey, rfl, hv⟩
    rw [key?_printed hkey]
    dsimp only
    rw [Option.isSome_map]
    exact isSome_value?_iff.2 hv

theorem not_heads_of_first? {s : List Char} (h : first? s = none) : ¬ Heads s := by
  rw [← isSome_first?_iff, h]
  exact Bool.false_ne_true

/-- No attribute is taken off a text that begins with none. -/
theorem split_of_not_heads {s : List Char} (hs : Text.OneLine s) (h : ¬ Heads s) :
    split s = ([], s) := by
  obtain ⟨c, t, rfl, hc⟩ := hs.exists_first
  have hn : first? (Text.trimStart (c :: t)) = none := by
    rw [Text.trimStart_cons_of_not_blank hc, ← Option.not_isSome_iff_eq_none, isSome_first?_iff]
    exact h
  rw [split]
  split
  · rw [hs.trimmed]
  · next hf =>
    rw [hn] at hf
    cases hf

end SimpleAttribute

namespace AttributeBlock

theorem split?_behind_space {s : List Char} (hs : Text.OneLine s) :
    split? (' ' :: s) = (splitBlock? s).map fun p =>
      ((splitTopLevel ',' (p.1.drop 1).dropLast).filterMap pair?, p.2) := by
  obtain ⟨c, t, rfl, hc⟩ := hs.exists_first
  rw [split?_eq, Text.trimStart_behind_space hc]

/-- What stands in braces of its own is no pair. -/
theorem pair?_braces {e : List Char} (h : Nesting.Balanced e) :
    pair? ('{' :: (e ++ ['}'])) = none := by
  have hn : Nesting.start.cutAt? (fun c => c == ':' || c == '=') ('{' :: (e ++ ['}'])) = none :=
    Nesting.cutAt?_eq_none_iff.2 (Nesting.noneAtTop_braces rfl h)
  rw [pair?, written?, hn]
  rfl

theorem splitTopLevel_braces {e : List Char} (h : Nesting.Balanced e) :
    splitTopLevel ',' ('{' :: (e ++ ['}'])) = ['{' :: (e ++ ['}'])] := by
  have ht : Text.trim ('{' :: (e ++ ['}'])) = '{' :: (e ++ ['}']) :=
    Text.trim_of_ends (t := '{' :: e) (d := '}') rfl rfl rfl
  rw [splitTopLevel, Nesting.pieces_of_noneAtTop (Nesting.noneAtTop_braces rfl h),
    List.map_singleton, ht]
  rfl

/-- An insertion is read as a block without pairs. -/
theorem split?_insertion {e r : List Char} (h : Nesting.Balanced e)
    (hs : Text.OneLine ('{' :: '{' :: (e ++ '}' :: '}' :: r))) :
    split? (' ' :: '{' :: '{' :: (e ++ '}' :: '}' :: r)) = some ([], r) := by
  have hb : splitBlock? ('{' :: '{' :: (e ++ '}' :: '}' :: r)) =
      some ('{' :: ('{' :: (e ++ ['}']) ++ ['}']), r) :=
    splitBlock?_eq_some_iff.2 ⟨'{' :: (e ++ ['}']), h.braces, rfl, by simp⟩
  have hd : (('{' :: ('{' :: (e ++ ['}']) ++ ['}'])).drop 1).dropLast = '{' :: (e ++ ['}']) :=
    List.dropLast_concat
  rw [split?_behind_space hs, hb, Option.map_some, hd, splitTopLevel_braces h,
    List.filterMap_cons_none (pair?_braces h)]
  rfl

end AttributeBlock

theorem inlineContent_of_head {c : List Char} (h : c.head? ≠ some '=') :
    inlineContent c = (Segment.ofText c).map Node.ofSegment := by
  unfold inlineContent
  split
  · exact (h rfl).elim
  · rfl

namespace Opening

/-- The head of a line that goes on behind a tag and a space. -/
def headBefore (tag : String) (c : List Char) : ElementHead :=
  ⟨some tag, [], none, String.ofList (' ' :: c)⟩

section

variable {tag : String} {c : List Char} (ht : IsTag tag) (hc : Text.OneLine c)
include ht hc

theorem ofLine_behindTag (fallbackTag : String) :
    ofLine fallbackTag (Line.ofText ('%' :: (tag.toList ++ ' ' :: c))) =
      ⟨.element tag (Attributes.mergeAll [] none ((headBefore tag c).block.1 ++
        (SimpleAttribute.split (headBefore tag c).block.2).1))
        (inlineContent (headBefore tag c).content), none⟩ := by
  have hl : Text.trim ('%' :: (tag.toList ++ ' ' :: c)) = '%' :: (tag.toList ++ ' ' :: c) := by
    obtain ⟨u, d, rfl, hd⟩ := hc.exists_last
    exact Text.trim_of_ends (t := '%' :: (tag.toList ++ ' ' :: u)) (by simp) rfl hd
  have hm : ∀ d ∈ (' ' :: c).head?, isModifierChar d = false := by
    intro d hd
    cases hd
    decide
  rw [ofLine, Line.ofText]
  dsimp only
  rw [hl, Directive.ofTrimmed, ElementHead.ofTagged?_tag ht hm]
  rfl

/-- A content that is no expression and begins neither with an attribute nor with a brace that is
closed again is cut into segments, as the text of a line is. -/
theorem ofLine_segments (heq : c.head? ≠ some '=') (hattr : ¬ SimpleAttribute.Heads c)
    (hbrace : ∀ body r, Nesting.Balanced body → c ≠ '{' :: (body ++ '}' :: r))
    (fallbackTag : String) :
    ofLine fallbackTag (Line.ofText ('%' :: (tag.toList ++ ' ' :: c))) =
      ⟨.element tag [] ((Segment.ofText c).map Node.ofSegment), none⟩ := by
  have hs : splitBlock? c = none := by
    cases hb : splitBlock? c with
    | none => rfl
    | some p =>
      obtain ⟨body, hbal, hp, hcat⟩ := splitBlock?_eq_some_iff.1 hb
      exact (hbrace body p.2 hbal (by simpa [hp] using hcat)).elim
  have hblock : (headBefore tag c).block = ([], ' ' :: c) := by
    rw [ElementHead.block, headBefore, String.toList_ofList,
      AttributeBlock.split?_behind_space hc, hs]
    rfl
  have hsplit : SimpleAttribute.split (' ' :: c) = ([], c) := by
    rw [← SimpleAttribute.split_of_not_heads hc hattr]
    exact SimpleAttribute.split_congr (Text.trimStart_append Text.isBlank_of_mem_space c)
  rw [ofLine_behindTag ht hc, ElementHead.content, hblock, hsplit, inlineContent_of_head heq]
  rfl

omit hc in
/-- An insertion in front of a content is dropped when its expression is balanced, and what follows
it is read as if it stood behind a block. -/
theorem ofLine_insertion {e r : List Char} (he : Nesting.Balanced e)
    (hc : Text.OneLine ('{' :: '{' :: (e ++ '}' :: '}' :: r))) (fallbackTag : String) :
    ofLine fallbackTag
        (Line.ofText ('%' :: (tag.toList ++ ' ' :: '{' :: '{' :: (e ++ '}' :: '}' :: r)))) =
      ⟨.element tag (Attributes.mergeAll [] none (SimpleAttribute.split r).1)
        (inlineContent (SimpleAttribute.split r).2), none⟩ := by
  have hblock : (headBefore tag ('{' :: '{' :: (e ++ '}' :: '}' :: r))).block = ([], r) := by
    rw [ElementHead.block, headBefore, String.toList_ofList, AttributeBlock.split?_insertion he hc]
    rfl
  rw [ofLine_behindTag ht hc, ElementHead.content, hblock, List.nil_append]

/-- The content behind a tag is cut into segments, as the text of a line is, if it is no expression
and begins neither with an attribute nor with a brace that is closed again. If it begins with an
insertion whose expression is balanced, only what follows the insertion is read. -/
theorem ofLine_content (fallbackTag : String) :
    (c.head? ≠ some '=' → ¬ SimpleAttribute.Heads c →
      (∀ body r, Nesting.Balanced body → c ≠ '{' :: (body ++ '}' :: r)) →
        ofLine fallbackTag (Line.ofText ('%' :: (tag.toList ++ ' ' :: c))) =
          ⟨.element tag [] ((Segment.ofText c).map Node.ofSegment), none⟩) ∧
      ∀ e r, Nesting.Balanced e → c = '{' :: '{' :: (e ++ '}' :: '}' :: r) →
        ofLine fallbackTag (Line.ofText ('%' :: (tag.toList ++ ' ' :: c))) =
          ⟨.element tag (Attributes.mergeAll [] none (SimpleAttribute.split r).1)
            (inlineContent (SimpleAttribute.split r).2), none⟩ := by
  refine ⟨fun heq hattr hbrace => ofLine_segments ht hc heq hattr hbrace fallbackTag, ?_⟩
  rintro e r he rfl
  exact ofLine_insertion ht he hc fallbackTag

end

/-- A content whose insertion holds a brace that is never closed. -/
def unclosedContent : List Char :=
  ['{', '{', ' ', '"', '{', '"', ' ', '}', '}', ' ', 'b', '=', 'c']

def insertionFirst : List Char := ['{', '{', ' ', 'a', ' ', '}', '}', ' ', 'b']

theorem balanced_name : Nesting.Balanced [' ', 'a', ' '] :=
  Nesting.balanced_of_isPlain (List.all_eq_true.1 rfl)

theorem ofLine_content_unclosed :
    (IsTag "p" ∧ Text.OneLine unclosedContent ∧ unclosedContent.head? ≠ some '=' ∧
      ¬ SimpleAttribute.Heads unclosedContent ∧
      ∀ body r, Nesting.Balanced body → unclosedContent ≠ '{' :: (body ++ '}' :: r)) ∧
      ofLine "div" (Line.ofText ('%' :: ("p".toList ++ ' ' :: unclosedContent))) =
        ⟨.element "p" [] ((Segment.ofText unclosedContent).map Node.ofSegment), none⟩ ∧
      (Text.OneLine insertionFirst ∧ Nesting.Balanced [' ', 'a', ' '] ∧
        insertionFirst = '{' :: '{' :: ([' ', 'a', ' '] ++ '}' :: '}' :: [' ', 'b'])) ∧
      ofLine "div" (Line.ofText ('%' :: ("p".toList ++ ' ' :: insertionFirst))) =
        ⟨.element "p" (Attributes.mergeAll [] none (SimpleAttribute.split [' ', 'b']).1)
          (inlineContent (SimpleAttribute.split [' ', 'b']).2), none⟩ := by
  have ht : IsTag "p" := by decide +kernel
  have hu : Text.OneLine unclosedContent := by decide
  have hi : Text.OneLine insertionFirst := by decide
  have hattr : ¬ SimpleAttribute.Heads unclosedContent := SimpleAttribute.not_heads_of_first? rfl
  have hbrace : ∀ body r, Nesting.Balanced body → unclosedContent ≠ '{' :: (body ++ '}' :: r) := by
    intro body r hb he
    have hs : splitBlock? unclosedContent = some ('{' :: (body ++ ['}']), r) :=
      splitBlock?_eq_some_iff.2 ⟨body, hb, rfl, by simp [he]⟩
    cases hs
  exact ⟨⟨ht, hu, by decide, hattr, hbrace⟩,
    (ofLine_content ht hu "div").1 (by decide) hattr hbrace, ⟨hi, balanced_name, rfl⟩,
    (ofLine_content ht hi "div").2 _ _ balanced_name rfl⟩

/-- The insertion that the content begins with is no node of the element. -/
theorem ofLine_insertionFirst_dropped :
    (Text.OneLine insertionFirst ∧ insertionFirst.head? ≠ some '=' ∧
      ¬ SimpleAttribute.Heads insertionFirst ∧
      (Insertion.atStart? insertionFirst).isSome = true) ∧
      (Segment.ofText insertionFirst).map Node.ofSegment = [.insertion "a" false, .text " b"] ∧
      (ofLine "div" (Line.ofText ('%' :: ("p".toList ++ ' ' :: insertionFirst)))).node =
        .element "p" [] [.text "b"] := by
  have hattr : ¬ SimpleAttribute.Heads insertionFirst := SimpleAttribute.not_heads_of_first? rfl
  refine ⟨⟨by decide, by decide, hattr, rfl⟩, ?_, ?_⟩
  · have hcut : Insertion.cut? insertionFirst = some ([], ['a'], [' ', 'b']) := rfl
    rw [Segment.ofText_cut hcut, Segment.ofText_of_noInsertion rfl (by simp)]
    rfl
  · have hsplit : SimpleAttribute.split [' ', 'b'] = ([], ['b']) := by
      rw [SimpleAttribute.split]
      rfl
    have ht : IsTag "p" := by decide +kernel
    have hl := ofLine_insertion ht balanced_name (r := [' ', 'b']) (by decide) "div"
    rw [hsplit, inlineContent_of_head (by simp), Segment.ofText_of_noInsertion rfl (by simp)] at hl
    exact congrArg Opening.node hl

end Opening

end IndentMarkup
