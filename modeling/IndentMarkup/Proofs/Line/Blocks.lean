import IndentMarkup.Proofs.Line.Nesting

/-!
# The pieces of a block

A block is scanned three times: for the brace that closes it, its body for commas, and each piece of
the body, trimmed, for the sign behind a key. Each scan starts afresh at the top level. They agree
nevertheless: a character of a piece stands at the top level of the piece if and only if the first
scan reaches it inside the outermost braces only and outside of backticks.
-/
namespace IndentMarkup

open Nesting

/-- The text of a block in front of the trimmed form of a segment: the brace that opens the block,
the segments to the left of this one, each with its comma, and the blanks that it begins with. -/
def inFront (left : List (List Char)) (segment : List Char) : List Char :=
  '{' :: (left.flatMap (· ++ [',']) ++ segment.takeWhile Text.isBlank)

/-- The segments that a block with its closing brace at an offset is made of. -/
structure BlockSegments (s : List Char) (offset : Nat) (body : List Char)
    (segments : List (List Char)) : Prop where
  /-- The body stands between the first character and the offset. -/
  enclosed : ∃ rest, s = '{' :: (body ++ '}' :: rest) ∧ Text.byteCount ('{' :: body) = offset
  joined : [','].intercalate segments = body
  /-- The pieces are the trimmed segments, apart from a blank one at the end. -/
  trimmed : ∃ kept, splitTopLevel ',' body = kept.map Text.trim ∧
    ((segments = kept ∧ ∀ last ∈ kept.getLast?, Text.isAllBlank last = false) ∨
      ∃ blank, segments = kept ++ [blank] ∧ Text.isAllBlank blank = true)
  balanced : ∀ segment ∈ segments, Balanced segment
  undivided : ∀ segment ∈ segments, NoneAtTop (· == ',') start segment
  located : ∀ left segment right, segments = left ++ segment :: right →
    inFront left segment ++ Text.trim segment <+: s
  /-- The scan of a piece by itself and the scan of the whole text find the same top level. -/
  agree : ∀ left segment right, segments = left ++ segment :: right →
    ∀ a c b, Text.trim segment = a ++ c :: b →
      ((start.run (a ++ [c])).atTop = true ↔
        (start.run (inFront left segment ++ (a ++ [c]))).depth = 1 ∧
          (start.run (inFront left segment ++ (a ++ [c]))).quoted = false)

theorem isPlain_comma : isPlain ',' = true := rfl

theorem run_inFront {left : List (List Char)} (h : ∀ segment ∈ left, Balanced segment)
    (segment : List Char) : start.run (inFront left segment) = start.inside := by
  have hl : Balanced (left.flatMap (· ++ [','])) := Balanced.flatMap fun x hx =>
    (h x hx).append (balanced_singleton isPlain_comma)
  have hb : Balanced (segment.takeWhile Text.isBlank) :=
    balanced_of_isPlain fun c hc => isPlain_of_isBlank (List.mem_takeWhile_imp hc)
  have hi : start.inside.run (left.flatMap (· ++ [',']) ++ segment.takeWhile Text.isBlank) =
      start.inside := by
    rw [run_inside, (hl.append hb).run_eq]
  exact hi

theorem atTop_iff_inside (n : Nesting) :
    n.atTop = true ↔ n.inside.depth = 1 ∧ n.inside.quoted = false := by
  rw [atTop_iff, ← inside_inj]
  obtain ⟨depth, quoted⟩ := n
  exact (mk.injEq _ _ _ _).to_iff

/-- The segments up to one of them are what the joined segments begin with. -/
theorem prefix_intercalate (separator : Char) (left : List (List Char)) (segment : List Char)
    (right : List (List Char)) : left.flatMap (· ++ [separator]) ++ segment <+:
      [separator].intercalate (left ++ segment :: right) := by
  induction left with
  | nil =>
    cases right with
    | nil => simp
    | cons next right =>
      rw [List.nil_append, List.intercalate_cons_cons, List.append_assoc]
      exact List.prefix_append _ _
  | cons first left ih =>
    rw [List.flatMap_cons, List.append_assoc, List.cons_append]
    cases hl : left ++ segment :: right with
    | nil => simp at hl
    | cons next others =>
      rw [List.intercalate_cons_cons, ← hl]
      exact (List.prefix_append_right_inj _).2 ih

/-- What stands in front of a trimmed segment in a block, and the segment itself. -/
theorem prefix_block (left : List (List Char)) (segment : List Char) (right : List (List Char)) :
    inFront left segment ++ Text.trim segment <+:
      '{' :: [','].intercalate (left ++ segment :: right) := by
  have hs := (List.prefix_append_right_inj (left.flatMap (· ++ [',']))).2
    (Text.takeWhile_append_trim_prefix_self segment)
  rw [inFront, List.cons_append, List.append_assoc, List.cons_prefix_cons]
  exact ⟨rfl, hs.trans (prefix_intercalate ',' left segment right)⟩

theorem splitTopLevel_eq (separator : Char) (s : List Char) :
    ∃ kept, splitTopLevel separator s = kept.map Text.trim ∧
      ((start.pieces separator s = kept ∧
        ∀ last ∈ kept.getLast?, Text.isAllBlank last = false) ∨
      ∃ blank, start.pieces separator s = kept ++ [blank] ∧ Text.isAllBlank blank = true) := by
  obtain ⟨kept, last, hl⟩ :=
    (List.eq_nil_or_concat' _).resolve_left (pieces_ne_nil separator start s)
  have hm : (start.pieces separator s).map Text.trim = kept.map Text.trim ++ [Text.trim last] := by
    rw [hl, List.map_append, List.map_singleton]
  unfold splitTopLevel
  dsimp only
  rw [hm, List.getLast?_concat, hl]
  cases hb : Text.isAllBlank last with
  | true =>
    have ht : Text.trim last = [] := (Text.trim_eq_nil_iff last).2 hb
    rw [ht, if_pos rfl, List.dropLast_concat]
    exact ⟨kept, rfl, .inr ⟨last, rfl, hb⟩⟩
  | false =>
    have ht : ¬ some (Text.trim last) = some [] := by
      rw [Option.some_inj, Text.trim_eq_nil_iff, hb]
      exact Bool.false_ne_true
    rw [if_neg ht]
    refine ⟨kept ++ [last], by simp, .inl ⟨rfl, fun other ho => ?_⟩⟩
    rw [List.getLast?_concat] at ho
    cases ho
    exact hb

/-- Whenever a text begins with a block, all scans of the block agree on its segments. -/
theorem exists_blockSegments {s : List Char} {offset : Nat} (h : blockEnd? s = some offset) :
    ∃ body segments, BlockSegments s offset body segments := by
  obtain ⟨⟨block, rest⟩, hs, ho⟩ := Option.map_eq_some_iff.1 h
  obtain ⟨body, hb, rfl, rfl⟩ := splitBlock?_eq_some_iff.1 hs
  have hp := balanced_of_mem_pieces isPlain_comma hb
  have hj := intercalate_pieces ',' start body
  have hl : ∀ left segment right, start.pieces ',' body = left ++ segment :: right →
      start.run (inFront left segment) = start.inside := by
    intro left segment right he
    apply run_inFront
    intro x hx
    exact (hp x (he ▸ List.mem_append_left _ hx)).1
  refine ⟨body, start.pieces ',' body, ?_⟩
  constructor
  case enclosed =>
    refine ⟨rest, by simp, ?_⟩
    rw [← ho, ← List.cons_append, Text.byteCount_append]
    exact (Nat.add_sub_cancel _ 1).symm
  case joined => exact hj
  case trimmed => exact splitTopLevel_eq ',' body
  case balanced => exact fun segment hm => (hp segment hm).1
  case undivided => exact fun segment hm => (hp segment hm).2
  case located =>
    intro left segment right he
    have hp := prefix_block left segment right
    rw [← he, hj] at hp
    exact hp.trans ⟨'}' :: rest, by simp⟩
  case agree =>
    intro left segment right he a c b _
    rw [run_append _ (inFront left segment), hl left segment right he, run_inside]
    exact atTop_iff_inside _

/-- Braces between backticks, a comma inside of braces, and a blank segment at the end. -/
theorem exists_blockSegments_mixed :
    blockEnd? "\x7b a: `\x7d,\x7b`, b: \x7b\x7b f(x, y) \x7d\x7d , \x7d c".toList = some 31 ∧
      ∃ body segments, BlockSegments
        "\x7b a: `\x7d,\x7b`, b: \x7b\x7b f(x, y) \x7d\x7d , \x7d c".toList 31 body segments := by
  have h : blockEnd? "\x7b a: `\x7d,\x7b`, b: \x7b\x7b f(x, y) \x7d\x7d , \x7d c".toList =
      some 31 := by
    decide +kernel
  exact ⟨h, exists_blockSegments h⟩

end IndentMarkup
