import IndentMarkup.Proofs.Line.Insertions
import IndentMarkup.Proofs.Source.Blocks
import Mathlib.Data.List.Chain

/-!
# The segments of a text

The segments of a text make up all of it, each insertion with its braces and the blanks next to
them, and a literal text is what stands between two insertions. Segments that do not get in each
other's way can be printed, and the text is cut into the same segments again.

An insertion ends at the first closing braces behind its first character, with one exception: the
blanks that it begins with are skipped before, so closing braces directly behind them are taken for
the first characters of an expression when there are other closing braces to end it.
-/
namespace IndentMarkup

namespace Segment

/-- The text is made up of the segments in their order: literal texts as they are, and expressions
with blanks around them between double braces. -/
inductive StandIn : List Segment → List Char → Prop
  | nil : StandIn [] []
  | literal {text : String} {segments : List Segment} {s : List Char} (h : StandIn segments s) :
      StandIn (.literal text :: segments) (text.toList ++ s)
  | expr {source : String} {w w' : List Char} {segments : List Segment} {s : List Char}
      (hw : ∀ c ∈ w, Text.isBlank c = true) (hw' : ∀ c ∈ w', Text.isBlank c = true)
      (h : StandIn segments s) :
      StandIn (.expr source :: segments)
        ('{' :: '{' :: (w ++ (source.toList ++ (w' ++ '}' :: '}' :: s))))

theorem StandIn.ofRun_append {segments : List Segment} {s : List Char} (h : StandIn segments s)
    (b : List Char) : StandIn (ofRun b ++ segments) (b ++ s) := by
  unfold ofRun
  split
  · next hb =>
    rw [hb]
    exact h
  · have ht : StandIn (.literal (String.ofList b) :: segments) ((String.ofList b).toList ++ s) :=
      h.literal
    rwa [String.toList_ofList] at ht

/-- Whatever stands behind an insertion, the insertion makes up the text in front of it. -/
theorem standIn_of_body? {y e r : List Char} (hy : Insertion.body? y = some (e, r)) :
    ∃ p, y = p ++ r ∧ ∀ segments s, StandIn segments s →
      StandIn (.expr (String.ofList e) :: segments) ('{' :: '{' :: (p ++ s)) := by
  obtain ⟨w, w', hw, hw', rfl, -⟩ := Insertion.body?_eq_some hy
  refine ⟨w ++ (e ++ (w' ++ ['}', '}'])), by simp, fun segments s h => ?_⟩
  have he : StandIn (.expr (String.ofList e) :: segments) ('{' :: '{' ::
      (w ++ ((String.ofList e).toList ++ (w' ++ '}' :: '}' :: s)))) := .expr hw hw' h
  simpa using he

theorem ofText_cut {t b e r : List Char} (h : Insertion.cut? t = some (b, e, r)) :
    ofText t = ofRun b ++ .expr (String.ofList e) :: ofText r := by
  rw [ofText]
  split
  · next hn =>
    rw [h] at hn
    cases hn
  · next hs =>
    rw [h] at hs
    cases hs
    rfl

theorem standIn_ofText (t : List Char) : StandIn (ofText t) t := by
  fun_induction ofText t with
  | case1 t _ =>
    have hr := StandIn.nil.ofRun_append t
    rwa [List.append_nil, List.append_nil] at hr
  | case2 t before source rest h ih =>
    obtain ⟨y, rfl, hy⟩ := Insertion.cut?_eq_some h
    obtain ⟨p, rfl, hp⟩ := standIn_of_body? hy
    exact (hp _ _ ih).ofRun_append before

def Apart (a b : Segment) : Prop := a.isExpr = true ∨ b.isExpr = true

theorem isChain_ofText (t : List Char) : (ofText t).IsChain Apart := by
  fun_induction ofText t with
  | case1 t _ =>
    unfold ofRun
    split <;> simp
  | case2 t before source rest _ ih =>
    have hrest : (.expr (String.ofList source) :: ofText rest).IsChain Apart :=
      ih.cons fun g _ => .inl rfl
    unfold ofRun
    split
    · exact hrest
    · exact List.IsChain.cons_cons (.inr rfl) hrest

theorem ofText_of_noInsertion {s : List Char} (h : Insertion.cut? s = none) (hs : s ≠ []) :
    ofText s = [.literal (String.ofList s)] := by
  rw [ofText_of_cut?_eq_none h, ofRun, if_neg hs]

theorem literal_of_mem_ofRun {b : List Char} {text : String} (h : .literal text ∈ ofRun b) :
    text = String.ofList b ∧ b ≠ [] := by
  unfold ofRun at h
  split at h
  · cases h
  · next hb => exact ⟨by simpa using h, hb⟩

theorem expr_not_mem_ofRun (b : List Char) (source : String) : .expr source ∉ ofRun b := by
  unfold ofRun
  split <;> simp

/-- A literal text is not empty and holds no insertion. -/
theorem literal_of_mem_ofText {t : List Char} {text : String} (h : .literal text ∈ ofText t) :
    text ≠ "" ∧ ofText text.toList = [.literal text] := by
  have hrun : ∀ b : List Char, Insertion.cut? b = none → .literal text ∈ ofRun b →
      text ≠ "" ∧ ofText text.toList = [.literal text] := by
    intro b hb hm
    obtain ⟨rfl, hne⟩ := literal_of_mem_ofRun hm
    refine ⟨by simpa using hne, ?_⟩
    rw [String.toList_ofList, ofText_of_noInsertion hb hne]
  fun_induction ofText t with
  | case1 t hn => exact hrun t hn h
  | case2 t before source rest hs ih =>
    simp only [List.mem_append, List.mem_cons, reduceCtorEq, false_or] at h
    rcases h with h | h
    · exact hrun before (Insertion.cut?_before hs) h
    · exact ih h

/-- An expression has no blanks at its ends. -/
theorem trim_of_mem_ofText {t : List Char} {source : String} (h : .expr source ∈ ofText t) :
    Text.trim source.toList = source.toList := by
  fun_induction ofText t with
  | case1 t _ => exact (expr_not_mem_ofRun t source h).elim
  | case2 t before e rest hs ih =>
    simp only [List.mem_append, List.mem_cons, expr.injEq] at h
    rcases h with h | rfl | h
    · exact (expr_not_mem_ofRun before source h).elim
    · obtain ⟨y, -, hy⟩ := Insertion.cut?_eq_some hs
      rw [String.toList_ofList, Insertion.trim_of_body? hy]
    · exact ih h

/-! ### Printing segments -/

def printed : Segment → List Char
  | .literal text => text.toList
  | .expr source => '{' :: '{' :: ' ' :: (source.toList ++ [' ', '}', '}'])

/-- A text that neither holds opening braces nor ends with one, or an expression that holds no
closing braces. -/
def Printable : Segment → Prop
  | .literal text =>
    text ≠ "" ∧ ¬ ['{', '{'] <:+: text.toList ∧ text.toList.getLast? ≠ some '{'
  | .expr source => Text.OneLine source.toList ∧ ¬ ['}', '}'] <:+: source.toList

instance (a b : Segment) : Decidable (Apart a b) :=
  inferInstanceAs (Decidable (_ ∨ _))

instance : DecidablePred Printable
  | .literal text =>
    inferInstanceAs (Decidable (text ≠ "" ∧ ¬ ['{', '{'] <:+: text.toList ∧
      text.toList.getLast? ≠ some '{'))
  | .expr source =>
    inferInstanceAs (Decidable (Text.OneLine source.toList ∧ ¬ ['}', '}'] <:+: source.toList))

end Segment

namespace Insertion

/-- Closing braces are not found in front of the printed ones. -/
theorem closingBehind?_printed {s : List Char} {d : Char} (hd : Text.isBlank d = false)
    (hb : ¬ ['}', '}'] <:+: s ++ [d]) (rest : List Char) :
    closingBehind? (s ++ d :: ' ' :: '}' :: '}' :: rest) = none := by
  cases hc : closingBehind? (s ++ d :: ' ' :: '}' :: '}' :: rest) with
  | none => rfl
  | some r =>
    exfalso
    obtain ⟨w, hw, he⟩ := closingBehind?_eq_some_iff.1 hc
    have hdw : d ∉ w := fun hm => by
      rw [hw d hm] at hd
      cases hd
    rcases List.append_eq_append_iff.1 he with ⟨a, rfl, ha⟩ | ⟨a, rfl, ha⟩
    · -- The blanks would go on beyond the last character of the expression.
      cases a with
      | nil =>
        cases ha
      | cons c a =>
        obtain ⟨rfl, -⟩ := List.cons.inj ha
        exact hdw (by simp)
    · cases a with
      | nil => cases ha
      | cons c a =>
        cases a with
        | nil =>
          cases ha
          exact hb ⟨w, [], by simp⟩
        | cons c' a =>
          cases ha
          exact hb ⟨w, a ++ [d], by simp⟩

theorem cutBehind_printed {source : List Char} (h : Text.OneLine source)
    (hb : ¬ ['}', '}'] <:+: source) (rest : List Char) :
    CutBehind closingBehind? (source ++ ' ' :: '}' :: '}' :: rest) source rest where
  ne_nil := h.ne_nil
  unbroken := h.unbroken
  closed := ⟨_, rfl, closingBehind?_eq_some_iff.2 ⟨[' '], Text.isBlank_of_mem_space, rfl⟩⟩
  first := by
    intro u v hu he hl
    obtain ⟨t, d, rfl, hd⟩ := h.exists_last
    obtain ⟨v', rfl⟩ : u <+: t := by
      refine List.prefix_of_prefix_length_le ⟨v, he.symm⟩ ⟨d :: ' ' :: '}' :: '}' :: rest, ?_⟩ ?_
      · simp
      · simpa [Nat.lt_succ_iff] using hl
    have hv : v = v' ++ d :: ' ' :: '}' :: '}' :: rest := by simpa using he.symm
    rw [hv]
    refine closingBehind?_printed hd (fun hi => hb ?_) rest
    rw [List.append_assoc]
    exact hi.trans (List.suffix_append u _).isInfix

theorem body?_printed {source : List Char} (h : Text.OneLine source)
    (hb : ¬ ['}', '}'] <:+: source) (rest : List Char) :
    body? (' ' :: (source ++ ' ' :: '}' :: '}' :: rest)) = some (source, rest) := by
  obtain ⟨c, t, rfl, hc⟩ := h.exists_first
  have ht : Text.trimStart (' ' :: (c :: t ++ ' ' :: '}' :: '}' :: rest)) =
      c :: t ++ ' ' :: '}' :: '}' :: rest := Text.trimStart_behind_space hc _
  rw [body?_eq, ht, cutBody?_eq_some_iff.2 (cutBehind_printed h hb rest)]

/-- The first insertion of a text that is printed is the first one that was printed. -/
theorem cut?_printed {text source : List Char} (ht : ¬ ['{', '{'] <:+: text)
    (hl : text.getLast? ≠ some '{') (h : Text.OneLine source) (hb : ¬ ['}', '}'] <:+: source)
    (rest : List Char) :
    cut? (text ++ '{' :: '{' :: ' ' :: (source ++ ' ' :: '}' :: '}' :: rest)) =
      some (text, source, rest) := by
  induction text with
  | nil => rw [List.nil_append, cut?, atStart?, body?_printed h hb rest]
  | cons c text ih =>
    have ha : atStart? (c :: (text ++ '{' :: '{' :: ' ' ::
        (source ++ ' ' :: '}' :: '}' :: rest))) = none := by
      unfold atStart?
      split
      · next r he =>
        exfalso
        cases text with
        | nil =>
          cases he
          exact hl rfl
        | cons d text =>
          cases he
          exact ht ⟨[], text, rfl⟩
      · rfl
    have hi := ih (fun hx => ht (List.infix_cons hx)) (by
      cases text with
      | nil => simp
      | cons d text => simpa using hl)
    rw [List.cons_append, cut?, ha, hi]
    rfl

end Insertion

namespace Segment

theorem printed_expr_append (source : String) (rest : List Char) :
    printed (.expr source) ++ rest =
      '{' :: '{' :: ' ' :: (source.toList ++ ' ' :: '}' :: '}' :: rest) := by
  simp [printed]

theorem ofRun_toList {text : String} (h : text ≠ "") : ofRun text.toList = [.literal text] := by
  rw [ofRun, if_neg (by simpa using h), String.ofList_toList]

/-- Segments that can be printed are the segments of what is printed. -/
theorem ofText_printed {segments : List Segment} (h : ∀ g ∈ segments, g.Printable)
    (hc : segments.IsChain Apart) : ofText (segments.flatMap printed) = segments := by
  match segments with
  | [] => rw [List.flatMap_nil, ofText_of_cut?_eq_none rfl, ofRun, if_pos rfl]
  | [.literal text] =>
    obtain ⟨hne, hb, -⟩ := h (.literal text) List.mem_cons_self
    rw [List.flatMap_singleton, printed, ofText_of_cut?_eq_none (Insertion.cut?_eq_none hb),
      ofRun_toList hne]
  | .expr source :: rest =>
    obtain ⟨hs, hb⟩ := h (.expr source) List.mem_cons_self
    have ih := ofText_printed (fun g hg => h g (List.mem_cons_of_mem _ hg)) hc.tail
    have hcut := @Insertion.cut?_printed [] _ (by simp) (by simp) hs hb (rest.flatMap printed)
    rw [List.nil_append] at hcut
    rw [List.flatMap_cons, printed_expr_append, ofText_cut hcut, ih, String.ofList_toList]
    rfl
  | .literal text :: .expr source :: rest =>
    obtain ⟨hne, hb, hl⟩ := h (.literal text) List.mem_cons_self
    obtain ⟨hs, hb'⟩ := h (.expr source) (by simp)
    have ih : ofText (rest.flatMap printed) = rest :=
      ofText_printed (fun g hg => h g (by simp [hg])) hc.tail.tail
    have hcut := Insertion.cut?_printed hb hl hs hb' (rest.flatMap printed)
    rw [List.flatMap_cons, List.flatMap_cons, printed_expr_append, printed, ofText_cut hcut, ih,
      ofRun_toList hne, String.ofList_toList]
    rfl
  | .literal _ :: .literal _ :: _ =>
    rcases hc.rel with hr | hr <;> cases hr
termination_by segments.length

/-- The segments of a text make it up; no two literal texts are next to each other and none is empty
or holds an insertion, and the expressions have no blanks at their ends. Conversely, all segments
that can be printed are the segments of what is printed. -/
theorem ofText_faithful :
    (∀ t : List Char, StandIn (ofText t) t ∧ (ofText t).IsChain Apart ∧
      (∀ text, .literal text ∈ ofText t → text ≠ "" ∧ ofText text.toList = [.literal text]) ∧
      ∀ source, .expr source ∈ ofText t → Text.trim source.toList = source.toList) ∧
    ∀ segments : List Segment, (∀ g ∈ segments, g.Printable) → segments.IsChain Apart →
      ofText (segments.flatMap printed) = segments :=
  ⟨fun t => ⟨standIn_ofText t, isChain_ofText t, fun _ => literal_of_mem_ofText,
    fun _ => trim_of_mem_ofText⟩, fun _ => ofText_printed⟩

def bracedSegments : List Segment :=
  [.literal "a \x7b b \x7d\x7d \x7bc", .expr "f(x)\x7d", .expr "\x7d", .literal "\x7d\x7d d",
    .expr "\x7b\x7b e \x7b \x7d"]

theorem ofText_faithful_braced :
    (∀ g ∈ bracedSegments, g.Printable) ∧ bracedSegments.IsChain Apart ∧
      ofText (bracedSegments.flatMap printed) = bracedSegments := by
  have hp : ∀ g ∈ bracedSegments, g.Printable := by decide +kernel
  have hc : bracedSegments.IsChain Apart := by decide +kernel
  exact ⟨hp, hc, ofText_faithful.2 bracedSegments hp hc⟩

/-! ### Where the insertions of a text end -/

/-- An element at which a list is cut is the one of another cut, or stands behind it. -/
theorem split_of_append_cons {α : Type} {xs ys xs' ys' : List α} {y y' : α} (hn : y' ∉ xs)
    (h : xs ++ y :: ys = xs' ++ y' :: ys') :
    (xs' = xs ∧ y' = y ∧ ys' = ys) ∨ ∃ a, xs' = xs ++ y :: a ∧ ys = a ++ y' :: ys' := by
  rcases List.append_eq_append_iff.1 h with ⟨a, rfl, ha⟩ | ⟨a, rfl, ha⟩ <;> cases a
  case inl.nil => simp_all
  case inl.cons z a => exact .inr ⟨a, by simp_all⟩
  case inr.nil => simp_all
  case inr.cons z a => simp_all

/-- An expression among the segments of a text is the expression of an insertion, and the segments
on both sides of it are those of the texts on both sides of the insertion. -/
theorem body?_of_ofText {t : List Char} {before after : List Segment} {source : String}
    (h : ofText t = before ++ .expr source :: after) :
    ∃ x y r, t = x ++ '{' :: '{' :: y ∧ StandIn before x ∧
      Insertion.body? y = some (source.toList, r) ∧ ofText r = after := by
  fun_induction ofText t generalizing before with
  | case1 t _ => exact (expr_not_mem_ofRun t source (by simp [h])).elim
  | case2 t b e rest hs ih =>
    obtain ⟨y, rfl, hy⟩ := Insertion.cut?_eq_some hs
    have hb := StandIn.nil.ofRun_append b
    rw [List.append_nil, List.append_nil] at hb
    rcases split_of_append_cons (expr_not_mem_ofRun b source) h with ⟨rfl, he, rfl⟩ | ⟨a, rfl, ha⟩
    · obtain rfl : source = String.ofList e := by simpa using he
      exact ⟨b, y, rest, rfl, hb, by rw [String.toList_ofList, hy], rfl⟩
    · obtain ⟨x, y', r, rfl, hx, hy', hr⟩ := ih ha
      obtain ⟨p, rfl, hp⟩ := standIn_of_body? hy
      exact ⟨b ++ '{' :: '{' :: (p ++ x), y', r, by simp, (hp _ _ hx).ofRun_append b, hy', hr⟩

end Segment

namespace Insertion

/-- The closing braces behind what stands in an insertion are the first ones behind at least one
character. -/
def EndsFirst (inside rest : List Char) : Prop :=
  ∀ u v, u ≠ [] → inside ++ '}' :: '}' :: rest = u ++ '}' :: '}' :: v → inside.length ≤ u.length

/-- Directly behind the blanks that the insertion begins with, at least one, stand closing braces
that do not end it. -/
def Overruns (inside : List Char) : Prop :=
  ∃ w u, w ≠ [] ∧ u ≠ [] ∧ (∀ c ∈ w, Text.isBlank c = true) ∧
    inside ++ ['}', '}'] = w ++ '}' :: '}' :: u

/-- If only closing braces behind blanks can have been passed over, an insertion ends at the first
ones exactly when there are none of these. -/
theorem endsFirst_iff {inside rest : List Char}
    (h : ∀ u v, (∃ c ∈ u, Text.isBlank c = false) →
      inside ++ '}' :: '}' :: rest = u ++ '}' :: '}' :: v → inside.length ≤ u.length) :
    EndsFirst inside rest ↔ ¬ Overruns inside := by
  constructor
  · rintro hf ⟨w, u, hw, hu, -, he⟩
    have hl := hf w (u ++ rest) hw (by
      have := congrArg (· ++ rest) he
      simpa using this)
    have hlen := congrArg List.length he
    have hpos := List.length_pos_iff.2 hu
    simp only [List.length_append, List.length_cons, List.length_nil] at hlen
    omega
  · intro ho u v hu he
    by_contra hl
    have hblank : ∀ c ∈ u, Text.isBlank c = true := by
      intro c hc
      cases hb : Text.isBlank c with
      | true => rfl
      | false => exact (hl (h u v ⟨c, hc, hb⟩ he)).elim
    obtain ⟨u', hu'⟩ : u ++ ['}', '}'] <+: inside ++ ['}', '}'] := by
      refine List.prefix_of_prefix_length_le ⟨v, ?_⟩ ⟨rest, rfl⟩ (by simp; omega)
      simp [he]
    refine ho ⟨u, u', hu, ?_, hblank, by simpa using hu'.symm⟩
    rintro rfl
    have hlen := congrArg List.length hu'
    simp only [List.length_append, List.length_cons, List.length_nil] at hlen
    omega

end Insertion

namespace Segment

/-- Every expression among the segments of a text stands in an insertion that ends at the first
closing braces behind its first character that is not a blank, and the text behind these braces is
cut into segments by itself. They are the first ones behind at least one character unless others
stand directly behind the blanks that the insertion begins with. -/
theorem ofText_insertion_ends {t : List Char} {before after : List Segment} {source : String}
    (h : ofText t = before ++ .expr source :: after) :
    ∃ x inside z, t = x ++ '{' :: '{' :: (inside ++ '}' :: '}' :: z) ∧ StandIn before x ∧
      inside ≠ [] ∧ Text.trim inside = source.toList ∧ ofText z = after ∧
      (∀ u v, (∃ c ∈ u, Text.isBlank c = false) →
        inside ++ '}' :: '}' :: z = u ++ '}' :: '}' :: v → inside.length ≤ u.length) ∧
      (Insertion.EndsFirst inside z ↔ ¬ Insertion.Overruns inside) := by
  obtain ⟨x, y, r, rfl, hx, hy, hr⟩ := body?_of_ofText h
  obtain ⟨inside, hne, rfl, htrim, hfirst⟩ := Insertion.ends_of_body? hy
  exact ⟨x, inside, r, rfl, hx, hne, htrim, hr, hfirst, Insertion.endsFirst_iff hfirst⟩

theorem ofText_insertion_ends_braced :
    ofText (bracedSegments.flatMap printed) =
        bracedSegments.take 2 ++ .expr "\x7d" :: bracedSegments.drop 3 ∧
      ∃ x inside z, bracedSegments.flatMap printed =
          x ++ '{' :: '{' :: (inside ++ '}' :: '}' :: z) ∧ StandIn (bracedSegments.take 2) x ∧
        inside ≠ [] ∧ Text.trim inside = "\x7d".toList ∧ ofText z = bracedSegments.drop 3 ∧
        (∀ u v, (∃ c ∈ u, Text.isBlank c = false) →
          inside ++ '}' :: '}' :: z = u ++ '}' :: '}' :: v → inside.length ≤ u.length) ∧
        (Insertion.EndsFirst inside z ↔ ¬ Insertion.Overruns inside) := by
  have h : ofText (bracedSegments.flatMap printed) =
      bracedSegments.take 2 ++ .expr "\x7d" :: bracedSegments.drop 3 :=
    ofText_printed (by decide +kernel) (by decide +kernel)
  exact ⟨h, ofText_insertion_ends h⟩

/-- A blank insertion directly in front of another one. -/
def blankFirst : List Char := ['{', '{', ' ', '}', '}', '{', '{', ' ', 'a', ' ', '}', '}']

/-- They are not taken for two: the braces that end the blank one are passed over. -/
theorem ofText_blankFirst_overruns :
    '\n' ∉ blankFirst ∧ ofText blankFirst = [.expr "\x7d\x7d\x7b\x7b a"] ∧
      ¬ ∃ x inside z, blankFirst = x ++ '{' :: '{' :: (inside ++ '}' :: '}' :: z) ∧ StandIn [] x ∧
        Text.trim inside = "\x7d\x7d\x7b\x7b a".toList ∧ Insertion.EndsFirst inside z := by
  refine ⟨by decide, ?_, ?_⟩
  · have hcut : Insertion.cut? blankFirst = some ([], ['}', '}', '{', '{', ' ', 'a'], []) := rfl
    rw [ofText_cut hcut, ofText_of_cut?_eq_none rfl]
    decide +kernel
  · rintro ⟨x, inside, z, he, hx, ht, hf⟩
    cases hx
    have hin : inside ++ '}' :: '}' :: z =
        [' '] ++ '}' :: '}' :: ['{', '{', ' ', 'a', ' ', '}', '}'] := by
      simpa [blankFirst] using he.symm
    have hl := hf _ _ (by simp) hin
    have hlt := (Text.trim_sublist inside).length_le
    have hlen : 6 ≤ inside.length := by simpa [ht] using hlt
    simp only [List.length_singleton] at hl
    omega

end Segment

end IndentMarkup
