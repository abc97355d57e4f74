import IndentMarkup.Proofs.Outline.Bodies
import IndentMarkup.Proofs.Source.Trimming
import Mathlib.Data.List.Forall2
import Mathlib.Order.Monotone.Basic

/-!
# The spacing of a source

Of the indentations of two lines only their order matters. Two sources with the same texts on their
lines have the same nodes if of any two lines the one that is indented deeper is so in both sources.
So margins may be made wider or narrower, of tabs or of spaces, blank lines may stand anywhere, and
any blanks, a carriage return among them, may stand behind the text of a line.
-/
namespace IndentMarkup

namespace Line

/-- Lines side by side with lines of the same texts, where of any two lines the one that is indented
deeper is so on both sides. -/
structure SameOrder (pairs : List (Line × Line)) : Prop where
  text : ∀ p ∈ pairs, p.1.text = p.2.text
  indent : ∀ p ∈ pairs, ∀ q ∈ pairs, p.1.indent < q.1.indent ↔ p.2.indent < q.2.indent

instance (pairs : List (Line × Line)) : Decidable (SameOrder pairs) :=
  decidable_of_iff ((∀ p ∈ pairs, p.1.text = p.2.text) ∧
      ∀ p ∈ pairs, ∀ q ∈ pairs, p.1.indent < q.1.indent ↔ p.2.indent < q.2.indent)
    ⟨fun h => ⟨h.1, h.2⟩, fun h => ⟨h.text, h.indent⟩⟩

theorem SameOrder.of_subset {pairs others : List (Line × Line)} (h : SameOrder others)
    (hs : pairs ⊆ others) : SameOrder pairs where
  text p hp := h.text p (hs hp)
  indent p hp q hq := h.indent p (hs hp) q (hs hq)

/-- The line with another indentation, which depends on the old one. -/
def stretch (width : Nat → Nat) (line : Line) : Line := ⟨width line.indent, line.text⟩

theorem sameOrder_stretch {width : Nat → Nat} (hw : StrictMono width) (lines : List Line) :
    SameOrder (lines.map fun l => (l.stretch width, l)) := by
  constructor
  · intro p hp
    obtain ⟨l, -, rfl⟩ := List.mem_map.1 hp
    rfl
  · intro p hp q hq
    obtain ⟨l, -, rfl⟩ := List.mem_map.1 hp
    obtain ⟨k, -, rfl⟩ := List.mem_map.1 hq
    exact hw.lt_iff_lt

end Line

/-- Tests that agree on a list end its prefix at the same place. -/
theorem takeWhile_congr_of_mem {α : Type} {p q : α → Bool} {s : List α}
    (h : ∀ x ∈ s, p x = q x) : s.takeWhile p = s.takeWhile q ∧ s.dropWhile p = s.dropWhile q := by
  induction s with
  | nil => exact ⟨rfl, rfl⟩
  | cons y s ih =>
    have hy : p y = q y := h y List.mem_cons_self
    have hs := ih fun x hx => h x (List.mem_cons_of_mem y hx)
    rw [List.takeWhile_cons, List.takeWhile_cons, List.dropWhile_cons, List.dropWhile_cons, hy,
      hs.1, hs.2]
    exact ⟨rfl, rfl⟩

namespace Outline

variable (fallbackTag : String)

/-- The body of lines depends on their texts and on the order of their indentations. -/
theorem body_congr (inElement : Bool) {pairs : List (Line × Line)} (h : Line.SameOrder pairs) :
    body fallbackTag inElement (pairs.map Prod.fst) =
      body fallbackTag inElement (pairs.map Prod.snd) := by
  generalize hl : pairs.map Prod.fst = lines
  induction inElement, lines using body.induct fallbackTag generalizing pairs with
  | case1 inElement =>
    rw [List.map_eq_nil_iff.1 hl]
    rfl
  | case2 inElement line rest pair hp ih =>
    obtain ⟨⟨first, other⟩, pairs, rfl, rfl, rfl⟩ := List.map_eq_cons_iff.1 hl
    have ht : first.text = other.text := h.text (first, other) List.mem_cons_self
    have hi := ih (h.of_subset (List.subset_cons_self _ pairs)) rfl
    rw [body_of_continuation hp, List.map_cons, body_of_continuation (ht ▸ hp), hi]
  | case3 inElement line rest hp hc ih₁ ih₂ =>
    obtain ⟨⟨first, other⟩, pairs, rfl, rfl, rfl⟩ := List.map_eq_cons_iff.1 hl
    have ht : first.text = other.text := h.text (first, other) List.mem_cons_self
    have ho : Opening.ofLine fallbackTag other = Opening.ofLine fallbackTag first := by
      rw [Opening.ofLine, Opening.ofLine, ht]
    -- the lines below the container stand at the same places on both sides
    have hd : ∀ p ∈ pairs,
        decide (first.indent < p.1.indent) = decide (other.indent < p.2.indent) :=
      fun p hm => decide_eq_decide.2
        (h.indent (first, other) List.mem_cons_self p (List.mem_cons_of_mem _ hm))
    obtain ⟨htake, hdrop⟩ := takeWhile_congr_of_mem hd
    have hin : (pairs.map Prod.snd).takeWhile (fun l => other.indent < l.indent) =
        (pairs.takeWhile fun p => first.indent < p.1.indent).map Prod.snd := by
      rw [List.takeWhile_map, htake]
      rfl
    have hout : (pairs.map Prod.snd).dropWhile (fun l => other.indent < l.indent) =
        (pairs.dropWhile fun p => first.indent < p.1.indent).map Prod.snd := by
      rw [List.dropWhile_map, hdrop]
      rfl
    have hr := h.of_subset (List.subset_cons_self _ pairs)
    have hi₁ := @ih₁ (pairs.takeWhile fun p => first.indent < p.1.indent)
      (hr.of_subset (List.takeWhile_sublist _).subset) (by rw [List.takeWhile_map]; rfl)
    have hi₂ := @ih₂ (pairs.dropWhile fun p => first.indent < p.1.indent)
      (hr.of_subset (List.dropWhile_sublist _).subset) (by rw [List.dropWhile_map]; rfl)
    rw [body_of_container hp hc, List.map_cons,
      body_of_container (ht ▸ hp) (by rw [ho]; exact hc), ho, hin, hout]
    dsimp only
    rw [hi₁, hi₂]
  | case4 inElement line rest hp hc ih =>
    obtain ⟨⟨first, other⟩, pairs, rfl, rfl, rfl⟩ := List.map_eq_cons_iff.1 hl
    have ht : first.text = other.text := h.text (first, other) List.mem_cons_self
    have ho : Opening.ofLine fallbackTag other = Opening.ofLine fallbackTag first := by
      rw [Opening.ofLine, Opening.ofLine, ht]
    have hi := ih (h.of_subset (List.subset_cons_self _ pairs)) rfl
    rw [body_of_leaf hp hc, List.map_cons, body_of_leaf (ht ▸ hp) (by rw [ho]; exact hc), ho, hi]

theorem body_stretch (inElement : Bool) {width : Nat → Nat} (hw : StrictMono width)
    (lines : List Line) :
    body fallbackTag inElement (lines.map (Line.stretch width)) =
      body fallbackTag inElement lines := by
  have hb := body_congr fallbackTag inElement (Line.sameOrder_stretch hw lines)
  rw [List.map_map, List.map_map] at hb
  exact hb.trans (congrArg _ (List.map_id lines))

theorem ofLines_congr {lines others : List Line} (hl : lines.length = others.length)
    (h : Line.SameOrder (lines.zip others)) :
    ofLines fallbackTag lines = ofLines fallbackTag others := by
  have hb := body_congr fallbackTag false h
  rw [List.map_fst_zip (Nat.le_of_eq hl), List.map_snd_zip (Nat.le_of_eq hl.symm)] at hb
  rw [ofLines_eq_body, ofLines_eq_body, hb]

end Outline

namespace Line

def joined (lines : List (List Char)) : String := String.ofList (['\n'].intercalate lines)

def filled (lines : List (List Char)) : List (List Char) :=
  lines.filter fun l => !Text.isAllBlank l

theorem ofSource_joined {lines : List (List Char)} (h : ∀ l ∈ lines, '\n' ∉ l) :
    ofSource (joined lines) = (filled lines).map ofText := by
  cases lines with
  | nil => rfl
  | cons l rest =>
    rw [ofSource, joined, String.toList_ofList, splitOn_intercalate (by simp) h]
    rfl

/-- A line written anew: behind a margin whose width depends on the width of the old one, and with
any blanks at its end. -/
def Respaced (width : Nat → Nat) (line other : List Char) : Prop :=
  ∃ margin ending : List Char, (∀ c ∈ margin, Text.isBlank c = true) ∧
    (∀ c ∈ ending, Text.isBlank c = true) ∧ margin.length = width (Text.indent line) ∧
    other = margin ++ (Text.trim line ++ ending)

theorem ofText_respaced {width : Nat → Nat} {line other : List Char}
    (h : Respaced width line other) (hb : Text.isAllBlank line = false) (hn : '\n' ∉ line) :
    ofText other = (ofText line).stretch width := by
  obtain ⟨margin, ending, hm, he, hw, rfl⟩ := h
  have ht := Text.oneLine_trim hb hn
  obtain ⟨c, s, hs, hc⟩ := ht.exists_first
  have hi : Text.indent (margin ++ (Text.trim line ++ ending)) = margin.length := by
    rw [hs, Text.indent, List.takeWhile_append_of_pos hm, List.cons_append, List.takeWhile_cons,
      if_neg (by simp [hc]), List.append_nil]
  rw [ofText, hi, hw, ht.trim_append hm he]
  rfl

theorem map_ofText_respaced {width : Nat → Nat} {lines others : List (List Char)}
    (hb : ∀ l ∈ lines, Text.isAllBlank l = false) (hn : ∀ l ∈ lines, '\n' ∉ l)
    (h : List.Forall₂ (Respaced width) lines others) :
    others.map ofText = (lines.map ofText).map (stretch width) := by
  induction h with
  | nil => rfl
  | cons hr _ ih =>
    have hi := ih (fun l hl => hb l (List.mem_cons_of_mem _ hl))
      (fun l hl => hn l (List.mem_cons_of_mem _ hl))
    rw [List.map_cons, List.map_cons, List.map_cons, hi,
      ofText_respaced hr (hb _ List.mem_cons_self) (hn _ List.mem_cons_self)]

end Line

namespace Outline

theorem read_respaced (fallbackTag : String) {width : Nat → Nat} (hw : StrictMono width)
    {lines others : List (List Char)} (hl : ∀ l ∈ lines, '\n' ∉ l) (ho : ∀ l ∈ others, '\n' ∉ l)
    (h : List.Forall₂ (Line.Respaced width) (Line.filled lines) (Line.filled others)) :
    read fallbackTag (Line.joined lines) = read fallbackTag (Line.joined others) := by
  have hb : ∀ l ∈ Line.filled lines, Text.isAllBlank l = false := by
    intro l hm
    simpa using (List.mem_filter.1 hm).2
  have hn : ∀ l ∈ Line.filled lines, '\n' ∉ l := fun l hm => hl l (List.mem_filter.1 hm).1
  rw [read, read, ofLines_eq_body, ofLines_eq_body, Line.ofSource_joined hl,
    Line.ofSource_joined ho, Line.map_ofText_respaced hb hn h, body_stretch fallbackTag false hw]

/-- Sources whose lines have the same texts, and indentations in the same order, have the same
nodes. This holds of any two sources whose lines other than blank ones differ in the width and the
characters of their margins, where wider margins stay wider, and in the blanks at their ends. -/
theorem read_same_order (fallbackTag : String) :
    (∀ source other : String,
      (Line.ofSource source).length = (Line.ofSource other).length →
      Line.SameOrder ((Line.ofSource source).zip (Line.ofSource other)) →
      read fallbackTag source = read fallbackTag other) ∧
    (∀ (width : Nat → Nat) (lines others : List (List Char)), StrictMono width →
      (∀ l ∈ lines, '\n' ∉ l) → (∀ l ∈ others, '\n' ∉ l) →
      List.Forall₂ (Line.Respaced width) (Line.filled lines) (Line.filled others) →
      read fallbackTag (Line.joined lines) = read fallbackTag (Line.joined others)) := by
  constructor
  · intro source other hl h
    exact ofLines_congr fallbackTag hl h
  · intro width lines others hw hl ho h
    exact read_respaced fallbackTag hw hl ho h

/-- Uneven margins of tabs and spaces with carriage returns at the ends of the lines, and margins
three times as wide around a blank line. -/
theorem read_same_order_list :
    read "div" "%ul\n  %li\n    a\n  %li" =
      read "div" "%ul\r\n \n\t%li\r\n\t   \ta\r\n\t%li \r\n" ∧
    read "div" (Line.joined ["%ul".toList, "  %li".toList]) =
      read "div" (Line.joined ["%ul\r".toList, [], "\t\t\t   %li".toList]) := by
  obtain ⟨hsame, hspaced⟩ := read_same_order "div"
  constructor
  · exact hsame _ _ (by decide) (by decide)
  · apply hspaced fun n => 3 * n
    · intro m n h
      exact Nat.mul_lt_mul_of_pos_left h (by decide)
    · decide
    · decide
    · refine .cons ?_ (.cons ?_ .nil)
      · exact ⟨[], ['\r'], List.all_eq_true.1 (by decide), List.all_eq_true.1 (by decide),
          by decide, by decide⟩
      · exact ⟨"\t\t\t   ".toList, [], List.all_eq_true.1 (by decide),
          List.all_eq_true.1 (by decide), by decide, by decide⟩

end Outline

end IndentMarkup
