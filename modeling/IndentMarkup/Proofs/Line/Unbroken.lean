import IndentMarkup.Proofs.Line.Attributes
import IndentMarkup.Proofs.Line.Characters

/-!
# Texts without line feeds

What a line says holds no line feed anywhere: neither do the texts that its directive carries, nor
the keys and values of the attributes that are made of them.
-/
namespace IndentMarkup

namespace Text

/-- A text without line feeds. -/
def Unbroken (t : String) : Prop := '\n' ∉ t.toList

instance (t : String) : Decidable (Unbroken t) := inferInstanceAs (Decidable ('\n' ∉ t.toList))

theorem Unbroken.ofList {s line : List Char} (h : '\n' ∉ line) (hs : s ⊆ line) :
    Unbroken (String.ofList s) := by
  rw [Unbroken, String.toList_ofList]
  exact fun hm => h (hs hm)

theorem Unbroken.append {s t : String} (hs : Unbroken s) (ht : Unbroken t) : Unbroken (s ++ t) := by
  rw [Unbroken, String.toList_append, List.mem_append]
  exact not_or.2 ⟨hs, ht⟩

theorem Unbroken.intercalate {separator : String} (h : Unbroken separator) {texts : List String}
    (ht : ∀ t ∈ texts, Unbroken t) : Unbroken (separator.intercalate texts) := by
  rw [Unbroken, String.toList_intercalate]
  induction texts with
  | nil => simp [List.intercalate]
  | cons t rest ih =>
    have hi := ih fun u hu => ht u (List.mem_cons_of_mem t hu)
    have hf : '\n' ∉ t.toList := ht t List.mem_cons_self
    cases rest with
    | nil => simpa [List.intercalate] using hf
    | cons u rest =>
      rw [List.map_cons, List.map_cons, List.intercalate_cons_cons, List.mem_append,
        List.mem_append]
      exact not_or.2 ⟨not_or.2 ⟨hf, h⟩, hi⟩

theorem hexDigit_ne_lineFeed {n : Nat} (h : n < 16) : hexDigit n ≠ '\n' := by
  have all : ∀ m ∈ List.range 16, hexDigit m ≠ '\n' := by decide
  exact all n (List.mem_range.2 h)

/-- A line feed is escaped between quotes. -/
theorem not_mem_escapeQuoted (c : Char) : '\n' ∉ escapeQuoted c := by
  unfold escapeQuoted
  split
  · decide
  split
  · decide
  split
  · decide
  split
  · decide
  split
  · decide
  split
  · decide
  split
  · decide
  split
  · next h =>
    have hd := hexDigit_ne_lineFeed (n := c.toNat / 16) (by omega)
    have hr := hexDigit_ne_lineFeed (n := c.toNat % 16) (by omega)
    simp [hd.symm, hr.symm]
  · next h _ _ _ _ _ => simpa using Ne.symm h

theorem unbroken_quote (t : String) : Unbroken (quote t) := by
  rw [Unbroken, toList_quote, quoteChars, escapeAll, List.mem_cons, List.mem_append,
    List.mem_flatMap, List.mem_singleton]
  rintro (h | ⟨c, -, h⟩ | h)
  · cases h
  · exact not_mem_escapeQuoted c h
  · cases h

end Text

open Text (Unbroken)

def AttrValue.content : AttrValue → String
  | .literal text => text
  | .expr source _ => source

def AttributePair.Unbroken (pair : AttributePair) : Prop :=
  Text.Unbroken pair.1 ∧ Text.Unbroken pair.2.content

theorem unbroken_splitRaw {line : List Char} (h : '\n' ∉ line) {s : List Char} (hs : s ⊆ line) :
    Unbroken (splitRaw (String.ofList s)).1 := by
  have ht := List.Subset.trans (Text.trim_subset s) hs
  unfold splitRaw
  rw [String.toList_ofList]
  dsimp only
  split
  · next rest hr =>
    have hd := List.Subset.trans (Text.trim_subset rest) (Text.dropStart?_subset hr)
    exact .ofList h (List.Subset.trans hd ht)
  · exact .ofList h ht

theorem unbroken_concatenation {segments : List Segment}
    (h : ∀ segment ∈ segments, Unbroken segment.content) : Unbroken (concatenation segments) := by
  unfold concatenation
  apply Unbroken.intercalate (by decide)
  intro t ht
  rcases List.mem_append.1 ht with hf | hm
  · split at hf
    · rw [List.mem_singleton.1 hf]
      exact Text.unbroken_quote ""
    · cases hf
  · obtain ⟨segment, hs, rfl⟩ := List.mem_map.1 hm
    have hc := h segment hs
    cases segment with
    | literal text => exact Text.unbroken_quote text
    | expr source => exact .append (.append (by decide) hc) (by decide)

namespace AttrValue

theorem unbroken_combineClass {shorthand : String} (hs : Unbroken shorthand) {value : AttrValue}
    (h : Unbroken value.content) : Unbroken (value.combineClass shorthand).content := by
  cases value with
  | literal text => exact .append (.append hs (by decide)) h
  | expr source raw =>
    have hq := (Text.unbroken_quote shorthand).append (t := " + ((") (by decide)
    have hc := (hq.append h).append (t := ") ? \" \" + (") (by decide)
    exact (hc.append h).append (by decide)

theorem unbroken_ofBlockText {s : List Char} (h : '\n' ∉ s) : Unbroken (ofBlockText s).content := by
  unfold ofBlockText
  split
  · next source hs => exact unbroken_splitRaw h (singleInsertion?_subset hs)
  · dsimp only
    split
    · apply unbroken_concatenation
      intro segment hm
      exact fun hn => h (Segment.subset_of_mem_ofText hm hn)
    · exact .ofList h (List.Subset.refl s)

end AttrValue

namespace Attributes

def Unbroken (attributes : Attributes) : Prop :=
  ∀ pair ∈ attributes, AttributePair.Unbroken pair

theorem unbroken_nil : Unbroken [] := fun pair hm => by cases hm

theorem Unbroken.set {attributes : Attributes} (h : attributes.Unbroken) {key : String}
    {value : AttrValue} (hp : AttributePair.Unbroken (key, value)) :
    Unbroken (Keyed.set attributes key value) := by
  induction attributes with
  | nil =>
    intro pair hm
    rw [List.mem_singleton.1 hm]
    exact hp
  | cons first rest ih =>
    have hf := h first List.mem_cons_self
    have hr : Unbroken rest := fun pair hm => h pair (List.mem_cons_of_mem first hm)
    rw [Keyed.set]
    split
    · intro pair hm
      rcases List.mem_cons.1 hm with rfl | hm
      · exact hp
      · exact hr pair hm
    · intro pair hm
      rcases List.mem_cons.1 hm with rfl | hm
      · exact hf
      · exact ih hr pair hm

theorem Unbroken.merge {attributes : Attributes} (h : attributes.Unbroken)
    {shorthand : Option String} (hs : ∀ classes ∈ shorthand, Text.Unbroken classes)
    {pair : AttributePair} (hp : pair.Unbroken) : (attributes.merge shorthand pair).Unbroken := by
  unfold Attributes.merge
  split
  · next classes =>
    split
    · exact h.set ⟨hp.1, AttrValue.unbroken_combineClass (hs classes rfl) hp.2⟩
    · exact h.set hp
  · exact h.set hp

theorem Unbroken.mergeAll {attributes : Attributes} (h : attributes.Unbroken)
    {shorthand : Option String} (hs : ∀ classes ∈ shorthand, Text.Unbroken classes)
    {pairs : List AttributePair} (hp : ∀ pair ∈ pairs, pair.Unbroken) :
    (attributes.mergeAll shorthand pairs).Unbroken := by
  unfold Attributes.mergeAll
  induction pairs generalizing attributes with
  | nil => exact h
  | cons pair rest ih =>
    exact ih (h.merge hs (hp pair List.mem_cons_self))
      fun p hm => hp p (List.mem_cons_of_mem pair hm)

end Attributes

namespace AttributeBlock

theorem unbroken_pair? {piece : List Char} (h : '\n' ∉ piece) {pair : AttributePair}
    (hp : pair? piece = some pair) : pair.Unbroken := by
  cases hc : Nesting.start.cutAt? (fun c => c == ':' || c == '=') piece with
  | none =>
    rw [pair?, written?, hc] at hp
    cases hp
  | some cut =>
    obtain ⟨before, mark, after⟩ := cut
    have ha := Nesting.append_of_cutAt? hc
    have hs : ∀ part, stripQuotes (Text.trim part) ⊆ part := fun part =>
      List.Subset.trans (stripQuotes_subset _) (Text.trim_subset part)
    have hb : stripQuotes (Text.trim before) ⊆ piece := by
      rw [← ha]
      exact List.Subset.trans (hs before) (List.subset_append_left _ _)
    have hv : stripQuotes (Text.trim after) ⊆ piece := by
      rw [← ha]
      exact List.Subset.trans (hs after)
        (List.subset_append_of_subset_right before (List.subset_cons_self mark after))
    rw [pair?_of_cutAt? hc] at hp
    split at hp
    · cases hp
    · cases hp
      exact ⟨.ofList h hb, AttrValue.unbroken_ofBlockText fun hm => h (hv hm)⟩

theorem unbroken_split? {s r : List Char} (h : '\n' ∉ s) {pairs : List AttributePair}
    (hs : split? s = some (pairs, r)) : (∀ pair ∈ pairs, pair.Unbroken) ∧ r ⊆ s := by
  rw [split?_eq] at hs
  obtain ⟨⟨b, r'⟩, hb, e⟩ := Option.map_eq_some_iff.1 hs
  cases e
  obtain ⟨hb, hr⟩ := splitBlock?_subset hb
  refine ⟨fun pair hm => ?_, List.Subset.trans hr (Text.trimStart_subset s)⟩
  obtain ⟨piece, hp, hpair⟩ := List.mem_filterMap.1 hm
  have hbs : b ⊆ s := List.Subset.trans hb (Text.trimStart_subset s)
  have hi : (b.drop 1).dropLast ⊆ s :=
    List.Subset.trans (List.dropLast_subset _) (List.Subset.trans (List.drop_subset 1 b) hbs)
  exact unbroken_pair? (fun hn => h (hi (subset_of_mem_splitTopLevel hp hn))) hpair

end AttributeBlock

namespace SimpleAttribute

theorem unbroken_value? {s r : List Char} (h : '\n' ∉ s) {value : AttrValue}
    (hv : value? s = some (value, r)) : Unbroken value.content ∧ r ⊆ s := by
  unfold value? at hv
  split at hv
  · next s =>
    obtain ⟨⟨b, r'⟩, hb, e⟩ := Option.map_eq_some_iff.1 hv
    cases e
    have hs : s ⊆ '{' :: '{' :: s := List.subset_append_right ['{', '{'] s
    obtain ⟨hb, hr⟩ := Insertion.cutBody?_subset (fun t u hu => Insertion.closing?_subset hu) hb
    exact ⟨unbroken_splitRaw h (List.Subset.trans hb hs), List.Subset.trans hr hs⟩
  · next q s _ =>
    split at hv
    · split at hv
      · next mark after hd =>
        cases hv
        have ha : r ⊆ s := by
          have hm : mark :: r ⊆ s := by
            rw [← hd]
            exact List.dropWhile_subset _
          exact List.subset_of_cons_subset hm
        exact ⟨.ofList h (List.subset_cons_of_subset q (List.takeWhile_subset _)),
          List.subset_cons_of_subset q ha⟩
      · cases hv
    · cases hv
  · cases hv

theorem unbroken_first? {s r : List Char} (h : '\n' ∉ s) {pair : AttributePair}
    (hf : first? s = some (pair, r)) : pair.Unbroken ∧ r ⊆ s := by
  unfold first? at hf
  split at hf
  · cases hf
  · next key rest hk =>
    obtain ⟨⟨value, r'⟩, hv, e⟩ := Option.map_eq_some_iff.1 hf
    cases e
    have hs := (key?_eq_some hk).2
    have hks : key ⊆ s := by
      rw [hs]
      exact List.subset_append_left key _
    have hrs : rest ⊆ s := by
      rw [hs]
      exact List.subset_append_of_subset_right key (List.subset_cons_self '=' rest)
    obtain ⟨hv, hr⟩ := unbroken_value? (fun hm => h (hrs hm)) hv
    exact ⟨⟨.ofList h hks, hv⟩, List.Subset.trans hr hrs⟩

theorem unbroken_split {s : List Char} (h : '\n' ∉ s) :
    (∀ pair ∈ (split s).1, pair.Unbroken) ∧ (split s).2 ⊆ s := by
  fun_induction split s with
  | case1 s hf => exact ⟨fun pair hm => (List.not_mem_nil hm).elim, Text.trim_subset s⟩
  | case2 s p r hf pairs content hr ih =>
    obtain ⟨hp, hs⟩ := unbroken_first? (fun hm => h (Text.trimStart_subset s hm)) hf
    have hrs : r ⊆ s := List.Subset.trans hs (Text.trimStart_subset s)
    have hi := ih fun hm => h (hrs hm)
    rw [hr] at hi
    refine ⟨fun pair hm => ?_, List.Subset.trans hi.2 hrs⟩
    rcases List.mem_cons.1 hm with rfl | hm
    · exact hp
    · exact hi.1 pair hm

theorem unbroken_ofLine? {line : List Char} (h : '\n' ∉ line) {pair : AttributePair}
    (hp : ofLine? line = some pair) : pair.Unbroken := by
  unfold ofLine? at hp
  split at hp
  · next p hs =>
    cases hp
    apply (unbroken_split h).1
    rw [hs]
    exact List.mem_singleton_self pair
  · cases hp

end SimpleAttribute

/-! ### Directives -/

/-- The texts of the head of an element line, apart from the tag. -/
def ElementHead.texts (head : ElementHead) : List String :=
  head.rest :: (head.classes ++ head.id.toList)

/-- The texts that a directive carries, apart from the names of tags and of variables. -/
def Directive.texts : Directive → List String
  | .literal t => [t]
  | .text segments => segments.map Segment.content
  | .element head => head.texts
  | .expression source => [source]
  | .statement code => [code]
  | .ifThen condition => [condition]
  | .elseIf condition => [condition]
  | .otherwise => []
  | .loop head => [head.source]

section

variable {line : List Char} {t : String}

theorem subset_of_mem_modifiers {run : List Char} {m : Char × List Char} (h : m ∈ modifiers run) :
    m.2 ⊆ run :=
  (modifierNames_subset run).2 m (List.mem_filter.1 h).1

theorem ElementHead.subset_ofParts {tag : Option String} {run rest : List Char} (hr : run ⊆ line)
    (hs : rest ⊆ line) (h : t ∈ (ofParts tag run rest).texts) : t.toList ⊆ line := by
  have hn : ∀ mark : Char, t ∈ ((modifiers run).filter fun m => m.1 = mark).map
      (fun m => String.ofList m.2) → t.toList ⊆ line := by
    intro mark hm
    obtain ⟨m, hf, rfl⟩ := List.mem_map.1 hm
    rw [String.toList_ofList]
    exact List.Subset.trans (subset_of_mem_modifiers (List.mem_filter.1 hf).1) hr
  rcases List.mem_cons.1 h with rfl | h
  · exact (String.toList_ofList ▸ hs : (String.ofList rest).toList ⊆ line)
  rcases List.mem_append.1 h with hc | hi
  · exact hn '.' hc
  · exact hn '#' (List.mem_of_getLast? (Option.mem_toList.1 hi))

theorem ElementHead.subset_ofModifiers (h : t ∈ (ofModifiers line).texts) : t.toList ⊆ line :=
  subset_ofParts (List.takeWhile_subset _) (List.dropWhile_subset _) h

theorem ElementHead.subset_ofTagged? {head : ElementHead} (hh : ofTagged? line = some head)
    (h : t ∈ head.texts) : t.toList ⊆ line := by
  unfold ofTagged? at hh
  dsimp only at hh
  split at hh
  · cases hh
  · cases hh
    have hd : line.dropWhile Text.isName ⊆ line := List.dropWhile_subset _
    exact subset_ofParts (List.Subset.trans (List.takeWhile_subset _) hd)
      (List.Subset.trans (List.dropWhile_subset _) hd) h

theorem dropBlanks?_subset {s r : List Char} (h : dropBlanks? s = some r) : r ⊆ s := by
  cases s with
  | nil => cases h
  | cons c s =>
    rw [dropBlanks?] at h
    split at h
    · cases h
      exact List.subset_cons_of_subset c (Text.trimStart_subset s)
    · cases h

theorem LoopHead.source?_subset {s source : List Char} (h : source? s = some source) :
    source ⊆ s := by
  unfold source? at h
  obtain ⟨afterBlanks, hb, h⟩ := Option.bind_eq_some_iff.1 h
  obtain ⟨afterWord, hw, h⟩ := Option.bind_eq_some_iff.1 h
  obtain ⟨source', hs, h⟩ := Option.bind_eq_some_iff.1 h
  split at h
  · cases h
  · cases h
    exact List.Subset.trans (dropBlanks?_subset hs)
      (List.Subset.trans (Text.dropStart?_subset hw) (dropBlanks?_subset hb))

theorem LoopHead.index?_subset {s index rest : List Char} (h : index? s = some (index, rest)) :
    rest ⊆ s := by
  unfold index? at h
  split at h
  · next r hr =>
    have hs : ',' :: r ⊆ s := by
      rw [← hr]
      exact Text.trimStart_subset s
    have hr : Text.trimStart r ⊆ s :=
      List.Subset.trans (Text.trimStart_subset r) (List.subset_of_cons_subset hs)
    exact List.Subset.trans (Text.splitIdentifier?_subset h).2 hr
  · cases h

theorem LoopHead.subset_ofText? {s : List Char} {head : LoopHead} (h : ofText? s = some head) :
    head.source.toList ⊆ s := by
  unfold ofText? at h
  obtain ⟨start, hb, h⟩ := Option.bind_eq_some_iff.1 h
  obtain ⟨⟨name, rest⟩, hn, h⟩ := Option.bind_eq_some_iff.1 h
  have hr : rest ⊆ s :=
    List.Subset.trans (Text.splitIdentifier?_subset hn).2 (dropBlanks?_subset hb)
  dsimp only at h
  split at h
  · next index rest' hi =>
    obtain ⟨source, hs, h⟩ := Option.bind_eq_some_iff.1 h
    cases h
    rw [String.toList_ofList]
    exact List.Subset.trans (source?_subset hs) (List.Subset.trans (index?_subset hi) hr)
  · obtain ⟨source, hs, h⟩ := Option.bind_eq_some_iff.1 h
    cases h
    rw [String.toList_ofList]
    exact List.Subset.trans (source?_subset hs) hr

end

namespace Directive

variable {line : List Char} {t : String}

theorem subset_of_mem_ofControl (h : t ∈ (ofControl line).texts) : t.toList ⊆ line := by
  have hw : ∀ word r, afterWord? word line = some r →
      (String.ofList (Text.trim r)).toList ⊆ line := by
    intro word r hr
    rw [String.toList_ofList]
    exact List.Subset.trans (Text.trim_subset r) (Text.dropStart?_subset hr)
  unfold ofControl at h
  split at h
  · next r hr =>
    rw [List.mem_singleton.1 h]
    exact hw "if" r hr
  split at h
  · cases h
  split at h
  · next r hr =>
    rw [List.mem_singleton.1 h]
    rcases Option.or_eq_some_iff.1 hr with hr | ⟨-, hr⟩
    · exact hw "else if" r hr
    · exact hw "elsif" r hr
  split at h
  · next head hl =>
    obtain ⟨r, -, hl⟩ := Option.bind_eq_some_iff.1 hl
    rw [List.mem_singleton.1 h]
    exact List.Subset.trans (LoopHead.subset_ofText? hl) (List.drop_subset 3 line)
  · rw [List.mem_singleton.1 h, String.toList_ofList]
    exact List.Subset.refl line

theorem subset_of_mem_ofPlain (h : t ∈ (ofPlain line).texts) : t.toList ⊆ line := by
  unfold ofPlain at h
  split at h
  · next r =>
    rw [List.mem_singleton.1 h, String.toList_ofList]
    exact List.Subset.trans (Text.trim_subset r) (List.subset_append_right ['=', ' '] r)
  · obtain ⟨segment, hm, rfl⟩ := List.mem_map.1 h
    exact Segment.subset_of_mem_ofText hm

/-- Every text that a directive carries consists of characters of its line. -/
theorem subset_of_mem_ofTrimmed (h : t ∈ (ofTrimmed line).texts) : t.toList ⊆ line := by
  unfold ofTrimmed at h
  split at h
  · next r =>
    rw [List.mem_singleton.1 h, String.toList_ofList]
    exact List.subset_cons_self '\\' ('-' :: r)
  · next r =>
    have hr : r ⊆ '-' :: ' ' :: r := List.subset_append_right ['-', ' '] r
    exact List.Subset.trans (subset_of_mem_ofControl h) (List.Subset.trans (Text.trim_subset r) hr)
  · exact ElementHead.subset_ofModifiers h
  · exact ElementHead.subset_ofModifiers h
  · next r =>
    split at h
    · next head hh => exact List.subset_cons_of_subset '%' (ElementHead.subset_ofTagged? hh h)
    · exact subset_of_mem_ofPlain h
  · exact subset_of_mem_ofPlain h

end Directive

end IndentMarkup
