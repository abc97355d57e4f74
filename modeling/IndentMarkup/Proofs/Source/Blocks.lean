import IndentMarkup.Proofs.Line.Enclosure
import IndentMarkup.Proofs.Source.Directives

/-!
# Reading printed blocks

Attributes can be printed as a block behind a tag: each key between quotes, and behind it a text
between quotes or one insertion. The block ends at its own closing brace, its pieces are the printed
pairs, a piece is cut at the colon behind its key, and a value is taken for what it was printed as.
So the block is read as the pairs that were printed. A text may hold quotes and signs, and commas
and braces as far as they are balanced. An expression may even hold closing braces side by side.
-/
namespace IndentMarkup

open Nesting

/-- A key, and a text or one insertion for its value. -/
abbrev BlockPair := String × Segment

namespace Segment

def inBlock : Segment → List Char
  | .literal text => '"' :: (text.toList ++ ['"'])
  | .expr source => '{' :: '{' :: ' ' :: (source.toList ++ [' ', '}', '}'])

def attrValue : Segment → AttrValue
  | .literal text => .literal text
  | .expr source => .ofSource source

/-- A value that can be printed in a block: a balanced text without an insertion and without a comma
at its top level, or a balanced expression, on one line. -/
def FitsBlock : Segment → Prop
  | .literal text => '\n' ∉ text.toList ∧ Balanced text.toList ∧
      NoneAtTop (· == ',') start text.toList ∧ ¬ ['{', '{'] <:+: text.toList
  | .expr source => Text.OneLine source.toList ∧ Balanced source.toList

instance : (value : Segment) → Decidable value.FitsBlock
  | .literal _ => inferInstanceAs (Decidable (_ ∧ _))
  | .expr _ => inferInstanceAs (Decidable (_ ∧ _))

end Segment

namespace BlockPair

def printed (pair : BlockPair) : List Char :=
  '"' :: (pair.1.toList ++ '"' :: ':' :: ' ' :: pair.2.inBlock)

def body (pairs : List BlockPair) : List Char :=
  ' ' :: ([',', ' '].intercalate (pairs.map printed) ++ [' '])

def block (pairs : List BlockPair) : List Char := '{' :: (body pairs ++ ['}'])

def values (pairs : List BlockPair) : List AttributePair :=
  pairs.map fun pair => (pair.1, pair.2.attrValue)

def line (tag : String) (pairs : List BlockPair) : List Char :=
  '%' :: (tag.toList ++ block pairs)

def head (tag : String) (pairs : List BlockPair) : ElementHead :=
  ⟨some tag, [], none, String.ofList (block pairs)⟩

/-- A pair whose key is made of characters of names, like a tag, and whose value fits a block. -/
structure Printable (pair : BlockPair) : Prop where
  key : IsTag pair.1
  value : pair.2.FitsBlock

instance (pair : BlockPair) : Decidable pair.Printable :=
  decidable_of_iff (IsTag pair.1 ∧ pair.2.FitsBlock) ⟨fun h => ⟨h.1, h.2⟩, fun h => ⟨h.key, h.value⟩⟩

end BlockPair

/-! ### Values -/

theorem stripQuotes_quoted (s : List Char) : stripQuotes ('"' :: (s ++ ['"'])) = s := by
  cases hs : s ++ ['"'] with
  | nil => simp at hs
  | cons c r =>
    have hl : (c :: r).getLast? = some '"' := by rw [← hs, List.getLast?_concat]
    rw [stripQuotes, if_pos ⟨.inl rfl, hl⟩, ← hs, List.dropLast_concat]

theorem stripQuotes_brace (s : List Char) : stripQuotes ('{' :: s) = '{' :: s := by
  cases s with
  | nil => rfl
  | cons c r => rw [stripQuotes, if_neg fun h => by simp at h]

theorem Insertion.cut?_eq_none {s : List Char} (h : ¬ ['{', '{'] <:+: s) : cut? s = none := by
  induction s with
  | nil => rfl
  | cons c s ih =>
    have hs : ¬ ['{', '{'] <:+: s := fun hi => h (List.infix_cons hi)
    have ha : atStart? (c :: s) = none := by
      unfold atStart?
      split
      · next r he =>
        cases he
        exact (h ⟨[], r, rfl⟩).elim
      · rfl
    rw [cut?, ha, ih hs]
    rfl

theorem singleInsertion?_eq_none {s : List Char} (h : ¬ ['{', '{'] <:+: s) :
    singleInsertion? s = none := by
  unfold singleInsertion? cutInsertion?
  dsimp only
  split
  · next inner he =>
    have hp : ['{', '{'] <:+: Text.trim s := ⟨[], inner, by simp [he]⟩
    exact (h (hp.trans (Text.trim_infix_self s))).elim
  · rfl

/-- A text without an insertion is kept as it stands. -/
theorem AttrValue.ofBlockText_literal {s : List Char} (h : ¬ ['{', '{'] <:+: s) :
    ofBlockText s = .literal (String.ofList s) := by
  rw [ofBlockText, singleInsertion?_eq_none h]
  dsimp only
  rw [Segment.ofText_of_cut?_eq_none (Insertion.cut?_eq_none h), Segment.ofRun]
  split
  · rfl
  · rfl

/-- An insertion, with the inner braces as a part of the outer block. -/
theorem insertion_eq (s : List Char) : '{' :: '{' :: ' ' :: (s ++ [' ', '}', '}']) =
    '{' :: ('{' :: (' ' :: (s ++ [' ']) ++ ['}']) ++ ['}']) := by
  simp

theorem balanced_blank : Balanced [' '] := balanced_singleton rfl

theorem balanced_inner {s : List Char} (h : Balanced s) :
    Balanced ('{' :: (' ' :: (s ++ [' ']) ++ ['}'])) := by
  exact (balanced_blank.append (h.append balanced_blank)).braces

/-- The braces around a balanced expression belong together, whatever braces the expression holds.
-/
theorem singleInsertion?_printed {s : List Char} (ho : Text.OneLine s) (hb : Balanced s) :
    singleInsertion? ('{' :: '{' :: ' ' :: (s ++ [' ', '}', '}'])) = some s := by
  have ht : Text.trim ('{' :: '{' :: ' ' :: (s ++ [' ', '}', '}'])) =
      '{' :: '{' :: ' ' :: (s ++ [' ', '}', '}']) :=
    Text.trim_of_ends (t := '{' :: '{' :: (' ' :: (s ++ [' ']) ++ ['}'])) (insertion_eq s) rfl rfl
  exact singleInsertion?_of_encloses hb ho.ne_nil ho.trimmed
    ⟨[' '], [' '], Text.isBlank_of_mem_space, Text.isBlank_of_mem_space, ht⟩

namespace Segment

section

variable {value : Segment} (h : value.FitsBlock)
include h

theorem oneLine_inBlock : Text.OneLine value.inBlock := by
  cases value with
  | literal text =>
    refine Text.oneLine_of_ends (t := '"' :: text.toList) (d := '"') rfl rfl rfl ?_
    simpa using h.1
  | expr source =>
    have hn := h.1.unbroken
    refine Text.oneLine_of_ends (t := '{' :: '{' :: (' ' :: (source.toList ++ [' ']) ++ ['}']))
      (insertion_eq source.toList) rfl rfl ?_
    simpa using hn

theorem balanced_inBlock : Balanced value.inBlock := by
  cases value with
  | literal text =>
    have hquote : Balanced ['"'] := balanced_singleton rfl
    exact hquote.append (h.2.1.append hquote)
  | expr source =>
    rw [inBlock, insertion_eq]
    exact (balanced_inner h.2).braces

theorem noneAtTop_inBlock : NoneAtTop (· == ',') start value.inBlock := by
  cases value with
  | literal text =>
    have hquote : ∀ n, NoneAtTop (· == ',') n ['"'] := fun n => noneAtTop_singleton rfl
    exact noneAtTop_append.2 ⟨hquote start, noneAtTop_append.2 ⟨h.2.2.1, hquote _⟩⟩
  | expr source =>
    rw [inBlock, insertion_eq]
    exact noneAtTop_braces rfl (balanced_inner h.2)

theorem ofBlockText_inBlock :
    AttrValue.ofBlockText (stripQuotes value.inBlock) = value.attrValue := by
  cases value with
  | literal text =>
    rw [inBlock, stripQuotes_quoted, AttrValue.ofBlockText_literal h.2.2.2, String.ofList_toList]
    rfl
  | expr source =>
    rw [inBlock, stripQuotes_brace, AttrValue.ofBlockText, singleInsertion?_printed h.1 h.2]
    dsimp only
    rw [String.ofList_toList]
    rfl

end

end Segment

/-! ### Pairs -/

namespace Text

theorem ne_of_isName {c d : Char} (h : isName c = true) (hd : isName d = false) : c ≠ d := by
  rintro rfl
  rw [h] at hd
  cases hd

theorem isPlain_of_isName {c : Char} (h : isName c = true) : isPlain c = true := by
  have hq : c ≠ '\x60' := ne_of_isName h (by decide +kernel)
  have ho : c ≠ '{' := ne_of_isName h (by decide +kernel)
  have hc : c ≠ '}' := ne_of_isName h (by decide +kernel)
  simp [isPlain, hq, ho, hc]

end Text

namespace BlockPair

theorem printed_eq (pair : BlockPair) :
    pair.printed = '"' :: (pair.1.toList ++ ['"', ':', ' ']) ++ pair.2.inBlock := by
  simp [printed]

section

variable {pair : BlockPair} (h : pair.Printable)
include h

/-- The key, its quotes and its colon change no state, and there is no comma among them. -/
theorem isPlain_of_mem_front : ∀ c ∈ '"' :: (pair.1.toList ++ ['"', ':', ' ']),
    isPlain c = true ∧ (c == ',') = false := by
  have hk : ∀ c ∈ pair.1.toList, isPlain c = true ∧ (c == ',') = false := by
    intro c hc
    have hn := h.key.2 c hc
    exact ⟨Text.isPlain_of_isName hn, beq_false_of_ne (Text.ne_of_isName hn (by decide +kernel))⟩
  rw [List.forall_mem_cons, List.forall_mem_append]
  exact ⟨by decide, hk, by simp [isPlain]⟩

theorem oneLine_printed : Text.OneLine pair.printed := by
  obtain ⟨t, d, hv, hd⟩ := (Segment.oneLine_inBlock h.value).exists_last
  have hn : '\n' ∉ pair.printed := by
    have hk := Text.not_mem_of_isName h.key.2
    have hv := (Segment.oneLine_inBlock h.value).unbroken
    simp [printed, hk, hv]
  refine Text.oneLine_of_ends (t := '"' :: (pair.1.toList ++ '"' :: ':' :: ' ' :: t)) ?_ rfl hd hn
  simp [hv]

theorem balanced_printed : Balanced pair.printed := by
  have hf : Balanced ('"' :: (pair.1.toList ++ ['"', ':', ' '])) :=
    balanced_of_isPlain fun c hc => (isPlain_of_mem_front h c hc).1
  rw [printed_eq]
  exact hf.append (Segment.balanced_inBlock h.value)

theorem noneAtTop_printed : NoneAtTop (· == ',') start pair.printed := by
  have hf : NoneAtTop (· == ',') start ('"' :: (pair.1.toList ++ ['"', ':', ' '])) :=
    noneAtTop_of_forall fun c hc => (isPlain_of_mem_front h c hc).2
  have hr := run_of_isPlain (fun c hc => (isPlain_of_mem_front h c hc).1) start
  rw [printed_eq]
  refine noneAtTop_append.2 ⟨hf, ?_⟩
  rw [hr]
  exact Segment.noneAtTop_inBlock h.value

theorem pair?_printed : AttributeBlock.pair? pair.printed = some (pair.1, pair.2.attrValue) := by
  have hk : ∀ c ∈ '"' :: (pair.1.toList ++ ['"']), (c == ':' || c == '=') = false := by
    have hn : ∀ c ∈ pair.1.toList, (c == ':' || c == '=') = false := by
      intro c hc
      have hc := h.key.2 c hc
      have h₁ : c ≠ ':' := Text.ne_of_isName hc (by decide +kernel)
      have h₂ : c ≠ '=' := Text.ne_of_isName hc (by decide +kernel)
      simp [h₁, h₂]
    rw [List.forall_mem_cons, List.forall_mem_append]
    exact ⟨rfl, hn, List.forall_mem_singleton.2 rfl⟩
  have hr : start.run ('"' :: (pair.1.toList ++ ['"']) ++ [':']) = start := by
    apply run_of_isPlain
    intro c hc
    refine (isPlain_of_mem_front h c ?_).1
    simp only [List.cons_append, List.append_assoc, List.mem_cons, List.mem_append] at hc ⊢
    tauto
  have hcut : start.cutAt? (fun c => c == ':' || c == '=') pair.printed =
      some ('"' :: (pair.1.toList ++ ['"']), ':', ' ' :: pair.2.inBlock) := by
    have hc := cutAt?_append (noneAtTop_of_forall hk) (c := ':') rfl ((atTop_iff _).2 hr)
      (' ' :: pair.2.inBlock)
    rw [← hc]
    simp [printed]
  have hkey : Text.trim ('"' :: (pair.1.toList ++ ['"'])) = '"' :: (pair.1.toList ++ ['"']) :=
    Text.trim_of_ends (t := '"' :: pair.1.toList) rfl rfl rfl
  have hvalue : Text.trim (' ' :: pair.2.inBlock) = pair.2.inBlock :=
    (Segment.oneLine_inBlock h.value).trim_behind_space
  rw [AttributeBlock.pair?_of_cutAt? hcut, hkey, hvalue, stripQuotes_quoted, if_neg h.key.1,
    Segment.ofBlockText_inBlock h.value, String.ofList_toList]

end

theorem body_singleton (pair : BlockPair) : body [pair] = ' ' :: (pair.printed ++ [' ']) := by
  simp [body]

theorem body_cons (pair next : BlockPair) (rest : List BlockPair) :
    body (pair :: next :: rest) = ' ' :: pair.printed ++ ',' :: body (next :: rest) := by
  simp [body, List.intercalate_cons_cons]

section

variable {pairs : List BlockPair} (h : ∀ pair ∈ pairs, pair.Printable)
include h

theorem balanced_body : Balanced (body pairs) := by
  induction pairs with
  | nil => exact balanced_blank.append balanced_blank
  | cons pair rest ih =>
    have hp := balanced_printed (h pair List.mem_cons_self)
    cases rest with
    | nil =>
      rw [body_singleton]
      exact balanced_blank.append (hp.append balanced_blank)
    | cons next rest =>
      rw [body_cons]
      have hr := ih fun p hm => h p (.tail pair hm)
      exact (balanced_blank.append hp).append ((balanced_singleton rfl).append hr)

theorem map_trim_pieces_body (hne : pairs ≠ []) :
    (start.pieces ',' (body pairs)).map Text.trim = pairs.map printed := by
  induction pairs with
  | nil => exact (hne rfl).elim
  | cons pair rest ih =>
    have hp := h pair List.mem_cons_self
    have hn : NoneAtTop (· == ',') start (' ' :: pair.printed) :=
      noneAtTop_cons.2 ⟨fun hm => (Bool.false_ne_true hm).elim, noneAtTop_printed hp⟩
    have hr : start.run (' ' :: pair.printed) = start := (balanced_printed hp).run_eq
    have ho := oneLine_printed hp
    cases rest with
    | nil =>
      have hb : NoneAtTop (· == ',') start (' ' :: pair.printed ++ [' ']) :=
        noneAtTop_append.2 ⟨hn, noneAtTop_singleton rfl⟩
      rw [body_singleton, ← List.cons_append, pieces_of_noneAtTop hb]
      exact congrArg (fun s => [s])
        (ho.trim_append Text.isBlank_of_mem_space Text.isBlank_of_mem_space)
    | cons next rest =>
      have ht : start.run (' ' :: pair.printed ++ [',']) = start := by
        rw [run_append, hr]
        rfl
      have hi := ih (fun p hm => h p (.tail pair hm)) (List.cons_ne_nil next rest)
      rw [body_cons, pieces_append hn ht, List.map_cons, hi, ho.trim_behind_space]
      rfl

theorem splitTopLevel_body : splitTopLevel ',' (body pairs) = pairs.map printed := by
  cases pairs with
  | nil => decide
  | cons pair rest =>
    have hl : (List.map printed (pair :: rest)).getLast? ≠ some [] := by
      intro hl
      obtain ⟨p, -, hp⟩ := List.mem_map.1 (List.mem_of_getLast? hl)
      cases hp
    rw [splitTopLevel, map_trim_pieces_body h (List.cons_ne_nil pair rest)]
    exact if_neg hl

theorem split?_block : AttributeBlock.split? (block pairs) = some (values pairs, []) := by
  have hs : splitBlock? (block pairs) = some (block pairs, []) :=
    splitBlock?_eq_some_iff.2 ⟨body pairs, balanced_body h, rfl, (List.append_nil _).symm⟩
  have ht : Text.trimStart (block pairs) = block pairs := Text.trimStart_cons_of_not_blank rfl
  have hb : ((block pairs).drop 1).dropLast = body pairs := List.dropLast_concat
  have hp : ∀ p ∈ pairs, (AttributeBlock.pair? ∘ printed) p = some (p.1, p.2.attrValue) :=
    fun p hm => pair?_printed (h p hm)
  rw [AttributeBlock.split?_eq, ht, hs, Option.map_some, hb, splitTopLevel_body h,
    List.filterMap_map, List.filterMap_congr hp]
  exact congrArg (fun l => some (l, [])) (congrFun List.filterMap_eq_map' pairs)

end

/-- A line that is printed for a tag with a block is read as the tag with the pairs of the block, in
their order and each with its value. -/
theorem ofLine?_block {tag : String} (ht : IsTag tag) {pairs : List BlockPair}
    (h : ∀ pair ∈ pairs, pair.Printable) :
    Directive.ofLine? (line tag pairs) = some (.element (head tag pairs)) ∧
      AttributeBlock.split? (head tag pairs).rest.toList = some (values pairs, []) ∧
      ∀ fallbackTag, OpenElement.ofHead fallbackTag (head tag pairs) =
        ⟨tag, Attributes.mergeAll [] none (values pairs), none, []⟩ := by
  have hs := split?_block h
  refine ⟨?_, ?_, ?_⟩
  · have hl : Text.trim (line tag pairs) = line tag pairs := by
      refine Text.trim_of_ends (t := '%' :: (tag.toList ++ '{' :: body pairs)) (d := '}') ?_ rfl rfl
      simp [block]
    have hb : ∀ c ∈ (block pairs).head?, isModifierChar c = false := by
      intro c hc
      cases hc
      decide +kernel
    rw [Directive.ofLine?, hl]
    change some (Directive.ofTrimmed (line tag pairs)) = _
    rw [line, Directive.ofTrimmed, ElementHead.ofTagged?_tag ht hb]
    rfl
  · rw [head, String.toList_ofList, hs]
  · intro fallbackTag
    have ha : SimpleAttribute.split [] = ([], []) := by
      rw [SimpleAttribute.split]
      rfl
    simp only [head, OpenElement.ofHead, String.toList_ofList, hs, Option.getD_some, ha,
      List.append_nil, inlineContent_nil]
    rfl

/-- A text with signs, quotes and a comma inside of braces, and expressions with braces of their own,
outside and inside of backticks. -/
def nestedPairs : List BlockPair :=
  [("data-x", .literal "a: \"\x7bb, `\x7d`\x7d\" = c"), ("href", .expr "\x7ba: \x7bb: 1\x7d\x7d.a.b"),
    ("title", .expr "raw `\x7d\x7d`, x")]

theorem ofLine?_block_nestedPairs :
    (IsTag "a" ∧ ∀ pair ∈ nestedPairs, pair.Printable) ∧
      Directive.ofLine? (line "a" nestedPairs) = some (.element (head "a" nestedPairs)) ∧
      AttributeBlock.split? (head "a" nestedPairs).rest.toList =
        some (values nestedPairs, []) ∧
      ∀ fallbackTag, OpenElement.ofHead fallbackTag (head "a" nestedPairs) =
        ⟨"a", Attributes.mergeAll [] none (values nestedPairs), none, []⟩ := by
  have ht : IsTag "a" := by decide +kernel
  have hp : ∀ pair ∈ nestedPairs, pair.Printable := by decide +kernel
  exact ⟨⟨ht, hp⟩, ofLine?_block ht hp⟩

end BlockPair

end IndentMarkup
