import IndentMarkup.Html
import IndentMarkup.Text.Start
import Mathlib.Data.List.Basic

/-!
# Escaped texts

Of the reserved characters, an escaped text holds ampersands only, and each of them begins an
entity. So an escaped text can stand in content and between quotes of either kind. Nothing is lost:
one pass from left to right that puts a character in the place of every entity gives back what was
escaped, although this may look like an entity itself.
-/
namespace IndentMarkup.Html

/-- The entities, each behind the character that it stands for. -/
def entities : List (Char × String) :=
  [('&', "&amp;"), ('<', "&lt;"), ('>', "&gt;"), ('"', "&quot;"), ('\x27', "&#39;")]

/-- The characters that are not written as they are. -/
def reserved : List Char := entities.map Prod.fst

def entity? (s : List Char) : Option (Char × List Char) :=
  entities.findSome? fun p => (Text.dropStart? p.2.toList s).map fun r => (p.1, r)

theorem length_entity? {s r : List Char} {c : Char} (h : entity? s = some (c, r)) :
    r.length < s.length := by
  have hpos : ∀ p ∈ entities, 0 < p.2.toList.length := by decide
  obtain ⟨p, hp, hd⟩ := List.exists_of_findSome?_eq_some h
  obtain ⟨r', hr, e⟩ := Option.map_eq_some_iff.1 hd
  cases e
  rw [Text.dropStart?_eq_some_iff.1 hr, List.length_append]
  exact Nat.lt_add_of_pos_left (hpos p hp)

/-- The text with its entities replaced by their characters, in one pass. Ampersands that begin no
entity stand for themselves. -/
def unescapeChars (s : List Char) : List Char :=
  match s with
  | [] => []
  | c :: r =>
    match _h : entity? (c :: r) with
    | some (d, rest) => d :: unescapeChars rest
    | none => c :: unescapeChars r
termination_by s.length
decreasing_by
  · exact length_entity? _h
  · exact Nat.lt_succ_self _

def unescape (s : String) : String := String.ofList (unescapeChars s.toList)

/-! ### One character -/

/-- An entity is an ampersand and something behind it that holds no reserved character. -/
theorem exists_of_mem_entities {p : Char × String} (hp : p ∈ entities) :
    ∃ name, p.2.toList = '&' :: name ∧ name ≠ [] ∧ ∀ c ∈ name, c ∉ reserved := by
  have h : ∀ p ∈ entities, p.2.toList.head? = some '&' ∧ p.2.toList.tail ≠ [] ∧
      p.2.toList.tail.all (· ∉ reserved) = true := by decide
  obtain ⟨hhead, hne, hname⟩ := h p hp
  refine ⟨_, (List.cons_head?_tail hhead).symm, hne, fun c hc => ?_⟩
  exact of_decide_eq_true (List.all_eq_true.1 hname c hc)

theorem amp_mem_reserved : '&' ∈ reserved := by decide

/-- A character is written as its entity, or it is not reserved and stands for itself. -/
theorem escapeChar_cases (c : Char) :
    (∃ p ∈ entities, p.1 = c ∧ escapeChar c = p.2.toList) ∨
      c ∉ reserved ∧ escapeChar c = [c] := by
  have hentity : ∀ p ∈ entities, escapeChar p.1 = p.2.toList := by decide
  by_cases h : c ∈ reserved
  · obtain ⟨p, hp, rfl⟩ := List.mem_map.1 h
    exact .inl ⟨p, hp, rfl, hentity p hp⟩
  · refine .inr ⟨h, ?_⟩
    simp only [reserved, entities, List.map_cons, List.map_nil, List.mem_cons, List.not_mem_nil,
      or_false, not_or] at h
    obtain ⟨hamp, hl, hr, hquote, hapos⟩ := h
    rw [escapeChar, if_neg hamp, if_neg hl, if_neg hr, if_neg hquote, if_neg hapos]

theorem eq_amp_of_mem_escapeChar {c d : Char} (hd : d ∈ escapeChar c) (hr : d ∈ reserved) :
    d = '&' := by
  rcases escapeChar_cases c with ⟨p, hp, -, he⟩ | ⟨hc, he⟩
  · obtain ⟨name, hn, -, hname⟩ := exists_of_mem_entities hp
    rw [he, hn] at hd
    exact (List.mem_cons.1 hd).resolve_right fun hm => hname d hm hr
  · rw [he, List.mem_singleton] at hd
    exact (hc (hd ▸ hr)).elim

/-- An ampersand in the written form of a character is the first of its entity. -/
theorem exists_entity_of_escapeChar {c : Char} {before after : List Char}
    (h : escapeChar c = before ++ '&' :: after) :
    ∃ p ∈ entities, p.2.toList = '&' :: after := by
  rcases escapeChar_cases c with ⟨p, hp, -, he⟩ | ⟨hc, he⟩
  · obtain ⟨name, hn, -, hname⟩ := exists_of_mem_entities hp
    rw [he] at h
    cases before with
    | nil => exact ⟨p, hp, h⟩
    | cons b before =>
      rw [hn] at h
      cases h
      exact (hname '&' (by simp) amp_mem_reserved).elim
  · have hamp : '&' ∈ escapeChar c := by simp [h]
    rw [he, List.mem_singleton] at hamp
    exact (hc (hamp ▸ amp_mem_reserved)).elim

theorem entity?_append {p : Char × String} (hp : p ∈ entities) (s : List Char) :
    entity? (p.2.toList ++ s) = some (p.1, s) := by
  simp only [entities, List.mem_cons, List.not_mem_nil, or_false] at hp
  rcases hp with rfl | rfl | rfl | rfl | rfl <;> rfl

theorem entity?_eq_none {c : Char} (hc : c ≠ '&') (s : List Char) : entity? (c :: s) = none := by
  rw [entity?, List.findSome?_eq_none_iff]
  intro p hp
  obtain ⟨name, hn, -, -⟩ := exists_of_mem_entities hp
  rw [hn, Text.dropStart?, if_neg (Ne.symm hc), Option.map_none]

theorem unescapeChars_of_entity? {s r : List Char} {c : Char} (h : entity? s = some (c, r)) :
    unescapeChars s = c :: unescapeChars r := by
  cases s with
  | nil => cases h
  | cons d s =>
    rw [unescapeChars]
    split
    · next h' =>
      rw [h] at h'
      cases h'
      rfl
    · next h' =>
      rw [h] at h'
      cases h'

theorem unescapeChars_cons {c : Char} {s : List Char} (h : entity? (c :: s) = none) :
    unescapeChars (c :: s) = c :: unescapeChars s := by
  rw [unescapeChars]
  split
  · next h' =>
    rw [h] at h'
    cases h'
  · rfl

/-- A written character is replaced by what it was written for, whatever follows it. -/
theorem unescapeChars_escapeChar (c : Char) (s : List Char) :
    unescapeChars (escapeChar c ++ s) = c :: unescapeChars s := by
  rcases escapeChar_cases c with ⟨p, hp, rfl, he⟩ | ⟨hc, he⟩
  · rw [he]
    exact unescapeChars_of_entity? (entity?_append hp s)
  · have hamp : c ≠ '&' := fun e => hc (e ▸ amp_mem_reserved)
    rw [he]
    exact unescapeChars_cons (entity?_eq_none hamp s)

/-! ### Whole texts -/

theorem eq_amp_of_mem_escapeChars {s : List Char} {d : Char} (hd : d ∈ escapeChars s)
    (hr : d ∈ reserved) : d = '&' := by
  obtain ⟨c, -, hc⟩ := List.mem_flatMap.1 hd
  exact eq_amp_of_mem_escapeChar hc hr

/-- Wherever an ampersand stands in an escaped text, an entity begins. -/
theorem exists_entity_of_escapeChars {s before after : List Char}
    (h : escapeChars s = before ++ '&' :: after) :
    ∃ p ∈ entities, p.2.toList <+: '&' :: after := by
  induction s generalizing before with
  | nil => simp at h
  | cons c s ih =>
    rw [escapeChars_cons] at h
    rcases List.append_eq_append_iff.1 h with ⟨q, -, hr⟩ | ⟨q, hq, hr⟩
    · exact ih hr
    · cases q with
      | nil => exact @ih [] hr.symm
      | cons d q =>
        -- the ampersand belongs to the written form of `c`
        cases hr
        obtain ⟨p, hp, he⟩ := exists_entity_of_escapeChar hq
        exact ⟨p, hp, he ▸ List.prefix_append _ (escapeChars s)⟩

theorem unescapeChars_escapeChars (s : List Char) : unescapeChars (escapeChars s) = s := by
  induction s with
  | nil => rw [escapeChars_nil, unescapeChars]
  | cons c s ih => rw [escapeChars_cons, unescapeChars_escapeChar, ih]

theorem length_le_escapeChars (s : List Char) : s.length ≤ (escapeChars s).length := by
  induction s with
  | nil => exact Nat.zero_le _
  | cons c s ih =>
    have hc : 1 ≤ (escapeChar c).length := by
      rcases escapeChar_cases c with ⟨p, hp, -, he⟩ | ⟨-, he⟩
      · obtain ⟨name, hn, -, -⟩ := exists_of_mem_entities hp
        simp [he, hn]
      · simp [he]
    rw [escapeChars_cons, List.length_append, List.length_cons]
    omega

/-- A text is written as it is exactly if it holds no reserved character. -/
theorem escapeChars_eq_self_iff {s : List Char} :
    escapeChars s = s ↔ ∀ c ∈ s, c ∉ reserved := by
  induction s with
  | nil => simp
  | cons c s ih =>
    rw [escapeChars_cons, List.forall_mem_cons, ← ih]
    rcases escapeChar_cases c with ⟨p, hp, rfl, he⟩ | ⟨hc, he⟩
    · obtain ⟨name, hn, hne, -⟩ := exists_of_mem_entities hp
      have hmem : p.1 ∈ reserved := List.mem_map_of_mem hp
      refine iff_of_false (fun h => ?_) fun h => h.1 hmem
      -- an entity is longer than its character, and what follows is no shorter than it was
      have hlen := congrArg List.length h
      have hpos := List.length_pos_iff.2 hne
      have hle := length_le_escapeChars s
      rw [he, hn, List.length_append, List.length_cons, List.length_cons] at hlen
      omega
    · rw [he, List.singleton_append, List.cons_inj_right]
      exact (and_iff_right hc).symm

/-- An escaped text holds no reserved character but ampersands, each of which begins an entity; it
stands for the text that was escaped, and for no other; and it is this text itself exactly if there
was nothing to escape. -/
theorem escape_lossless (t : String) :
    (∀ c ∈ ['<', '>', '"', '\x27'], c ∉ (escape t).toList) ∧
    (∀ before after, (escape t).toList = before ++ '&' :: after →
      ∃ p ∈ entities, p.2.toList <+: '&' :: after) ∧
    unescape (escape t) = t ∧
    (∀ u, escape u = escape t → u = t) ∧
    (escape t = t ↔ ∀ c ∈ ['&', '<', '>', '"', '\x27'], c ∉ t.toList) := by
  have hback : ∀ u, unescape (escape u) = u := by
    intro u
    rw [unescape, toList_escape, unescapeChars_escapeChars, String.ofList_toList]
  refine ⟨fun c hc hm => ?_, fun before after h => ?_, hback t, fun u h => ?_, ?_⟩
  · rw [toList_escape] at hm
    have hr : c ∈ reserved := List.mem_cons_of_mem '&' hc
    rw [eq_amp_of_mem_escapeChars hm hr] at hc
    revert hc
    decide
  · rw [toList_escape] at h
    exact exists_entity_of_escapeChars h
  · rw [← hback u, h, hback t]
  · rw [← String.toList_inj, toList_escape, escapeChars_eq_self_iff]
    exact ⟨fun h c hc hm => h c hm hc, fun h c hm hc => h c hc hm⟩

/-- What looks like an entity, whole or cut short, is escaped like anything else. -/
theorem escape_lossless_entityLike :
    escape "&lt;b&gt; &am" = "&amp;lt;b&amp;gt; &amp;am" ∧
      unescape "&amp;lt;b&amp;gt; &amp;am" = "&lt;b&gt; &am" ∧
      ∃ p ∈ entities, p.2.toList <+: "&amp;am".toList := by
  have h : escape "&lt;b&gt; &am" = "&amp;lt;b&amp;gt; &amp;am" := by decide
  obtain ⟨-, hamp, hback, -, -⟩ := escape_lossless "&lt;b&gt; &am"
  rw [h] at hback hamp
  exact ⟨h, hback, hamp "&amp;lt;b&amp;gt; ".toList "amp;am".toList (by decide)⟩

end IndentMarkup.Html
