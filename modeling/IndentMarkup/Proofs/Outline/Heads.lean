import IndentMarkup.Proofs.Outline.Continuations

/-!
# Heads of elements

An element line spells its head: the tag behind a percent sign, the modifiers, each a dot or a hash
with a name behind it, and the rest. The reader first cuts off a run of dots, hashes and characters
of names and then looks for the modifiers in it. The two agree if there is a name behind each dot
and each hash of the run. Otherwise the marks without a name belong to the run, but to no modifier,
and they are lost; everything else is kept.
-/
namespace IndentMarkup

def spelled (marks : List (Char × List Char)) : List Char := marks.flatMap fun m => m.1 :: m.2

@[simp] theorem spelled_nil : spelled [] = [] := rfl

@[simp] theorem spelled_cons (m : Char × List Char) (marks : List (Char × List Char)) :
    spelled (m :: marks) = m.1 :: (m.2 ++ spelled marks) := rfl

def namesBehind (mark : Char) (marks : List (Char × List Char)) : List String :=
  (marks.filter fun m => m.1 = mark).map fun m => String.ofList m.2

def IsMarked (m : Char × List Char) : Prop :=
  (m.1 = '.' ∨ m.1 = '#') ∧ ∀ c ∈ m.2, Text.isName c = true

/-- Behind each dot and each hash of a text stands a name. -/
def MarksNamed (s : List Char) : Prop :=
  ∀ c t, c :: t <:+ s → (c = '.' ∨ c = '#') → t.head?.any Text.isName = true

theorem marksNamed_nil : MarksNamed [] := by
  intro c t h
  cases List.suffix_nil.1 h

theorem marksNamed_cons_iff {c : Char} {s : List Char} :
    MarksNamed (c :: s) ↔
      ((c = '.' ∨ c = '#') → s.head?.any Text.isName = true) ∧ MarksNamed s := by
  constructor
  · intro h
    exact ⟨h c s (List.suffix_refl _), fun d t ht => h d t (ht.trans (List.suffix_cons c s))⟩
  · rintro ⟨hc, hs⟩ d t ht
    rcases List.suffix_cons_iff.1 ht with he | ht
    · cases he
      exact hc
    · exact hs d t ht

instance decidableMarksNamed : (s : List Char) → Decidable (MarksNamed s)
  | [] => isTrue marksNamed_nil
  | _ :: s =>
    have := decidableMarksNamed s
    decidable_of_iff' _ marksNamed_cons_iff

theorem Text.not_mark_of_isName {c : Char} (h : isName c = true) : ¬ (c = '.' ∨ c = '#') := by
  rintro (rfl | rfl) <;> cases h

/-! ### The modifiers of a run -/

theorem modifierNames_cons (c : Char) (s : List Char) :
    modifierNames (c :: s) =
      if c = '.' ∨ c = '#' then ([], (c, (modifierNames s).1) :: (modifierNames s).2)
      else (c :: (modifierNames s).1, (modifierNames s).2) := rfl

theorem isModifierChar_iff {c : Char} :
    isModifierChar c = true ↔ Text.isName c = true ∨ c = '.' ∨ c = '#' := by
  simp [isModifierChar, or_assoc]

theorem append_spelled_modifierNames (run : List Char) :
    (modifierNames run).1 ++ spelled (modifierNames run).2 = run := by
  induction run with
  | nil => rfl
  | cons c s ih =>
    rw [modifierNames_cons]
    split
    · rw [spelled_cons, ih, List.nil_append]
    · rw [List.cons_append, ih]

theorem spelled_modifierNames {run : List Char} (h : ∀ c ∈ run.head?, c = '.' ∨ c = '#') :
    spelled (modifierNames run).2 = run := by
  cases run with
  | nil => rfl
  | cons c s =>
    rw [modifierNames_cons, if_pos (h c rfl), spelled_cons, append_spelled_modifierNames]

/-- A run of dots, hashes and characters of names is made of names behind marks, and of the name
that it begins with. -/
theorem isMarked_modifierNames {run : List Char} (h : ∀ c ∈ run, isModifierChar c = true) :
    (∀ c ∈ (modifierNames run).1, Text.isName c = true) ∧
      ∀ m ∈ (modifierNames run).2, IsMarked m := by
  induction run with
  | nil => exact ⟨nofun, nofun⟩
  | cons c s ih =>
    obtain ⟨hm, hs⟩ := List.forall_mem_cons.1 h
    obtain ⟨hname, hmarked⟩ := ih hs
    rw [modifierNames_cons]
    split
    · next hc => exact ⟨nofun, List.forall_mem_cons.2 ⟨⟨hc, hname⟩, hmarked⟩⟩
    · next hc =>
      have hn := (isModifierChar_iff.1 hm).resolve_right hc
      exact ⟨List.forall_mem_cons.2 ⟨hn, hname⟩, hmarked⟩

theorem marksNamed_name_append {name : List Char} (h : ∀ c ∈ name, Text.isName c = true)
    {s : List Char} : MarksNamed (name ++ s) ↔ MarksNamed s := by
  induction name with
  | nil => rfl
  | cons c name ih =>
    obtain ⟨hc, hname⟩ := List.forall_mem_cons.1 h
    rw [List.cons_append, marksNamed_cons_iff, ih hname]
    exact and_iff_right fun hm => absurd hm (Text.not_mark_of_isName hc)

theorem marksNamed_spelled_iff {marks : List (Char × List Char)} (h : ∀ m ∈ marks, IsMarked m) :
    MarksNamed (spelled marks) ↔ ∀ m ∈ marks, m.2 ≠ [] := by
  induction marks with
  | nil => exact ⟨fun _ => nofun, fun _ => marksNamed_nil⟩
  | cons m marks ih =>
    obtain ⟨⟨hc, hname⟩, hmarks⟩ := List.forall_mem_cons.1 h
    obtain ⟨c, name⟩ := m
    rw [spelled_cons, marksNamed_cons_iff, marksNamed_name_append hname, ih hmarks,
      List.forall_mem_cons, imp_iff_right hc]
    refine and_congr_left fun _ => ?_
    cases name with
    | cons d name =>
      exact iff_of_true (hname d List.mem_cons_self) (List.cons_ne_nil d name)
    | nil =>
      refine iff_of_false ?_ fun hne => hne rfl
      -- Behind a mark without a name stands the next mark, or nothing.
      intro hn
      cases marks with
      | nil => cases hn
      | cons m marks => exact Text.not_mark_of_isName hn (hmarks m List.mem_cons_self).1

namespace ElementHead

def tagText (tag : Option String) : List Char :=
  match tag with
  | none => []
  | some name => '%' :: name.toList

/-- A line is spelled by a head and modifiers: it is the tag of the head, the modifiers and the rest
of the head, and the names of the modifiers are the classes and the identifier of the head. -/
structure Spells (head : ElementHead) (marks : List (Char × List Char)) (line : List Char) :
    Prop where
  line_eq : line = tagText head.tag ++ (spelled marks ++ head.rest.toList)
  isTag : ∀ name ∈ head.tag, IsTag name
  marked : ∀ m ∈ marks, IsMarked m
  named : ∀ m ∈ marks, m.2 ≠ []
  classes : head.classes = namesBehind '.' marks
  id : head.id = (namesBehind '#' marks).getLast?
  tagless : head.tag = none → marks ≠ []

/-- A line that a head spells begins with a mark or a percent sign and a name. -/
theorem Spells.exists_name {head : ElementHead} {marks : List (Char × List Char)} {c : Char}
    {s : List Char} (h : head.Spells marks (c :: s)) :
    (c = '%' ∨ c = '.' ∨ c = '#') ∧ s.head?.any Text.isName = true := by
  have he := h.line_eq
  cases ht : head.tag with
  | some name =>
    obtain ⟨hne, hn⟩ := h.isTag name ht
    obtain ⟨d, t, hd⟩ := List.exists_cons_of_ne_nil hne
    rw [hd] at hn
    rw [ht, tagText, hd] at he
    cases he
    exact ⟨Or.inl rfl, hn d List.mem_cons_self⟩
  | none =>
    obtain ⟨⟨mark, name⟩, marks, rfl⟩ := List.exists_cons_of_ne_nil (h.tagless ht)
    obtain ⟨hc, hn⟩ := h.marked (mark, name) List.mem_cons_self
    obtain ⟨d, t, rfl⟩ := List.exists_cons_of_ne_nil (h.named (mark, name) List.mem_cons_self)
    rw [ht, tagText] at he
    cases he
    exact ⟨Or.inr hc, hn d List.mem_cons_self⟩

/-- The run of dots, hashes and characters of names behind the tag of a line, or at its beginning.
-/
def run (line : List Char) : List Char :=
  match line with
  | '%' :: s => (s.dropWhile Text.isName).takeWhile isModifierChar
  | _ => line.takeWhile isModifierChar

/-- A head that is read from a line. The line is the tag, the run and the rest; a run that is not
empty begins with a dot or a hash. -/
structure Reads (line : List Char) (head : ElementHead) : Prop where
  line_eq : line = tagText head.tag ++ (run line ++ head.rest.toList)
  isTag : ∀ name ∈ head.tag, IsTag name
  run_chars : ∀ c ∈ run line, isModifierChar c = true
  run_start : ∀ c ∈ (run line).head?, c = '.' ∨ c = '#'
  classes : head.classes = modifierClasses (run line)
  id : head.id = modifierId? (run line)
  tagless : head.tag = none → run line ≠ []

theorem reads_ofModifiers {c : Char} (hc : c = '.' ∨ c = '#') (s : List Char) :
    Reads (c :: s) (ofModifiers (c :: s)) := by
  have hm : isModifierChar c = true := by rcases hc with rfl | rfl <;> rfl
  have hr : run (c :: s) = (c :: s).takeWhile isModifierChar := by rcases hc with rfl | rfl <;> rfl
  refine ⟨?_, nofun, ?_, ?_, by rw [hr]; rfl, by rw [hr]; rfl, ?_⟩
  · rw [hr]
    simp [ofModifiers, ofParts, tagText]
  · rw [hr]
    exact List.all_eq_true.1 List.all_takeWhile
  · rw [hr, List.takeWhile_cons_of_pos hm]
    rintro d ⟨⟩
    exact hc
  · rw [hr, List.takeWhile_cons_of_pos hm]
    exact fun _ => List.cons_ne_nil _ _

theorem isTag_takeWhile {s : List Char} (h : s.takeWhile Text.isName ≠ []) :
    IsTag (String.ofList (s.takeWhile Text.isName)) := by
  rw [IsTag, String.toList_ofList]
  exact ⟨h, List.all_eq_true.1 List.all_takeWhile⟩

theorem reads_ofTagged? {s : List Char} {head : ElementHead} (h : ofTagged? s = some head) :
    Reads ('%' :: s) head := by
  unfold ofTagged? at h
  dsimp only at h
  split at h
  · cases h
  · next hne =>
    cases h
    have hr := List.all_eq_true.1
      (List.all_takeWhile (p := isModifierChar) (l := s.dropWhile Text.isName))
    refine ⟨?_, ?_, hr, ?_, rfl, rfl, nofun⟩
    · simp [ofParts, tagText, run]
    · rintro _ ⟨⟩
      exact isTag_takeWhile hne
    · intro c hc
      -- The tag took all characters of names in front of the run, so the run begins with none.
      have hn : Text.isName c = false := by
        rw [run, List.head?_takeWhile] at hc
        have hd := List.head?_dropWhile_not Text.isName s
        rwa [(Option.filter_eq_some_iff.1 hc).1] at hd
      exact (isModifierChar_iff.1 (hr c (List.mem_of_mem_head? hc))).resolve_left (by simp [hn])

variable {line : List Char} {head : ElementHead}

theorem Reads.spelled_eq (h : Reads line head) : spelled (modifierNames (run line)).2 = run line :=
  spelled_modifierNames h.run_start

theorem Reads.marks_ne_nil (h : Reads line head) (ht : head.tag = none) :
    (modifierNames (run line)).2 ≠ [] := by
  intro he
  apply h.tagless ht
  rw [← h.spelled_eq, he, spelled_nil]

/-- The head spells the line if each mark of the run has a name, and only then. -/
theorem Reads.exists_spells_iff (h : Reads line head) :
    (∃ marks, head.Spells marks line) ↔ MarksNamed (run line) := by
  have hmarked := (isMarked_modifierNames h.run_chars).2
  constructor
  · rintro ⟨marks, hs⟩
    have he : spelled marks = run line :=
      List.append_cancel_right (List.append_cancel_left (hs.line_eq.symm.trans h.line_eq))
    rw [← he, marksNamed_spelled_iff hs.marked]
    exact hs.named
  · intro hn
    rw [← h.spelled_eq, marksNamed_spelled_iff hmarked] at hn
    have hm : modifiers (run line) = (modifierNames (run line)).2 := by
      rw [modifiers, List.filter_eq_self]
      simpa using hn
    refine ⟨(modifierNames (run line)).2, ?_, h.isTag, hmarked, hn, ?_, ?_, h.marks_ne_nil⟩
    · rw [h.spelled_eq]
      exact h.line_eq
    · rw [h.classes, modifierClasses, hm, namesBehind]
    · rw [h.id, modifierId?, hm, namesBehind]

/-- Every character of the line is in the head or in the marks, those without a name included. -/
theorem Reads.exists_marks (h : Reads line head) :
    ∃ marks, line = tagText head.tag ++ (spelled marks ++ head.rest.toList) ∧
      (∀ name ∈ head.tag, IsTag name) ∧ (∀ m ∈ marks, IsMarked m) ∧
      (head.tag = none → marks ≠ []) ∧
      head.classes = namesBehind '.' (marks.filter fun m => m.2 ≠ []) ∧
      head.id = (namesBehind '#' (marks.filter fun m => m.2 ≠ [])).getLast? := by
  refine ⟨(modifierNames (run line)).2, ?_, h.isTag, (isMarked_modifierNames h.run_chars).2,
    h.marks_ne_nil, h.classes, h.id⟩
  rw [h.spelled_eq]
  exact h.line_eq

theorem isSome_ofTagged? (s : List Char) : (ofTagged? s).isSome = s.head?.any Text.isName := by
  cases s with
  | nil => rfl
  | cons c s =>
    rw [ofTagged?]
    by_cases hc : Text.isName c = true
    · simp [List.takeWhile_cons_of_pos hc, hc]
    · simp [List.takeWhile_cons_of_neg hc, hc]

/-- The tag alone already spells a line, with everything behind it as the rest. -/
theorem exists_spells_percent_iff {s : List Char} :
    (∃ head marks, Spells head marks ('%' :: s)) ↔ (ofTagged? s).isSome = true := by
  constructor
  · rintro ⟨head, marks, h⟩
    rw [isSome_ofTagged?]
    exact h.exists_name.2
  · intro h
    have hne : s.takeWhile Text.isName ≠ [] := by
      intro he
      simp [ofTagged?, he] at h
    refine ⟨⟨some (String.ofList (s.takeWhile Text.isName)), [], none,
      String.ofList (s.dropWhile Text.isName)⟩, [], by simp [tagText], ?_, List.forall_mem_nil _,
      List.forall_mem_nil _, rfl, rfl, fun ht => absurd ht (Option.some_ne_none _)⟩
    rintro _ ⟨⟩
    exact isTag_takeWhile hne

end ElementHead

namespace Directive

theorem reads_of_ofTrimmed {line : List Char} {head : ElementHead}
    (h : ofTrimmed line = .element head) : ElementHead.Reads line head := by
  unfold ofTrimmed at h
  split at h
  · cases h
  · exact (ofControl_ne_element _ _ h).elim
  · cases h
    exact ElementHead.reads_ofModifiers (Or.inl rfl) _
  · cases h
    exact ElementHead.reads_ofModifiers (Or.inr rfl) _
  · split at h
    · next hh =>
      cases h
      exact ElementHead.reads_ofTagged? hh
    · exact (ofPlain_ne_element _ _ h).elim
  · exact (ofPlain_ne_element _ _ h).elim

/-- A line that begins with a percent sign is an element if a head spells it, and text if not. -/
theorem ofTrimmed_percent (s : List Char) :
    ((∃ head marks, ElementHead.Spells head marks ('%' :: s)) →
      ∃ head, ofTrimmed ('%' :: s) = .element head) ∧
    ((¬ ∃ head marks, ElementHead.Spells head marks ('%' :: s)) →
      ofTrimmed ('%' :: s) = .text (Segment.ofText ('%' :: s))) := by
  rw [ElementHead.exists_spells_percent_iff, ofTrimmed]
  cases ElementHead.ofTagged? s with
  | none => exact ⟨fun h => absurd h Bool.false_ne_true, fun _ => rfl⟩
  | some head => exact ⟨fun _ => ⟨head, rfl⟩, fun h => (h rfl).elim⟩

theorem ofTrimmed_mark {c : Char} (hc : c = '.' ∨ c = '#') (s : List Char) :
    ofTrimmed (c :: s) = .element (ElementHead.ofModifiers (c :: s)) := by
  rcases hc with rfl | rfl <;> rfl

/-- An element line is spelled by its head exactly if there is a name behind each dot and each hash
of its run. The other marks are the only characters that are lost: the line is the tag, marks with
names that may be missing, and the rest, and the names that are not missing are the classes and the
identifier. Of the lines that begin like an element, those that a head spells are elements; the
others are text exactly if they begin with a percent sign. -/
theorem ofLine?_spells (line : List Char) :
    (∀ head, ofLine? line = some (.element head) →
      ((∃ marks, head.Spells marks (Text.trim line)) ↔
        MarksNamed (ElementHead.run (Text.trim line))) ∧
      ∃ marks,
        Text.trim line = ElementHead.tagText head.tag ++ (spelled marks ++ head.rest.toList) ∧
        (∀ name ∈ head.tag, IsTag name) ∧ (∀ m ∈ marks, IsMarked m) ∧
        (head.tag = none → marks ≠ []) ∧
        head.classes = namesBehind '.' (marks.filter fun m => m.2 ≠ []) ∧
        head.id = (namesBehind '#' (marks.filter fun m => m.2 ≠ [])).getLast?) ∧
    ∀ c s, Text.trim line = c :: s → (c = '%' ∨ c = '.' ∨ c = '#') →
      ((∃ head marks, ElementHead.Spells head marks (c :: s)) →
        ∃ head, ofLine? line = some (.element head)) ∧
      ((¬ ∃ head marks, ElementHead.Spells head marks (c :: s)) →
        (ofLine? line = some (.text (Segment.ofText (c :: s))) ↔ c = '%')) := by
  constructor
  · intro head h
    have hr := reads_of_ofTrimmed (ofLine?_eq_some h).2
    exact ⟨hr.exists_spells_iff, hr.exists_marks⟩
  · intro c s ht hc
    have hl : ofLine? line = some (ofTrimmed (c :: s)) := by
      rw [ofLine?, ht]
      rfl
    rw [hl]
    rcases hc with rfl | hc
    · obtain ⟨helement, htext⟩ := ofTrimmed_percent s
      refine ⟨fun h => ?_, fun h => iff_of_true (congrArg some (htext h)) rfl⟩
      obtain ⟨head, he⟩ := helement h
      exact ⟨head, congrArg some he⟩
    · rw [ofTrimmed_mark hc]
      have hne : c ≠ '%' := by rcases hc with rfl | rfl <;> decide
      exact ⟨fun _ => ⟨_, rfl⟩, fun _ => iff_of_false (by simp) hne⟩

theorem ofLine?_spells_named :
    (ofLine? "%p.a-b#c.d e".toList = some (.element ⟨some "p", ["a-b", "d"], some "c", " e"⟩) ∧
      MarksNamed (ElementHead.run (Text.trim "%p.a-b#c.d e".toList)) ∧
      ∃ marks, ElementHead.Spells ⟨some "p", ["a-b", "d"], some "c", " e"⟩ marks
        (Text.trim "%p.a-b#c.d e".toList)) ∧
    Text.trim "% off".toList = ['%', ' ', 'o', 'f', 'f'] ∧
      (¬ ∃ head marks, ElementHead.Spells head marks ['%', ' ', 'o', 'f', 'f']) ∧
      ofLine? "% off".toList = some (.text (Segment.ofText ['%', ' ', 'o', 'f', 'f'])) := by
  have he : ofLine? "%p.a-b#c.d e".toList =
      some (.element ⟨some "p", ["a-b", "d"], some "c", " e"⟩) := by decide +kernel
  have hm : MarksNamed (ElementHead.run (Text.trim "%p.a-b#c.d e".toList)) := by
    decide +kernel
  have ht : Text.trim "% off".toList = ['%', ' ', 'o', 'f', 'f'] := by decide +kernel
  have hn : ¬ ∃ head marks, ElementHead.Spells head marks ['%', ' ', 'o', 'f', 'f'] := by
    rintro ⟨head, marks, h⟩
    exact absurd h.exists_name.2 (by decide)
  exact ⟨⟨he, hm, ((ofLine?_spells _).1 _ he).1.2 hm⟩, ht, hn,
    (((ofLine?_spells _).2 _ _ ht (Or.inl rfl)).2 hn).2 rfl⟩

/-- The hash makes the line an element, but it is in no part of its head. -/
theorem ofLine?_nameless :
    ofLine? "# heading".toList = some (.element ⟨none, [], none, " heading"⟩) ∧
      ¬ ∃ head marks, ElementHead.Spells head marks (Text.trim "# heading".toList) := by
  refine ⟨by decide +kernel, ?_⟩
  have ht : Text.trim "# heading".toList = '#' :: " heading".toList := by decide +kernel
  rw [ht]
  rintro ⟨head, marks, h⟩
  exact absurd h.exists_name.2 (by decide)

end Directive

end IndentMarkup
