import IndentMarkup.Line.Nesting
import IndentMarkup.Proofs.Source.Trimming
import Mathlib.Data.List.Infix

/-!
# Balanced texts

A text is balanced if a scan of it from the top level ends there and no brace closes what the text
did not open. A block is a balanced text between braces, and the segments between its commas at the
top level are balanced again. Behind an opening brace a scan goes through the same states as from
the top level, only one brace deeper, and blanks change no state. So the scan of a block, the scan
of its body for commas and the scan of each trimmed piece of the body for a separator agree on which
characters stand at the top level.
-/
namespace IndentMarkup

namespace Nesting

/-- The state inside one more pair of braces. -/
def inside (n : Nesting) : Nesting := ⟨n.depth + 1, n.quoted⟩

theorem inside_inj {n m : Nesting} : n.inside = m.inside ↔ n = m := by
  obtain ⟨depth, quoted⟩ := n
  obtain ⟨depth', quoted'⟩ := m
  simp [inside]

theorem step_inside (n : Nesting) (c : Char) : n.inside.step c = (n.step c).inside := by
  unfold step inside
  split_ifs <;> simp only [mk.injEq, and_true]
  omega

theorem run_inside (n : Nesting) (s : List Char) : n.inside.run s = (n.run s).inside := by
  induction s generalizing n with
  | nil => rfl
  | cons c s ih => rw [run_cons, run_cons, step_inside, ih]

theorem trace_inside (n : Nesting) (s : List Char) :
    n.inside.trace s = (n.trace s).map inside := by
  induction s generalizing n with
  | nil => rfl
  | cons c s ih => rw [trace, trace, step_inside, ih, List.map_cons]

theorem run_append (n : Nesting) (s t : List Char) : n.run (s ++ t) = (n.run s).run t :=
  List.foldl_append

theorem trace_append (n : Nesting) (s t : List Char) :
    n.trace (s ++ t) = n.trace s ++ (n.run s).trace t := by
  induction s generalizing n with
  | nil => rfl
  | cons c s ih => rw [List.cons_append, trace, trace, ih, run_cons, List.cons_append]

theorem atTop_iff (n : Nesting) : n.atTop = true ↔ n = start := by
  obtain ⟨depth, quoted⟩ := n
  simp [atTop, start]

theorem atTop_eq_false_of_one_le {n : Nesting} (h : 1 ≤ n.depth) : n.atTop = false := by
  have hd : n.depth ≠ 0 := by omega
  simp [atTop, hd]

/-- One character moves the depth by at most one. -/
theorem natAbs_depth_step_le (n : Nesting) (c : Char) :
    (n.step c).depth.natAbs ≤ n.depth.natAbs + 1 := by
  unfold step
  split_ifs <;> grind

theorem natAbs_depth_run_le (n : Nesting) (s : List Char) :
    (n.run s).depth.natAbs ≤ n.depth.natAbs + s.length := by
  induction s generalizing n with
  | nil => exact Nat.le_refl _
  | cons c s ih =>
    have hs := natAbs_depth_step_le n c
    have hr := ih (n.step c)
    rw [run_cons, List.length_cons]
    omega

/-- A text of less than `2 ^ 31` characters never leads out of the range of 32-bit integers. -/
theorem depth_run_bounds {s : List Char} (h : s.length < 0x80000000) :
    -0x80000000 ≤ (start.run s).depth ∧ (start.run s).depth < 0x80000000 := by
  have hd : (start.run s).depth.natAbs ≤ 0 + s.length := natAbs_depth_run_le start s
  omega

/-! ### Characters that change no state -/

def isPlain (c : Char) : Bool := c != '\x60' && c != '{' && c != '}'

theorem step_of_isPlain {c : Char} (h : isPlain c = true) (n : Nesting) : n.step c = n := by
  simp only [isPlain, Bool.and_eq_true, bne_iff_ne] at h
  simp [step, h]

theorem run_of_isPlain {s : List Char} (h : ∀ c ∈ s, isPlain c = true) (n : Nesting) :
    n.run s = n := by
  induction s with
  | nil => rfl
  | cons c s ih =>
    rw [run_cons, step_of_isPlain (h c List.mem_cons_self),
      ih fun d hd => h d (List.mem_cons_of_mem c hd)]

theorem trace_of_isPlain {s : List Char} (h : ∀ c ∈ s, isPlain c = true) (n : Nesting) :
    ∀ m ∈ n.trace s, m = n := by
  induction s with
  | nil => exact fun m hm => (List.not_mem_nil hm).elim
  | cons c s ih =>
    rw [trace, step_of_isPlain (h c List.mem_cons_self)]
    exact List.forall_mem_cons.2 ⟨rfl, ih fun d hd => h d (List.mem_cons_of_mem c hd)⟩

theorem isPlain_of_isBlank {c : Char} (h : Text.isBlank c = true) : isPlain c = true := by
  have hp := Text.eq_false_of_isBlank (p := fun c => !isPlain c) (by decide) h
  simpa using hp

/-! ### Balanced texts -/

/-- A text that leads from the top level back to it and closes no brace that it did not open. -/
structure Balanced (s : List Char) : Prop where
  run_eq : start.run s = start
  depth_nonneg : ∀ n ∈ start.trace s, 0 ≤ n.depth

instance (s : List Char) : Decidable (Balanced s) :=
  decidable_of_iff (start.run s = start ∧ ∀ n ∈ start.trace s, 0 ≤ n.depth)
    ⟨fun h => ⟨h.1, h.2⟩, fun h => ⟨h.run_eq, h.depth_nonneg⟩⟩

theorem balanced_of_isPlain {s : List Char} (h : ∀ c ∈ s, isPlain c = true) : Balanced s where
  run_eq := run_of_isPlain h start
  depth_nonneg := by
    intro n hn
    rw [trace_of_isPlain h start n hn]
    exact Int.le_refl 0

theorem balanced_nil : Balanced [] := balanced_of_isPlain fun _ hc => (List.not_mem_nil hc).elim

theorem balanced_singleton {c : Char} (h : isPlain c = true) : Balanced [c] :=
  balanced_of_isPlain (List.forall_mem_singleton.2 h)

theorem balanced_append_iff {s t : List Char} (h : start.run s = start) :
    Balanced (s ++ t) ↔ Balanced s ∧ Balanced t := by
  have ht := trace_append start s t
  have hr := run_append start s t
  rw [h] at ht hr
  constructor
  · rintro ⟨hrun, hd⟩
    rw [ht, List.forall_mem_append] at hd
    exact ⟨⟨h, hd.1⟩, ⟨hr ▸ hrun, hd.2⟩⟩
  · rintro ⟨hs, htb⟩
    refine ⟨hr.trans htb.run_eq, ?_⟩
    rw [ht]
    exact List.forall_mem_append.2 ⟨hs.depth_nonneg, htb.depth_nonneg⟩

/-- Behind an opening brace, a balanced text keeps at least this brace open and leads back to it. -/
theorem balanced_iff_inside {s : List Char} : Balanced s ↔
    start.inside.run s = start.inside ∧ ∀ m ∈ start.inside.trace s, 1 ≤ m.depth := by
  rw [run_inside, trace_inside, List.forall_mem_map, inside_inj]
  constructor
  · exact fun h => ⟨h.run_eq, fun n hn => Int.add_le_add_right (h.depth_nonneg n hn) 1⟩
  · exact fun h => ⟨h.1, fun n hn => Int.le_of_add_le_add_right (h.2 n hn)⟩

theorem Balanced.append {s t : List Char} (hs : Balanced s) (ht : Balanced t) :
    Balanced (s ++ t) := (balanced_append_iff hs.run_eq).2 ⟨hs, ht⟩

theorem Balanced.flatMap {α : Type} {f : α → List Char} {xs : List α}
    (h : ∀ x ∈ xs, Balanced (f x)) : Balanced (xs.flatMap f) := by
  induction xs with
  | nil => exact balanced_nil
  | cons x xs ih =>
    exact (h x List.mem_cons_self).append (ih fun y hy => h y (List.mem_cons_of_mem x hy))

theorem Balanced.braces {s : List Char} (h : Balanced s) : Balanced ('{' :: (s ++ ['}'])) := by
  obtain ⟨hr, hd⟩ := balanced_iff_inside.1 h
  constructor
  · change start.inside.run (s ++ ['}']) = start
    rw [run_append, hr]
    rfl
  · change ∀ n ∈ start.inside :: start.inside.trace (s ++ ['}']), 0 ≤ n.depth
    rw [trace_append, hr, List.forall_mem_cons, List.forall_mem_append]
    refine ⟨by decide, fun n hn => ?_, by decide⟩
    exact Int.le_trans (by decide) (hd n hn)

/-! ### Blocks -/

/-- A block is cut behind the brace that closes it, if the text before it closes nothing else. -/
theorem cutBlock?_of_depth {n : Nesting} {s : List Char} (hr : n.run s = start.inside)
    (hd : ∀ m ∈ n.trace s, 1 ≤ m.depth) (r : List Char) :
    n.cutBlock? (s ++ '}' :: r) = some (s ++ ['}'], r) := by
  induction s generalizing n with
  | nil =>
    rw [run_nil] at hr
    subst hr
    rw [List.nil_append, cutBlock?]
    rfl
  | cons c s ih =>
    rw [trace, List.forall_mem_cons] at hd
    have hi := ih hr hd.2
    rw [List.cons_append, cutBlock?, if_neg (by simp [atTop_eq_false_of_one_le hd.1]), hi]
    rfl

theorem eq_inside_of_step {n : Nesting} (h : (n.step '}').atTop = true) : n = start.inside := by
  obtain ⟨depth, quoted⟩ := n
  rw [atTop_iff] at h
  cases quoted with
  | true => cases h
  | false =>
    have hd : depth - 1 = 0 := congrArg Nesting.depth h
    rw [show depth = 1 by omega]
    rfl

/-- A brace that closes no block leaves at least one of the open ones open. -/
theorem one_le_depth_step {n : Nesting} {c : Char} (hn : 1 ≤ n.depth)
    (h : ¬ (c = '}' ∧ (n.step c).atTop = true)) : 1 ≤ (n.step c).depth := by
  by_cases hc : c = '}'
  · subst hc
    cases hq : n.quoted with
    | true => simpa [step, hq] using hn
    | false =>
      have hd : n.depth - 1 ≠ 0 := by simpa [step, atTop, hq] using h
      have hs : n.step '}' = ⟨n.depth - 1, false⟩ := by simp [step, hq]
      rw [hs]
      change 1 ≤ n.depth - 1
      omega
  · unfold step
    split_ifs
    · exact hn
    · exact hn
    · exact Int.le_add_one hn
    · exact hn

/-- What a cut block is made of. -/
theorem exists_of_cutBlock? {n : Nesting} {t b r : List Char} (hn : 1 ≤ n.depth)
    (h : n.cutBlock? t = some (b, r)) :
    ∃ s, b = s ++ ['}'] ∧ n.run s = start.inside ∧ ∀ m ∈ n.trace s, 1 ≤ m.depth := by
  induction t generalizing n b with
  | nil => cases h
  | cons c t ih =>
    rw [cutBlock?] at h
    split at h
    · next hc =>
      cases h
      obtain ⟨rfl, ht⟩ := hc
      exact ⟨[], rfl, eq_inside_of_step ht, fun m hm => (List.not_mem_nil hm).elim⟩
    · next hc =>
      obtain ⟨⟨b', r'⟩, hp, e⟩ := Option.map_eq_some_iff.1 h
      cases e
      have hs := one_le_depth_step hn hc
      obtain ⟨s, rfl, hr, hd⟩ := ih hs hp
      exact ⟨c :: s, rfl, hr, List.forall_mem_cons.2 ⟨hs, hd⟩⟩

/-! ### Marks at the top level -/

/-- No character of a kind stands at the top level of a text that is read from a state. -/
def NoneAtTop (isMark : Char → Bool) (n : Nesting) (s : List Char) : Prop :=
  ∀ a c b, s = a ++ c :: b → isMark c = true → (n.run (a ++ [c])).atTop = false

section

variable {isMark : Char → Bool} {n : Nesting}

theorem noneAtTop_nil : NoneAtTop isMark n [] := by
  intro a c b he
  simp at he

theorem noneAtTop_cons {c : Char} {s : List Char} : NoneAtTop isMark n (c :: s) ↔
    (isMark c = true → (n.step c).atTop = false) ∧ NoneAtTop isMark (n.step c) s := by
  constructor
  · intro h
    exact ⟨h [] c s rfl, fun a d b he => h (c :: a) d b (congrArg (c :: ·) he)⟩
  · rintro ⟨hc, hs⟩ (_ | ⟨d, a⟩) e b he
    · cases he
      exact hc
    · cases he
      exact hs a e b rfl

theorem noneAtTop_of_forall {s : List Char} (h : ∀ c ∈ s, isMark c = false) :
    NoneAtTop isMark n s := by
  rintro a c b rfl hc
  rw [h c (List.mem_append_right a List.mem_cons_self)] at hc
  cases hc

theorem noneAtTop_singleton {c : Char} (h : isMark c = false) : NoneAtTop isMark n [c] :=
  noneAtTop_of_forall (List.forall_mem_singleton.2 h)

theorem noneAtTop_append {s t : List Char} : NoneAtTop isMark n (s ++ t) ↔
    NoneAtTop isMark n s ∧ NoneAtTop isMark (n.run s) t := by
  induction s generalizing n with
  | nil => exact ⟨fun h => ⟨noneAtTop_nil, h⟩, fun h => h.2⟩
  | cons c s ih => rw [List.cons_append, noneAtTop_cons, noneAtTop_cons, ih, run_cons, and_assoc]

theorem noneAtTop_of_depth {s : List Char} (h : ∀ m ∈ n.trace s, 1 ≤ m.depth) :
    NoneAtTop isMark n s := by
  induction s generalizing n with
  | nil => exact noneAtTop_nil
  | cons c s ih =>
    rw [trace, List.forall_mem_cons] at h
    exact noneAtTop_cons.2 ⟨fun _ => atTop_eq_false_of_one_le h.1, ih h.2⟩

/-- Inside braces that a balanced text does not close nothing stands at the top level. -/
theorem noneAtTop_braces (hm : isMark '}' = false) {s : List Char} (h : Balanced s) :
    NoneAtTop isMark start ('{' :: (s ++ ['}'])) := by
  have hd : NoneAtTop isMark start.inside s := noneAtTop_of_depth (balanced_iff_inside.1 h).2
  exact noneAtTop_cons.2 ⟨fun _ => rfl, noneAtTop_append.2 ⟨hd, noneAtTop_singleton hm⟩⟩

theorem cutAt?_eq_none_iff {s : List Char} :
    n.cutAt? isMark s = none ↔ NoneAtTop isMark n s := by
  induction s generalizing n with
  | nil =>
    exact ⟨fun _ => noneAtTop_nil, fun _ => rfl⟩
  | cons c s ih =>
    rw [cutAt?, noneAtTop_cons, ← ih]
    split
    · next hc => simp [hc]
    · next hc =>
      rw [Option.map_eq_none_iff]
      exact ⟨fun h => ⟨fun hm => by simpa [hm] using hc, h⟩, fun h => h.2⟩

instance (isMark : Char → Bool) (n : Nesting) (s : List Char) :
    Decidable (NoneAtTop isMark n s) := decidable_of_iff _ cutAt?_eq_none_iff

/-- A cut is made at a mark at the top level in front of which there is none. -/
theorem noneAtTop_of_cutAt? {s a b : List Char} {c : Char}
    (h : n.cutAt? isMark s = some (a, c, b)) :
    NoneAtTop isMark n a ∧ isMark c = true ∧ (n.run (a ++ [c])).atTop = true := by
  induction s generalizing n a with
  | nil => cases h
  | cons d s ih =>
    rw [cutAt?] at h
    split at h
    · next hd =>
      cases h
      exact ⟨noneAtTop_nil, hd⟩
    · next hd =>
      obtain ⟨⟨a', c', b'⟩, hp, e⟩ := Option.map_eq_some_iff.1 h
      cases e
      obtain ⟨ha, hc⟩ := ih hp
      exact ⟨noneAtTop_cons.2 ⟨fun hm => by simpa [hm] using hd, ha⟩, hc⟩

theorem cutAt?_append {a : List Char} (h : NoneAtTop isMark n a) {c : Char}
    (hc : isMark c = true) (ht : (n.run (a ++ [c])).atTop = true) (b : List Char) :
    n.cutAt? isMark (a ++ c :: b) = some (a, c, b) := by
  induction a generalizing n with
  | nil => rw [List.nil_append, cutAt?, if_pos ⟨hc, ht⟩]
  | cons d a ih =>
    obtain ⟨hd, ha⟩ := noneAtTop_cons.1 h
    rw [List.cons_append, cutAt?, if_neg fun hm => by simp [hd hm.1] at hm, ih ha ht]
    rfl

/-- A character that is no separator at the top level belongs to the first piece. -/
theorem pieces_cons {separator c : Char} {s p : List Char} {ps : List (List Char)}
    (hc : (c == separator) = true → (n.step c).atTop = false)
    (hp : (n.step c).pieces separator s = p :: ps) :
    n.pieces separator (c :: s) = (c :: p) :: ps := by
  have hn : ¬ (c = separator ∧ (n.step c).atTop = true) := by
    rintro ⟨rfl, ht⟩
    rw [hc (beq_self_eq_true c)] at ht
    cases ht
  rw [pieces, if_neg hn, hp]

theorem pieces_of_noneAtTop {separator : Char} {s : List Char}
    (h : NoneAtTop (· == separator) n s) : n.pieces separator s = [s] := by
  induction s generalizing n with
  | nil => rfl
  | cons c s ih =>
    obtain ⟨hc, hs⟩ := noneAtTop_cons.1 h
    exact pieces_cons hc (ih hs)

/-- The first piece ends at the first separator at the top level, and the others are those of the
text behind it. -/
theorem pieces_append {separator : Char} {s : List Char} (h : NoneAtTop (· == separator) n s)
    (ht : n.run (s ++ [separator]) = start) (t : List Char) :
    n.pieces separator (s ++ separator :: t) = s :: start.pieces separator t := by
  induction s generalizing n with
  | nil =>
    have hn : n.step separator = start := ht
    rw [List.nil_append, pieces, hn, if_pos ⟨rfl, rfl⟩]
  | cons c s ih =>
    obtain ⟨hc, hs⟩ := noneAtTop_cons.1 h
    exact pieces_cons hc (ih hs ht)

end

/-- The pieces of a balanced text are balanced and hold no separator at their top level. -/
theorem balanced_of_mem_pieces {separator : Char} (hsep : isPlain separator = true) {s : List Char}
    (h : Balanced s) : ∀ p ∈ start.pieces separator s,
      Balanced p ∧ NoneAtTop (· == separator) start p := by
  cases hcut : start.cutAt? (· == separator) s with
  | none =>
    have hn := cutAt?_eq_none_iff.1 hcut
    rw [pieces_of_noneAtTop hn]
    exact List.forall_mem_singleton.2 ⟨h, hn⟩
  | some cut =>
    obtain ⟨a, c, b⟩ := cut
    have hs := append_of_cutAt? hcut
    obtain ⟨hn, hc, ht⟩ := noneAtTop_of_cutAt? hcut
    obtain rfl : c = separator := by simpa using hc
    rw [atTop_iff] at ht
    have ha : start.run a = start := by
      rwa [run_append, run_cons, run_nil, step_of_isPlain hsep] at ht
    rw [← hs, ← List.singleton_append, balanced_append_iff ha,
      balanced_append_iff (balanced_singleton hsep).run_eq] at h
    have hlt : b.length < s.length := by
      rw [← hs]
      simp +arith
    rw [← hs, pieces_append hn ht]
    exact List.forall_mem_cons.2 ⟨⟨h.1, hn⟩, balanced_of_mem_pieces hsep h.2.2⟩
termination_by s.length

end Nesting

open Nesting

/-- A block is a balanced text between braces. -/
theorem splitBlock?_eq_some_iff {t b r : List Char} : splitBlock? t = some (b, r) ↔
    ∃ s, Balanced s ∧ b = '{' :: (s ++ ['}']) ∧ t = b ++ r := by
  have hcut : ∀ u, start.cutBlock? ('{' :: u) =
      (start.inside.cutBlock? u).map fun p => ('{' :: p.1, p.2) := fun u => rfl
  constructor
  · intro h
    unfold splitBlock? at h
    split at h
    · next u =>
      have ha := append_of_cutBlock? h
      rw [hcut] at h
      obtain ⟨⟨b', r'⟩, hp, e⟩ := Option.map_eq_some_iff.1 h
      cases e
      obtain ⟨s, rfl, hr, hd⟩ := exists_of_cutBlock? (Int.le_refl 1) hp
      exact ⟨s, balanced_iff_inside.2 ⟨hr, hd⟩, rfl, ha.symm⟩
    · cases h
  · rintro ⟨s, hs, rfl, rfl⟩
    obtain ⟨hr, hd⟩ := balanced_iff_inside.1 hs
    have hc := cutBlock?_of_depth hr hd r
    rw [List.cons_append, List.append_assoc, List.singleton_append, splitBlock?, hcut, hc]
    rfl

end IndentMarkup
