import IndentMarkup.Expr.Engine

/-!
# Agreement of the comparisons

Values are compared in three ways: strictly, loosely, and by order. What is strictly equal is
loosely equal, both equalities hold in both directions, and swapping two values reverses their
order. On booleans, numbers and texts loose equality is what the order says: two values are equal if
neither is greater. It is not on the other values: null is as great as zero but equals null only,
and a collection stands in no order even to itself.
-/
namespace IndentMarkup

namespace Text

theorem compareChars_swap (s t : List Char) : compareChars t s = (compareChars s t).swap := by
  induction s generalizing t with
  | nil => cases t <;> rfl
  | cons a s ih =>
    cases t with
    | nil => rfl
    | cons b t =>
      rw [compareChars, compareChars, Ordering.swap_then, ih, Nat.compare_swap]

theorem compareChars_eq_eq_iff {s t : List Char} : compareChars s t = .eq ↔ s = t := by
  induction s generalizing t with
  | nil => cases t <;> simp [compareChars]
  | cons a s ih =>
    cases t with
    | nil => simp [compareChars]
    | cons b t =>
      rw [compareChars, Ordering.then_eq_eq, Nat.compare_eq_eq, ih, Char.toNat_inj, List.cons.injEq]

end Text

theorem Number.sameStored_comm (a b : Number) : a.sameStored b = b.sameStored a := by
  cases a <;> cases b
  · exact Bool.beq_comm
  · rfl
  · rfl
  · exact Number.same_comm _ _

namespace Value

mutual

theorem same_comm (v w : Value) : v.same w = w.same v := by
  match v, w with
  | .null, w => cases w <;> simp only [same]
  | .bool a, w => cases w <;> simp only [same, Bool.beq_comm]
  | .number a, w => cases w <;> simp only [same, Number.sameStored_comm]
  | .string s, w => cases w <;> simp only [same, Bool.beq_comm]
  | .array xs, .array ys =>
    rw [same, same]
    exact sameItems_comm xs ys
  | .array xs, .null | .array xs, .bool _ | .array xs, .number _ | .array xs, .string _
  | .array xs, .object _ => simp only [same]
  | .object xs, .object ys =>
    rw [same, same]
    exact sameFields_comm xs ys
  | .object xs, .null | .object xs, .bool _ | .object xs, .number _ | .object xs, .string _
  | .object xs, .array _ => simp only [same]

theorem sameItems_comm (xs ys : List Value) : sameItems xs ys = sameItems ys xs := by
  match xs, ys with
  | [], [] => rfl
  | [], _ :: _ => simp only [sameItems]
  | _ :: _, [] => simp only [sameItems]
  | x :: xs, y :: ys => rw [sameItems, sameItems, same_comm x y, sameItems_comm xs ys]

theorem sameFields_comm (xs ys : List (String × Value)) :
    sameFields xs ys = sameFields ys xs := by
  match xs, ys with
  | [], [] => rfl
  | [], _ :: _ => simp only [sameFields]
  | _ :: _, [] => simp only [sameFields]
  | (k, x) :: xs, (l, y) :: ys =>
    rw [sameFields, sameFields, same_comm x y, sameFields_comm xs ys, Bool.beq_comm]

end

theorem strictEquals_comm (v w : Value) : v.strictEquals w = w.strictEquals v := by
  cases v <;> cases w <;> first | exact Number.same_comm _ _ | exact same_comm _ _

def numericOrder (v w : Value) : Option Ordering :=
  v.toNumber?.bind fun x => w.toNumber?.bind fun y => Number.order x y

theorem numericOrder_swap (v w : Value) :
    w.numericOrder v = (v.numericOrder w).map Ordering.swap := by
  unfold numericOrder
  cases v.toNumber? with
  | none => cases w.toNumber? <;> rfl
  | some x =>
    cases w.toNumber? with
    | none => rfl
    | some y => exact Number.order_swap x y

theorem numericEquals_iff {v w : Value} :
    v.numericEquals w = true ↔ v.numericOrder w = some .eq := by
  unfold numericEquals numericOrder
  cases v.toNumber? with
  | none => simp
  | some x => cases w.toNumber? <;> simp [Number.same]

theorem numericEquals_comm (v w : Value) : v.numericEquals w = w.numericEquals v := by
  rw [Bool.eq_iff_iff, numericEquals_iff, numericEquals_iff, numericOrder_swap v w]
  cases v.numericOrder w with
  | none => simp
  | some o => cases o <;> simp

/-- Whether loose equality compares two values as numbers, which it does not do with null. -/
def comparesAsNumbers : Value → Value → Bool
  | .null, _ => false
  | _, .null => false
  | .number _, .string _ => true
  | .string _, .number _ => true
  | .bool _, _ => true
  | _, .bool _ => true
  | _, _ => false

theorem comparesAsNumbers_comm (v w : Value) :
    v.comparesAsNumbers w = w.comparesAsNumbers v := by
  cases v <;> cases w <;> rfl

/-- Loose equality is strict equality apart from values that are compared as numbers. -/
theorem looseEquals_eq (v w : Value) :
    v.looseEquals w = if v.comparesAsNumbers w then v.numericEquals w else v.strictEquals w := by
  cases v <;> cases w <;> rfl

theorem looseEquals_comm (v w : Value) : v.looseEquals w = w.looseEquals v := by
  rw [looseEquals_eq, looseEquals_eq w v, comparesAsNumbers_comm, numericEquals_comm,
    strictEquals_comm]

theorem kind_of_strictEquals {v w : Value} (h : v.strictEquals w = true) : v.kind = w.kind := by
  cases v <;> cases w <;> first | rfl | cases h

theorem numericEquals_bool (b : Bool) : numericEquals (.bool b) (.bool b) = true := by
  cases b <;> decide

/-- Of two values of one kind, only booleans are compared as numbers. -/
theorem eq_bool_of_comparesAsNumbers {v w : Value} (hk : v.kind = w.kind)
    (h : v.comparesAsNumbers w = true) : ∃ a b, v = .bool a ∧ w = .bool b := by
  cases v with
  | bool a =>
    cases w with
    | bool b => exact ⟨a, b, rfl, rfl⟩
    | _ => cases hk
  | _ => cases w <;> first | exact (Bool.false_ne_true h).elim | cases hk

theorem looseEquals_of_strictEquals {v w : Value} (h : v.strictEquals w = true) :
    v.looseEquals w = true := by
  rw [looseEquals_eq]
  split
  · next hn =>
    obtain ⟨a, b, rfl, rfl⟩ := eq_bool_of_comparesAsNumbers (kind_of_strictEquals h) hn
    have hb : a = b := beq_iff_eq.1 h
    rw [hb]
    exact numericEquals_bool b
  · exact h

/-- Unless both values are texts, their order is that of the numbers they stand for. -/
theorem order_eq_numericOrder {v w : Value} (h : ¬(v.kind = .string ∧ w.kind = .string)) :
    v.order w = v.numericOrder w := by
  unfold order
  split
  · exact (h ⟨rfl, rfl⟩).elim
  · unfold numericOrder
    cases v.toNumber? with
    | none => rfl
    | some x => cases w.toNumber? <;> rfl

theorem order_string (s t : String) :
    order (.string s) (.string t) = some (Text.compareChars s.toList t.toList) := rfl

theorem exists_of_kind_string {v : Value} (h : v.kind = .string) : ∃ s, v = .string s := by
  cases v with
  | string s => exact ⟨s, rfl⟩
  | _ => cases h

theorem order_swap (v w : Value) : w.order v = (v.order w).map Ordering.swap := by
  by_cases h : v.kind = .string ∧ w.kind = .string
  · obtain ⟨s, rfl⟩ := exists_of_kind_string h.1
    obtain ⟨t, rfl⟩ := exists_of_kind_string h.2
    rw [order_string, order_string, Text.compareChars_swap s.toList, Option.map_some]
  · rw [order_eq_numericOrder h, order_eq_numericOrder fun hw => h ⟨hw.2, hw.1⟩,
      numericOrder_swap]

def isScalar : Value → Bool
  | .bool _ => true
  | .number _ => true
  | .string _ => true
  | _ => false

/-- Two scalars that are not compared as numbers are numbers already, or texts. -/
theorem eq_number_of_isScalar {v w : Value} (hv : v.isScalar = true) (hw : w.isScalar = true)
    (hn : v.comparesAsNumbers w = false) (hs : ¬(v.kind = .string ∧ w.kind = .string)) :
    ∃ a b, v = .number a ∧ w = .number b := by
  cases v with
  | number a =>
    cases w with
    | number b => exact ⟨a, b, rfl, rfl⟩
    | bool _ | string _ => cases hn
    | _ => cases hw
  | string s =>
    cases w with
    | string t => exact (hs ⟨rfl, rfl⟩).elim
    | bool _ | number _ => cases hn
    | _ => cases hw
  | bool a =>
    cases w with
    | bool _ | number _ | string _ => cases hn
    | _ => cases hw
  | _ => cases hv

theorem looseEquals_iff_order {v w : Value} (hv : v.isScalar = true) (hw : w.isScalar = true) :
    v.looseEquals w = true ↔ v.order w = some .eq := by
  rw [looseEquals_eq]
  by_cases hs : v.kind = .string ∧ w.kind = .string
  · obtain ⟨s, rfl⟩ := exists_of_kind_string hs.1
    obtain ⟨t, rfl⟩ := exists_of_kind_string hs.2
    have he : strictEquals (.string s) (.string t) = true ↔ s = t := beq_iff_eq
    have hn : comparesAsNumbers (.string s) (.string t) = false := rfl
    rw [hn, if_neg Bool.false_ne_true, he, order_string, Option.some.injEq,
      Text.compareChars_eq_eq_iff, String.toList_inj]
  · rw [order_eq_numericOrder hs]
    cases hn : v.comparesAsNumbers w with
    | true => exact numericEquals_iff
    | false =>
      obtain ⟨a, b, rfl, rfl⟩ := eq_number_of_isScalar hv hw hn hs
      exact numericEquals_iff (v := .number a) (w := .number b)

theorem inOrder_iff {orders : List Ordering} {v w : Value} :
    v.inOrder orders w = true ↔ ∃ o ∈ orders, v.order w = some o := by
  unfold inOrder
  cases v.order w with
  | none => simp
  | some o => simp

/-- Neither of two values is greater exactly if their order is equality. -/
theorem order_eq_eq_iff {v w : Value} :
    v.order w = some .eq ↔ v.inOrder [.lt, .eq] w = true ∧ v.inOrder [.gt, .eq] w = true := by
  rw [inOrder_iff, inOrder_iff]
  cases v.order w with
  | none => simp
  | some o => cases o <;> simp

end Value

/-- The comparisons are coherent: strict equality is loose equality, both are symmetric, the order
of two values is reversed when they are swapped, and two scalars are loosely equal exactly if their
order is equality, which the operators say too. -/
theorem Value.comparisons_coherent :
    (∀ v w : Value, v.strictEquals w = true → v.looseEquals w = true) ∧
    (∀ v w : Value, v.strictEquals w = w.strictEquals v ∧ v.looseEquals w = w.looseEquals v) ∧
    (∀ v w : Value, w.order v = (v.order w).map Ordering.swap) ∧
    (∀ v w : Value, v.isScalar = true → w.isScalar = true →
      (v.looseEquals w = true ↔ v.order w = some .eq) ∧
      (BinaryOp.eq.apply v w = .ok (.bool true) ↔
        BinaryOp.le.apply v w = .ok (.bool true) ∧ BinaryOp.ge.apply v w = .ok (.bool true))) := by
  refine ⟨?_, ?_, ?_, ?_⟩
  · intro v w h
    exact looseEquals_of_strictEquals h
  · intro v w
    exact ⟨strictEquals_comm v w, looseEquals_comm v w⟩
  · intro v w
    exact order_swap v w
  · intro v w hv hw
    have hb (a : Bool) : (Except.ok (.bool a) : Except EvalError Value) = .ok (.bool true) ↔
        a = true := by simp
    refine ⟨looseEquals_iff_order hv hw, ?_⟩
    rw [BinaryOp.apply, BinaryOp.apply, BinaryOp.apply, hb, hb, hb, looseEquals_iff_order hv hw]
    exact order_eq_eq_iff

/-- Arrays with the same items, and a boolean and a text that stand for one number. -/
theorem Value.comparisons_coherent_mixed :
    (strictEquals (.array [.null, .int 1]) (.array [.null, .int 1]) = true ∧
      looseEquals (.array [.null, .int 1]) (.array [.null, .int 1]) = true) ∧
    (isScalar (.bool true) = true ∧ isScalar (.string " 1.0 ") = true ∧
      (looseEquals (.bool true) (.string " 1.0 ") = true ↔
        order (.bool true) (.string " 1.0 ") = some .eq)) := by
  have hs : strictEquals (.array [.null, .int 1]) (.array [.null, .int 1]) = true := by decide
  have hb : isScalar (.bool true) = true := rfl
  have ht : isScalar (.string " 1.0 ") = true := rfl
  exact ⟨⟨hs, comparisons_coherent.1 _ _ hs⟩, hb, ht, (comparisons_coherent.2.2.2 _ _ hb ht).1⟩

end IndentMarkup
