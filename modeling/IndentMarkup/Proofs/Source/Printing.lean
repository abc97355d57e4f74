import IndentMarkup.Program
import IndentMarkup.Proofs.Outline.Bodies
import IndentMarkup.Proofs.Outline.Lines
import IndentMarkup.Proofs.Program.Translation
import IndentMarkup.Proofs.Source.Trimming

/-!
# Printing nodes

Nodes as they are read from a source can be printed as one, a line for each node and the lines of
its children behind it, indented deeper. What can be printed this way is everything a line can hold:
fragments and decisions have no line of their own, and a text must not look like another line.
-/
namespace IndentMarkup

/-- The mark in front of an expression that is not to be escaped. -/
def rawMark (raw : Bool) : List Char := if raw then ['r', 'a', 'w', ' '] else []

def AttrValue.printed : AttrValue → List Char
  | .literal text => '"' :: (text.toList ++ ['"'])
  | .expr source raw =>
    '{' :: '{' :: ' ' :: (rawMark raw ++ source.toList ++ [' ', '}', '}'])

def Attributes.printed (attributes : Attributes) : List Char :=
  attributes.flatMap fun a => ' ' :: (a.1.toList ++ '=' :: a.2.printed)

/-- The line of a node without its margin. A hyphen that a text begins with is printed behind a
backslash. -/
def Node.line : Node → List Char
  | .element tag attributes _ => '%' :: (tag.toList ++ attributes.printed)
  | .text value =>
    match value.toList with
    | '-' :: s => '\\' :: '-' :: s
    | s => s
  | .insertion source raw => '=' :: ' ' :: (rawMark raw ++ source.toList)
  | .statement code => '-' :: ' ' :: code.toList
  | .ifThen condition _ => '-' :: ' ' :: ("if ".toList ++ condition.toList)
  | .elseIf condition _ => '-' :: ' ' :: ("else if ".toList ++ condition.toList)
  | .otherwise _ => '-' :: ' ' :: "else".toList
  | .loop head _ =>
    '-' :: ' ' :: ("for ".toList ++ head.bindings.toList ++ " in ".toList ++ head.source.toList)
  | .fragment _ => []
  | .decision _ => []

/-- The margins of lines by their depth: blanks without a line feed, more of them at each depth. -/
structure Margin where
  text : Nat → List Char
  blank : ∀ d, ∀ c ∈ text d, Text.isBlank c = true
  unbroken : ∀ d, '\n' ∉ text d
  deeper : ∀ d, (text d).length < (text (d + 1)).length

def Margin.spaces : Margin where
  text d := List.replicate (2 * d) ' '
  blank := by
    intro d c hc
    rw [List.eq_of_mem_replicate hc]
    rfl
  unbroken := by
    intro d hc
    have h := List.eq_of_mem_replicate hc
    cases h
  deeper := by
    intro d
    simp only [List.length_replicate]
    omega

namespace Node

mutual

def printed (m : Margin) (d : Nat) : Node → List (List Char)
  | .element tag attributes children =>
    (m.text d ++ line (.element tag attributes children)) :: printedAll m (d + 1) children
  | .text value => [m.text d ++ line (.text value)]
  | .insertion source raw => [m.text d ++ line (.insertion source raw)]
  | .statement code => [m.text d ++ line (.statement code)]
  | .ifThen condition children =>
    (m.text d ++ line (.ifThen condition children)) :: printedAll m (d + 1) children
  | .elseIf condition children =>
    (m.text d ++ line (.elseIf condition children)) :: printedAll m (d + 1) children
  | .otherwise children => (m.text d ++ line (.otherwise children)) :: printedAll m (d + 1) children
  | .loop head children => (m.text d ++ line (.loop head children)) :: printedAll m (d + 1) children
  | .fragment _ => []
  | .decision _ => []

def printedAll (m : Margin) (d : Nat) : List Node → List (List Char)
  | [] => []
  | node :: rest => printed m d node ++ printedAll m d rest

end

def print (m : Margin) (nodes : List Node) : String :=
  String.ofList (['\n'].intercalate (printedAll m 0 nodes))

end Node

/-- An expression that can be printed behind its mark: only an expression that is marked as raw may
begin as if it were marked. -/
def IsInserted (source : String) (raw : Bool) : Prop :=
  Text.OneLine source.toList ∧ (raw = false → ¬ rawMark true <+: source.toList)

instance (source : String) (raw : Bool) : Decidable (IsInserted source raw) :=
  inferInstanceAs (Decidable (_ ∧ _))

/-- A literal without quotes and line feeds, or an expression that does not close its braces. -/
def AttrValue.Printable : AttrValue → Prop
  | .literal text => '"' ∉ text.toList ∧ '\n' ∉ text.toList
  | .expr source raw => IsInserted source raw ∧ ¬ ['}', '}'] <:+: source.toList

instance : (value : AttrValue) → Decidable value.Printable
  | .literal _ => inferInstanceAs (Decidable (_ ∧ _))
  | .expr _ _ => inferInstanceAs (Decidable (_ ∧ _))

def IsKey (key : String) : Prop :=
  ∃ c s, key.toList = c :: s ∧ Text.isWord c = true ∧ ∀ d ∈ s, Text.isName d = true

/-- Different keys, each with a value that can be printed. -/
structure Attributes.Printable (attributes : Attributes) : Prop where
  distinct : (attributes.map Prod.fst).Nodup
  key : ∀ a ∈ attributes, IsKey a.1
  value : ∀ a ∈ attributes, a.2.Printable

def IsTag (tag : String) : Prop := tag.toList ≠ [] ∧ ∀ c ∈ tag.toList, Text.isName c = true

instance (tag : String) : Decidable (IsTag tag) :=
  decidable_of_iff (tag.toList ≠ [] ∧ tag.toList.all Text.isName = true)
    ⟨fun h => ⟨h.1, List.all_eq_true.1 h.2⟩, fun h => ⟨h.1, List.all_eq_true.2 h.2⟩⟩

/-- A text that looks like no other line. -/
structure IsPlainText (inElement : Bool) (value : String) : Prop where
  oneLine : Text.OneLine value.toList
  noInsertion : Insertion.cut? value.toList = none
  noMark : ∀ p ∈ [['\\', '-'], ['.'], ['#'], ['=', ' '], ['%']], ¬ p <+: value.toList
  noAttribute : inElement = true → SimpleAttribute.ofLine? value.toList = none

namespace Node

mutual

/-- A node that can be printed, below an element or elsewhere. -/
inductive Printable : Bool → Node → Prop
  | element {inElement : Bool} {tag : String} {attributes : Attributes} {children : List Node} :
      IsTag tag → attributes.Printable → AllPrintable true children →
        Printable inElement (.element tag attributes children)
  | text {inElement : Bool} {value : String} :
      IsPlainText inElement value → Printable inElement (.text value)
  | insertion {inElement : Bool} {source : String} {raw : Bool} :
      IsInserted source raw → Printable inElement (.insertion source raw)
  | statement {inElement : Bool} {code : String} :
      Text.OneLine code.toList → Directive.ofControl code.toList = .statement code →
        Printable inElement (.statement code)
  | ifThen {inElement : Bool} {condition : String} {children : List Node} :
      Text.OneLine condition.toList → AllPrintable false children →
        Printable inElement (.ifThen condition children)
  | elseIf {inElement : Bool} {condition : String} {children : List Node} :
      Text.OneLine condition.toList → AllPrintable false children →
        Printable inElement (.elseIf condition children)
  | otherwise {inElement : Bool} {children : List Node} :
      AllPrintable false children → Printable inElement (.otherwise children)
  | loop {inElement : Bool} {head : LoopHead} {children : List Node} :
      head.isNamed = true → Text.OneLine head.source.toList → AllPrintable false children →
        Printable inElement (.loop head children)

inductive AllPrintable : Bool → List Node → Prop
  | nil {inElement : Bool} : AllPrintable inElement []
  | cons {inElement : Bool} {node : Node} {rest : List Node} :
      Printable inElement node → AllPrintable inElement rest →
        AllPrintable inElement (node :: rest)

end

end Node

end IndentMarkup
