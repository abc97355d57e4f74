import IndentMarkup.Markup.Node
import IndentMarkup.Text.Quoted

/-!
# Element lines

Behind the head of an element line stand, each optional and in this order, a block of attributes in
braces, attributes one by one, and the content of the element:

    %a.btn{ href: "/items/{{ id }}" } target="_blank" data-n={{ n }} Inline text

A later definition of a key replaces an earlier one in its place, except that a class is joined to
the classes of the head instead of replacing them. A line below the element that is nothing but one
attribute continues the attributes of the element.
-/
namespace IndentMarkup

abbrev AttributePair := String × AttrValue

/-- The text of an expression that joins the pieces of a text. Text first makes it a concatenation.
-/
def concatenation (segments : List Segment) : String :=
  let term : Segment → String
    | .literal text => Text.quote text
    | .expr source => "(" ++ source ++ ")"
  let first :=
    match segments with
    | .expr _ :: _ => [Text.quote ""]
    | _ => []
  String.intercalate " + " (first ++ segments.map term)

namespace AttrValue

/-- Joins a class to the classes of the head. The value of an expression is joined only if it is
true. -/
def combineClass (shorthand : String) : AttrValue → AttrValue
  | .literal text => .literal (shorthand ++ " " ++ text)
  | .expr source raw =>
    .expr (Text.quote shorthand ++ " + ((" ++ source ++ ") ? \" \" + (" ++ source ++
      ") : \"\")") raw

/-- The value of a pair in a block: one insertion is an expression, a text with insertions an
expression that joins its pieces, and any other text is literal. -/
def ofBlockText (s : List Char) : AttrValue :=
  match singleInsertion? s with
  | some source => .ofSource (String.ofList source)
  | none =>
    let segments := Segment.ofText s
    if segments.any Segment.isExpr then .expr (concatenation segments) false
    else .literal (String.ofList s)

end AttrValue

namespace Attributes

/-- Sets a key, joining a class to the classes of the head if there are any. -/
def merge (attributes : Attributes) (shorthand : Option String) (pair : AttributePair) :
    Attributes :=
  match shorthand with
  | some classes =>
    if pair.1 = "class" then attributes.set pair.1 (pair.2.combineClass classes)
    else attributes.set pair.1 pair.2
  | none => attributes.set pair.1 pair.2

def mergeAll (attributes : Attributes) (shorthand : Option String) (pairs : List AttributePair) :
    Attributes :=
  pairs.foldl (fun a p => a.merge shorthand p) attributes

end Attributes

/-- The text inside a pair of quotes of one kind around all of it; any other text as it stands. -/
def stripQuotes (s : List Char) : List Char :=
  match s with
  | q :: c :: r =>
    if (q = '"' ∨ q = '\x27') ∧ (c :: r).getLast? = some q then (c :: r).dropLast else s
  | _ => s

namespace AttributeBlock

/-- The key and the value of a piece of a block, as they are written, with a colon or an equals sign
between them. A piece without such a sign or without a key is no pair. -/
def written? (piece : List Char) : Option (List Char × List Char) :=
  match Nesting.start.cutAt? (fun c => c == ':' || c == '=') piece with
  | none => none
  | some (before, _, after) =>
    let key := stripQuotes (Text.trim before)
    let value := stripQuotes (Text.trim after)
    if key = [] then none else some (key, value)

def pair? (piece : List Char) : Option AttributePair :=
  (written? piece).map fun p => (String.ofList p.1, .ofBlockText p.2)

/-- The pieces of the block that a text begins with after its blanks, and what follows the block. -/
def pieces? (s : List Char) : Option (List (List Char) × List Char) :=
  (splitBlock? (Text.trimStart s)).map fun p =>
    (splitTopLevel ',' (p.1.drop 1).dropLast, p.2)

/-- The pairs of the block that a text begins with after its blanks, and what follows the block. -/
def split? (s : List Char) : Option (List AttributePair × List Char) :=
  (pieces? s).map fun p => (p.1.filterMap pair?, p.2)

theorem pair?_of_cutAt? {piece before after : List Char} {mark : Char}
    (h : Nesting.start.cutAt? (fun c => c == ':' || c == '=') piece =
      some (before, mark, after)) :
    pair? piece = if stripQuotes (Text.trim before) = [] then none else
      some (String.ofList (stripQuotes (Text.trim before)),
        .ofBlockText (stripQuotes (Text.trim after))) := by
  rw [pair?, written?, h]
  dsimp only
  split
  · rfl
  · rfl

theorem split?_eq (s : List Char) : split? s = (splitBlock? (Text.trimStart s)).map fun p =>
    ((splitTopLevel ',' (p.1.drop 1).dropLast).filterMap pair?, p.2) := by
  rw [split?, pieces?, Option.map_map]
  rfl

/-- Whether reading the block that a text begins with breaks off at one of its values. -/
def breaksOff (s : List Char) : Bool :=
  (pieces? s).any fun p => p.1.any fun piece =>
    (written? piece).any fun pair => (cutInsertion? pair.2).isNone

end AttributeBlock

namespace SimpleAttribute

/-- A key and the equals sign behind it, cut off a text. A key begins with a word character. -/
def key? : List Char → Option (List Char × List Char)
  | [] => none
  | c :: s =>
    if Text.isWord c then
      match s.dropWhile Text.isName with
      | '=' :: r => some (c :: s.takeWhile Text.isName, r)
      | _ => none
    else none

/-- The value behind the equals sign: a text between quotes, or an expression in double braces. -/
def value? (s : List Char) : Option (AttrValue × List Char) :=
  match s with
  | '{' :: '{' :: r =>
    (Insertion.cutBody? Insertion.closing? r).map fun p => (.ofSource (String.ofList p.1), p.2)
  | q :: r =>
    if q = '"' ∨ q = '\x27' then
      match r.dropWhile (· ≠ q) with
      | _ :: after => some (.literal (String.ofList (r.takeWhile (· ≠ q))), after)
      | [] => none
    else none
  | [] => none

def first? (s : List Char) : Option (AttributePair × List Char) :=
  match key? s with
  | none => none
  | some (key, r) => (value? r).map fun p => ((String.ofList key, p.1), p.2)

theorem length_key? {s k r : List Char} (h : key? s = some (k, r)) : r.length < s.length := by
  unfold key? at h
  split at h
  · cases h
  · next c s =>
    split at h
    · split at h
      · next r' hr =>
        cases h
        have := (List.dropWhile_sublist Text.isName (l := s)).length_le
        rw [hr] at this
        simp only [List.length_cons] at this ⊢
        omega
      · cases h
    · cases h

theorem length_value? {s r : List Char} {v : AttrValue} (h : value? s = some (v, r)) :
    r.length < s.length := by
  unfold value? at h
  split at h
  · next s =>
    obtain ⟨p, hp, e⟩ := Option.map_eq_some_iff.1 h
    cases e
    have := Insertion.length_cutBody?
      (fun t u hu => Nat.le_of_lt (Insertion.length_closing? hu)) (s := s) (b := p.1) (r := p.2) hp
    simp only [List.length_cons]
    omega
  · next q s _ =>
    split at h
    · split at h
      · next hs =>
        cases h
        have := (List.dropWhile_sublist (fun x => x ≠ q) (l := s)).length_le
        simp only [ne_eq, decide_not] at this hs
        rw [hs] at this
        simp only [List.length_cons] at this ⊢
        omega
      · cases h
    · cases h
  · cases h

/-- What follows an attribute is shorter than the text. -/
theorem length_first? {s r : List Char} {p : AttributePair} (h : first? s = some (p, r)) :
    r.length < s.length := by
  unfold first? at h
  split at h
  · cases h
  · next hk =>
    obtain ⟨q, hq, e⟩ := Option.map_eq_some_iff.1 h
    cases e
    have := length_key? hk
    have := length_value? (v := q.1) (r := q.2) hq
    omega

/-- The attributes that a text begins with, and the text behind them without blanks at its ends. -/
def split (s : List Char) : List AttributePair × List Char :=
  match _h : first? (Text.trimStart s) with
  | none => ([], Text.trim s)
  | some (p, r) =>
    let (pairs, content) := split r
    (p :: pairs, content)
termination_by s.length
decreasing_by
  have := length_first? _h
  have := Text.length_trimStart_le s
  omega

def ofLine? (line : List Char) : Option AttributePair :=
  match split line with
  | ([p], []) => some p
  | _ => none

end SimpleAttribute

/-- The nodes of the content of an element line. Behind an equals sign stands an expression. -/
def inlineContent (content : List Char) : List Node :=
  match content with
  | '=' :: source =>
    if Text.isAllBlank source then [] else [.ofSource (String.ofList source)]
  | _ => (Segment.ofText content).map Node.ofSegment

/-- An element read from a line, before the lines below it are taken into account. -/
structure OpenElement where
  tag : String
  attributes : Attributes
  shorthandClass : Option String
  content : List Node

namespace OpenElement

/-- The tag of elements whose line names none, unless another is chosen. -/
def defaultTag : String := "div"

def shorthandClass? (classes : List String) : Option String :=
  if classes = [] then none else some (String.intercalate " " classes)

def headAttributes (head : ElementHead) : Attributes :=
  let classes :=
    match shorthandClass? head.classes with
    | some c => Keyed.set [] "class" (.literal c)
    | none => []
  match head.id with
  | some id => classes.set "id" (.literal id)
  | none => classes

def ofHead (fallbackTag : String) (head : ElementHead) : OpenElement :=
  let shorthand := shorthandClass? head.classes
  let rest := head.rest.toList
  let (blockPairs, afterBlock) := (AttributeBlock.split? rest).getD ([], rest)
  let (pairs, content) := SimpleAttribute.split afterBlock
  { tag := head.tag.getD fallbackTag
    attributes := (headAttributes head).mergeAll shorthand (blockPairs ++ pairs)
    shorthandClass := shorthand
    content := inlineContent content }

def node (e : OpenElement) : Node := .element e.tag e.attributes e.content

end OpenElement

end IndentMarkup
