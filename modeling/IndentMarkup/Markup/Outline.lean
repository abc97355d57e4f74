import IndentMarkup.Line.Basic
import IndentMarkup.Markup.Element

/-!
# Outlines

The indentation of lines decides which node contains which. The lines of a source are read in their
order, with a stack of the containers that are still open. A line closes every container that is not
indented less than it, and belongs to the innermost of those left. A line that belongs to an element
and is nothing but one attribute is no child: it continues the attributes of the element. Only the
order of indentations matters, so a body need not be indented evenly.
-/
namespace IndentMarkup

/-- Whether reading a line breaks off. Only the values of a block can be the reason. -/
def Line.breaksOff (line : Line) : Bool :=
  match Directive.ofTrimmed line.text with
  | .element head => AttributeBlock.breaksOff head.rest.toList
  | _ => false

/-- The node of a line before the lines below it are read, with the classes of an element's head.
-/
structure Opening where
  node : Node
  shorthandClass : Option String

namespace Opening

def ofDirective (fallbackTag : String) : Directive → Opening
  | .literal t => ⟨.text t, none⟩
  | .text segments => ⟨.ofSegments segments, none⟩
  | .element head =>
    let element := OpenElement.ofHead fallbackTag head
    ⟨element.node, element.shorthandClass⟩
  | .expression source => ⟨.ofSource source, none⟩
  | .statement code => ⟨.statement code, none⟩
  | .ifThen condition => ⟨.ifThen condition [], none⟩
  | .elseIf condition => ⟨.elseIf condition [], none⟩
  | .otherwise => ⟨.otherwise [], none⟩
  | .loop head => ⟨.loop head [], none⟩

def ofLine (fallbackTag : String) (line : Line) : Opening :=
  ofDirective fallbackTag (.ofTrimmed line.text)

def isElement (o : Opening) : Bool :=
  match o.node with
  | .element .. => true
  | _ => false

/-- The element with one more attribute. Other nodes have none. -/
def merge (o : Opening) (pair : AttributePair) : Opening :=
  match o.node with
  | .element tag attributes children =>
    { o with node := .element tag (attributes.merge o.shorthandClass pair) children }
  | _ => o

end Opening

/-- An open container: how far its line is indented, its node without children, and the children
that it has so far. -/
structure Frame where
  indent : Nat
  opening : Opening
  children : List Node

namespace Frame

/-- The frame of a container that was just opened. Its children so far are those on its own line. -/
def ofOpening (indent : Nat) (opening : Opening) : Frame :=
  ⟨indent, opening, opening.node.children⟩

def node (frame : Frame) : Node := frame.opening.node.withChildren frame.children

def append (frame : Frame) (node : Node) : Frame :=
  { frame with children := frame.children ++ [node] }

/-- The frame of an element with the attribute that a line consists of. Any other line, and any
other frame, continues no attributes. -/
def absorb? (frame : Frame) (text : List Char) : Option Frame :=
  if frame.opening.isElement then
    (SimpleAttribute.ofLine? text).map fun pair =>
      { frame with opening := frame.opening.merge pair }
  else none

end Frame

/-- How far a source has been read: the open containers, the innermost first, and the nodes outside
of all containers that are complete. -/
structure Outline where
  frames : List Frame
  nodes : List Node

namespace Outline

def start : Outline := ⟨[], []⟩

/-- Adds a node to the innermost open container, or outside of all. -/
def append (o : Outline) (node : Node) : Outline :=
  match o.frames with
  | [] => { o with nodes := o.nodes ++ [node] }
  | frame :: rest => { o with frames := frame.append node :: rest }

/-- Closes the open containers that are not indented less than the given column. -/
def close (indent : Nat) (o : Outline) : Outline :=
  match _h : o.frames with
  | [] => o
  | frame :: rest =>
    if frame.indent < indent then o
    else close indent (append ⟨rest, o.nodes⟩ frame.node)
termination_by o.frames.length
decreasing_by
  rw [_h]
  unfold append
  split <;> simp_all

/-- Adds a line to the attributes of the innermost open container, if that is an element. -/
def absorb? (o : Outline) (text : List Char) : Option Outline :=
  match o.frames with
  | [] => none
  | frame :: rest => (frame.absorb? text).map fun f => { o with frames := f :: rest }

def push (fallbackTag : String) (o : Outline) (line : Line) : Outline :=
  let closed := o.close line.indent
  match closed.absorb? line.text with
  | some absorbed => absorbed
  | none =>
    let opening := Opening.ofLine fallbackTag line
    if opening.node.isContainer then
      { closed with frames := .ofOpening line.indent opening :: closed.frames }
    else closed.append opening.node

/-- Reads one more line, unless that breaks off. A line that is absorbed is not read as a node. -/
def push? (fallbackTag : String) (o : Outline) (line : Line) : Option Outline :=
  if ((o.close line.indent).absorb? line.text).isNone && line.breaksOff then none
  else some (o.push fallbackTag line)

/-- The nodes of what has been read. No container is indented less than the first column, so all are
closed. -/
def finish (o : Outline) : List Node := (o.close 0).nodes

def ofLines (fallbackTag : String) (lines : List Line) : List Node :=
  (lines.foldl (push fallbackTag) start).finish

/-- The nodes of a source, with every condition, alternative and default on its own. A value at
which reading breaks off is taken for no insertion. -/
def read (fallbackTag : String) (source : String) : List Node :=
  ofLines fallbackTag (Line.ofSource source)

/-- The nodes of a source, unless reading it breaks off. -/
def read? (fallbackTag : String) (source : String) : Option (List Node) :=
  ((Line.ofSource source).foldlM (push? fallbackTag) start).map finish

end Outline

end IndentMarkup
