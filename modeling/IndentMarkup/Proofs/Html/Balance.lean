import IndentMarkup.Proofs.Html.Groups
import IndentMarkup.Proofs.Source.Printing
import IndentMarkup.Render
import Mathlib

/-!
# Values bring no markup

Where nothing is marked as raw, all angle brackets of an output are those that the elements of a
template are written with. Values are escaped wherever they enter the output, as content and in
attributes, so the output is balanced whatever an evaluator answers. Evaluators may have effects:
what is said holds of every output that rendering can have. That is `SatisfiesM`, which only the
whole of Mathlib brings in.
-/
namespace IndentMarkup

namespace Html

theorem flat_cons {c : Char} {s : List Char} : Flat (c :: s) ↔ isFlat c = true ∧ Flat s :=
  List.forall_mem_cons

theorem flat_append {s t : List Char} : Flat (s ++ t) ↔ Flat s ∧ Flat t :=
  List.forall_mem_append

theorem flat_escapeChar (c : Char) : Flat (escapeChar c) := by
  unfold escapeChar
  split_ifs with hamp hl hr hquote hapos
  · decide
  · decide
  · decide
  · decide
  · decide
  · intro d hd
    rw [List.mem_singleton.1 hd]
    simp [isFlat, hl, hr]

theorem flat_escapeChars (s : List Char) : Flat (escapeChars s) := by
  induction s with
  | nil => exact fun c hc => by cases hc
  | cons c s ih =>
    rw [escapeChars_cons]
    exact flat_append.2 ⟨flat_escapeChar c, ih⟩

/-- What may stand behind a tag inside of a group: it cannot be taken for more of the tag. -/
structure FollowsTag (s : List Char) : Prop where
  flat : Flat s
  apart : ∀ c ∈ s.head?, Text.isName c = false

theorem followsTag_nil : FollowsTag [] where
  flat := fun c hc => by cases hc
  apart := fun c hc => by cases hc

theorem followsTag_space {s : List Char} (h : Flat s) : FollowsTag (' ' :: s) where
  flat := flat_cons.2 ⟨by decide, h⟩
  apart := by
    intro c hc
    cases hc
    decide

theorem FollowsTag.append {s t : List Char} (hs : FollowsTag s) (ht : FollowsTag t) :
    FollowsTag (s ++ t) where
  flat := flat_append.2 ⟨hs.flat, ht.flat⟩
  apart := by
    cases s with
    | nil => exact ht.apart
    | cons c s => exact hs.apart

theorem followsTag_keyValue {key value : String} (hk : Flat key.toList) (hv : Flat value.toList) :
    FollowsTag (keyValue key value).toList := by
  have hq : Flat "\"".toList := by decide
  have he : Flat "=\"".toList := by decide
  have hs : (keyValue key value).toList =
      ' ' :: (key.toList ++ "=\"".toList ++ value.toList ++ "\"".toList) := by
    simp [keyValue, String.toList_append]
  rw [hs]
  exact followsTag_space (flat_append.2 ⟨flat_append.2 ⟨flat_append.2 ⟨hk, he⟩, hv⟩, hq⟩)

theorem balanced_join {texts : List String} (h : ∀ t ∈ texts, Balanced t.toList) :
    Balanced (String.join texts).toList := by
  induction texts with
  | nil => exact balanced_nil
  | cons t texts ih =>
    rw [String.join_cons, String.toList_append]
    have ht : Balanced t.toList := h t List.mem_cons_self
    exact ht.append (ih fun u hu => h u (List.mem_cons_of_mem t hu))

end Html

open Html

theorem Value.flat_escapedText (v : Value) : Flat v.escapedText.toList := by
  rw [escapedText, toList_escape]
  exact flat_escapeChars v.text.toList

theorem Value.followsTag_asAttribute {key : String} (hk : Flat key.toList) (v : Value) :
    FollowsTag (v.asAttribute key false).toList := by
  unfold asAttribute
  split
  · exact followsTag_nil
  · exact followsTag_nil
  · rw [String.toList_append]
    exact followsTag_space hk
  · exact followsTag_keyValue hk v.flat_escapedText

/-- A literal without angle brackets, or an expression that is not raw. -/
def AttrValue.Inert : AttrValue → Prop
  | .literal text => Flat text.toList
  | .expr _ raw => raw = false

def Attributes.Inert (attributes : Attributes) : Prop :=
  ∀ a ∈ attributes, Flat a.1.toList ∧ a.2.Inert

namespace Node

mutual

/-- A node in which nothing is raw, no text has angle brackets and every tag is one. -/
def Inert : Node → Prop
  | .element tag attributes children => IsTag tag ∧ attributes.Inert ∧ AllInert children
  | .text value => Flat value.toList
  | .insertion _ raw => raw = false
  | .statement _ => True
  | .ifThen _ children => AllInert children
  | .elseIf _ children => AllInert children
  | .otherwise children => AllInert children
  | .loop _ children => AllInert children
  | .fragment children => AllInert children
  | .decision branches => BranchesInert branches

def AllInert : List Node → Prop
  | [] => True
  | node :: rest => Inert node ∧ AllInert rest

def BranchesInert : List Branch → Prop
  | [] => True
  | .mk _ children :: rest => AllInert children ∧ BranchesInert rest

end

end Node

section

variable {m : Type → Type} [Monad m] [LawfulMonad m]

theorem satisfiesM_mapM {α β : Type} {p : β → Prop} {f : α → m β} (h : ∀ a, SatisfiesM p (f a))
    (l : List α) : SatisfiesM (fun bs => ∀ b ∈ bs, p b) (l.mapM f) := by
  induction l with
  | nil =>
    rw [List.mapM_nil]
    exact .pure fun b hb => by cases hb
  | cons a l ih =>
    rw [List.mapM_cons]
    refine (h a).bind fun b hb => ih.bind fun bs hbs => .pure ?_
    exact List.forall_mem_cons.2 ⟨hb, hbs⟩

variable (evaluator : Evaluator m)

theorem AttrValue.render_followsTag {key : String} (hk : Flat key.toList) {value : AttrValue}
    (h : value.Inert) (s : Scope) :
    SatisfiesM (fun out => FollowsTag out.toList) (value.render evaluator key s) := by
  cases value with
  | literal text => exact .pure (followsTag_keyValue hk h)
  | expr source raw =>
    have hr : raw = false := h
    rw [AttrValue.render, hr]
    refine SatisfiesM.trivial.bind fun v _ => .pure ?_
    exact v.followsTag_asAttribute hk

theorem Attributes.render_followsTag {attributes : Attributes} (h : attributes.Inert)
    (s : Scope) :
    SatisfiesM (fun out => FollowsTag out.toList) (attributes.render evaluator s) := by
  induction attributes with
  | nil => exact .pure followsTag_nil
  | cons a rest ih =>
    obtain ⟨key, value⟩ := a
    obtain ⟨ha, hr⟩ := List.forall_mem_cons.1 h
    rw [Attributes.render]
    refine (value.render_followsTag evaluator ha.1 ha.2 s).bind fun first hf => ?_
    refine (ih hr).bind fun others ho => .pure ?_
    rw [String.toList_append]
    exact hf.append ho

namespace Node

mutual

theorem satisfiesM_render (node : Node) (h : node.Inert) (s : Scope) :
    SatisfiesM (fun out => Balanced out.toList) (render evaluator node s) := by
  match node with
  | .element tag attributes children =>
    obtain ⟨⟨hne, hn⟩, ha, hc⟩ : IsTag tag ∧ attributes.Inert ∧ AllInert children := h
    rw [render]
    refine (attributes.render_followsTag evaluator ha s).bind fun head hh => ?_
    refine (satisfiesM_renderAll children hc s).bind fun content hb => .pure ?_
    have he := Balanced.element hne hn hh.flat hh.apart hb
    simpa [String.toList_append] using he
  | .text value =>
    rw [render]
    exact .pure (balanced_of_flat h)
  | .insertion source raw =>
    have hr : raw = false := h
    rw [render, hr]
    refine SatisfiesM.trivial.bind fun v _ => .pure ?_
    exact balanced_of_flat v.flat_escapedText
  | .statement code =>
    rw [render]
    exact SatisfiesM.trivial.bind fun _ _ => .pure balanced_nil
  | .loop head children =>
    have hc : AllInert children := h
    rw [render]
    refine SatisfiesM.trivial.bind fun v _ => ?_
    split
    · refine (satisfiesM_mapM (fun inner => satisfiesM_renderAll children hc inner) _).bind ?_
      exact fun texts ht => .pure (balanced_join ht)
    · exact .pure balanced_nil
  | .fragment children =>
    rw [render]
    exact satisfiesM_renderAll children h s
  | .decision branches =>
    rw [render]
    exact satisfiesM_renderFirst branches h s
  | .ifThen _ _ =>
    rw [render]
    exact .pure balanced_nil
  | .elseIf _ _ =>
    rw [render]
    exact .pure balanced_nil
  | .otherwise _ =>
    rw [render]
    exact .pure balanced_nil

theorem satisfiesM_renderAll (nodes : List Node) (h : AllInert nodes) (s : Scope) :
    SatisfiesM (fun out => Balanced out.toList) (renderAll evaluator nodes s) := by
  match nodes with
  | [] =>
    rw [renderAll]
    exact .pure balanced_nil
  | node :: rest =>
    obtain ⟨hn, hr⟩ : node.Inert ∧ AllInert rest := h
    rw [renderAll]
    refine (satisfiesM_render node hn s).bind fun first hf => ?_
    refine (satisfiesM_renderAll rest hr s).bind fun others ho => .pure ?_
    rw [String.toList_append]
    exact hf.append ho

theorem satisfiesM_renderFirst (branches : List Branch) (h : BranchesInert branches)
    (s : Scope) :
    SatisfiesM (fun out => Balanced out.toList) (renderFirst evaluator branches s) := by
  match branches with
  | [] =>
    rw [renderFirst]
    exact .pure balanced_nil
  | .mk .always children :: rest =>
    obtain ⟨hc, -⟩ : AllInert children ∧ BranchesInert rest := h
    rw [renderFirst]
    exact satisfiesM_renderAll children hc s
  | .mk (.holds condition) children :: rest =>
    obtain ⟨hc, hr⟩ : AllInert children ∧ BranchesInert rest := h
    rw [renderFirst]
    refine SatisfiesM.trivial.bind fun v _ => ?_
    split
    · exact satisfiesM_renderAll children hc s
    · exact satisfiesM_renderFirst rest hr s

end

/-- Whatever an evaluator answers and in any scope, every output of inert nodes consists of groups
and text without angle brackets, and its elements end in the reverse order of their starts. -/
theorem output_balanced {nodes : List Node} (h : AllInert nodes) (s : Scope) :
    SatisfiesM (fun out => ∃ gs, groups? out.toList = some gs ∧ open? [] gs = some [])
      (renderAll evaluator nodes s) := by
  have hb := satisfiesM_renderAll evaluator nodes h s
  exact hb.imp fun ho => balanced_iff.1 ho

end Node

end

/-- An evaluator to which every expression is a text that looks like the end of an element. -/
def Evaluator.closing : Evaluator Id := fun _ _ => pure (.ok (.string "</p>"))

/-- The text is escaped as content and in an attribute. -/
theorem Node.output_balanced_closing :
    AllInert [.element "p" [("title", .expr "x" false)] [.insertion "x" false, .text "/p"]] ∧
      ∃ gs, groups? (Id.run (renderAll Evaluator.closing
          [.element "p" [("title", .expr "x" false)] [.insertion "x" false, .text "/p"]]
          Scope.empty)).toList = some gs ∧ open? [] gs = some [] := by
  have htag : IsTag "p" := by decide
  have htext : Flat "/p".toList := by decide
  have hattributes : Attributes.Inert [("title", .expr "x" false)] := by
    intro a ha
    rw [List.mem_singleton.1 ha]
    exact ⟨by decide, rfl⟩
  have h : AllInert
      [.element "p" [("title", .expr "x" false)] [.insertion "x" false, .text "/p"]] :=
    ⟨⟨htag, hattributes, rfl, htext, trivial⟩, trivial⟩
  have hb := output_balanced Evaluator.closing h Scope.empty
  rw [SatisfiesM_Id_eq] at hb
  exact ⟨h, hb⟩

end IndentMarkup
