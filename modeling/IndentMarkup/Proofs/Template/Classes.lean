import IndentMarkup.Proofs.Attribute.Containment
import IndentMarkup.Proofs.Attribute.Unification
import IndentMarkup.Proofs.Template.Composition

/-!
# The classes of a head in the output

The start tag of an element whose head has classes carries a class attribute that begins with them,
whatever class is defined behind the head, as long as that class needs no value or has one. The
classes and the class behind them are one expression, so when the class cannot be evaluated the
whole attribute is left out, the classes of the head with it.
-/
namespace IndentMarkup

namespace Keyed

variable {α : Type}

/-- Where a key stands among entries with different keys. -/
theorem exists_of_get? {entries : Keyed α} {key : String} {value : α}
    (h : entries.get? key = some value) (hn : (entries.map Prod.fst).Nodup) :
    ∃ front back, entries = front ++ (key, value) :: back ∧ key ∉ front.map Prod.fst ∧
      key ∉ back.map Prod.fst := by
  induction entries with
  | nil => cases h
  | cons e rest ih =>
    obtain ⟨k, v⟩ := e
    rw [List.map_cons, List.nodup_cons] at hn
    rw [get?_cons] at h
    split at h
    · next hk =>
      cases h
      subst hk
      exact ⟨[], rest, rfl, List.not_mem_nil, hn.1⟩
    · next hk =>
      obtain ⟨front, back, rfl, hf, hb⟩ := ih h hn.2
      refine ⟨(k, v) :: front, back, rfl, ?_, hb⟩
      rw [List.map_cons, List.mem_cons, not_or]
      exact ⟨Ne.symm hk, hf⟩

end Keyed

namespace Node

theorem allNamed_of_mem_branches {branches : List Branch} {branch : Branch}
    (h : branchesNamed branches = true) (hm : branch ∈ branches) :
    allNamed branch.children = true := by
  induction branches with
  | nil => cases hm
  | cons first rest ih =>
    obtain ⟨guard, children⟩ := first
    rw [branchesNamed, Bool.and_eq_true] at h
    rcases List.mem_cons.1 hm with rfl | hm
    · exact h.1
    · exact ih h.2 hm

theorem allNamed_of_mem_bodies {node : Node} {body : List Node} (h : isNamed node = true)
    (hb : body ∈ node.bodies) : allNamed body = true := by
  cases node with
  | decision branches =>
    obtain ⟨branch, hm, rfl⟩ := List.mem_map.1 hb
    rw [isNamed] at h
    exact allNamed_of_mem_branches h hm
  | text value => cases hb
  | insertion source raw => cases hb
  | statement code => cases hb
  | loop head children =>
    rw [List.mem_singleton.1 hb]
    rw [isNamed, Bool.and_eq_true] at h
    exact h.2
  | _ =>
    rw [List.mem_singleton.1 hb]
    rwa [isNamed] at h

/-- Loops are named properly at every depth. -/
theorem Level.allNamed {nodes level : List Node} (h : Level nodes level)
    (hn : allNamed nodes = true) : Node.allNamed level = true := by
  induction h with
  | top => exact hn
  | inside _ hm hb ih => exact allNamed_of_mem_bodies (isNamed_of_mem ih hm) hb

end Node

namespace Engine

variable (engine : Engine) (s : Scope)

theorem run_render_cons (key : String) (value : AttrValue) (rest : Attributes) :
    Id.run (Attributes.render engine.evaluator s ((key, value) :: rest)) =
      Id.run (value.render engine.evaluator key s) ++
        Id.run (Attributes.render engine.evaluator s rest) := rfl

theorem run_render_append (attributes others : Attributes) :
    Id.run (Attributes.render engine.evaluator s (attributes ++ others)) =
      Id.run (Attributes.render engine.evaluator s attributes) ++
        Id.run (Attributes.render engine.evaluator s others) := by
  induction attributes with
  | nil => exact String.empty_append.symm
  | cons pair rest ih =>
    obtain ⟨key, value⟩ := pair
    rw [List.cons_append, run_render_cons, run_render_cons, ih, String.append_assoc]

theorem render_element (tag : String) (attributes : Attributes) (children : List Node) :
    engine.render [.element tag attributes children] s =
      "<" ++ tag ++ Id.run (attributes.render engine.evaluator s) ++ ">" ++
        engine.render children s ++ "</" ++ tag ++ ">" := by
  rw [render_cons, render_nil, String.append_empty, Node.render]
  rfl

end Engine

theorem Template.renderOn_of_allNamed {nodes : List Node} (h : Node.allNamed nodes = true)
    (backend : Backend) (engine : Engine) (s : Scope) :
    Template.renderOn ⟨nodes⟩ backend engine s = engine.render nodes s := by
  cases backend with
  | treeWalk => rfl
  | generated => exact Program.render_ofNodes h engine s

namespace Html

/-- The text is a class attribute with these classes, and perhaps others behind them. -/
def CarriesClasses (out classes : String) : Prop :=
  ∃ more, (more = "" ∨ ∃ others, more = " " ++ others) ∧
    out = keyValue "class" (classes ++ more)

theorem escape_append (s t : String) : escape (s ++ t) = escape s ++ escape t := by
  apply String.toList_injective
  simp

theorem carriesClasses_self (classes : String) :
    CarriesClasses (keyValue "class" classes) classes :=
  ⟨"", .inl rfl, by rw [String.append_empty]⟩

theorem carriesClasses_others (classes others : String) :
    CarriesClasses (keyValue "class" (classes ++ " " ++ others)) classes :=
  ⟨" " ++ others, .inr ⟨others, rfl⟩, by rw [String.append_assoc]⟩

end Html

namespace AttrValue

/-- The definition of a class, if there is one, needs no value or has one in the scope. -/
def HasValue (engine : Engine) (s : Scope) : Option AttrValue → Prop
  | some (.expr source _) => ∃ v, engine.evaluate source s = .ok v
  | _ => True

/-- The classes of a head as they are written in front of a class. An expression is escaped unless
it is marked as raw. -/
def writtenClasses (classes : String) : Option AttrValue → String
  | some (.expr _ false) => Html.escape classes
  | _ => classes

theorem isExpression_of_evaluate {engine : Engine} {source : String} {s : Scope} {v : Value}
    (h : engine.evaluate source s = .ok v) : isExpression source = true := by
  cases hr : Expr.read source with
  | ok e => exact isExpression_iff.2 ⟨e, hr⟩
  | error fault =>
    rw [Engine.evaluate, hr] at h
    cases h

theorem carriesClasses_withClass (classes : String) (v : Value) (source : String) (raw : Bool) :
    Html.CarriesClasses ((Value.string (withClass classes v)).asAttribute "class" raw)
      (writtenClasses classes (some (.expr source raw))) := by
  have ha : ∀ text : String, (Value.string text).asAttribute "class" raw =
      Html.keyValue "class" (if raw then text else Html.escape text) := fun _ => rfl
  have he : Html.escape (classes ++ " " ++ v.text) =
      Html.escape classes ++ " " ++ Html.escape v.text := by
    rw [Html.escape_append, Html.escape_append]
    rfl
  rw [ha, withClass]
  cases raw <;> cases v.isTruthy
  case false.false => exact Html.carriesClasses_self _
  case true.false => exact Html.carriesClasses_self classes
  case true.true => exact Html.carriesClasses_others classes v.text
  case false.true =>
    have ho := Html.carriesClasses_others (Html.escape classes) (Html.escape v.text)
    rwa [← he] at ho

section

variable {engine : Engine} {s : Scope} {definition : Option AttrValue}

theorem carriesClasses_render (h : HasValue engine s definition) (classes : String) :
    Html.CarriesClasses
      (Id.run ((behindClasses classes definition).render engine.evaluator "class" s))
      (writtenClasses classes definition) := by
  match definition with
  | none => exact Html.carriesClasses_self classes
  | some (.literal text) => exact Html.carriesClasses_others classes text
  | some (.expr source raw) =>
    obtain ⟨v, hv⟩ := h
    have hj : engine.evaluate (joinedClass classes source) s =
        .ok (.string (withClass classes v)) := by
      rw [(joinedClass_means classes (isExpression_of_evaluate hv)).2, hv]
      rfl
    rw [behindClasses, engine.run_render_expr, Engine.valueOr, hj]
    exact carriesClasses_withClass classes v source raw

/-- A class without a value takes the classes of the head with it. A text that cannot be read must
keep to the parentheses around it, so that what it becomes part of cannot be read either. -/
theorem render_of_not_hasValue (h : ¬ HasValue engine s definition)
    (hc : ∀ source raw, definition = some (.expr source raw) → Contained source)
    (classes : String) :
    Id.run ((behindClasses classes definition).render engine.evaluator "class" s) = "" := by
  match definition with
  | none => exact (h trivial).elim
  | some (.literal text) => exact (h trivial).elim
  | some (.expr source raw) =>
    cases hs : isExpression source with
    | true =>
      have hj := (joinedClass_means classes hs).2 engine s
      cases hv : engine.evaluate source s with
      | ok v => exact (h ⟨v, hv⟩).elim
      | error fault =>
        rw [hv] at hj
        rw [behindClasses, engine.run_render_expr, Engine.valueOr, hj]
        rfl
    | false =>
      have hj : isExpression (joinedClass classes source) = false := by
        by_contra hj
        rw [Bool.not_eq_false] at hj
        rw [isExpression_of_joinedClass (hc source raw rfl) hj] at hs
        cases hs
      exact (omitted_of_rejected hj "class" raw).2 engine s

end

end AttrValue

/-- The class that is defined last behind the head of an element line, on this line or on one below
that continues its attributes. -/
def Forest.lastClass (fallbackTag : String) (lines : List Line) (j : Nat) (head : ElementHead) :
    Option AttrValue :=
  Keyed.last? (head.definitionsBehind (attributesBelow fallbackTag lines (some j))) "class"

open AttrValue in
/-- The element of a line whose head has classes has one class attribute. In the start tag that both
back ends give, it begins with the classes of the head, escaped if they are joined to an expression
that is not raw, provided that the class that is defined last behind the head needs no value or has
one. If that class has no value, and its text keeps to the parentheses around it, as every text does
that can be read, then the start tag has no class attribute. -/
theorem Template.startTag_classes (fallbackTag : String) {source : String} {j : Nat}
    {head : ElementHead} {classes : String} (hj : j < (Line.ofSource source).length)
    (hl : Directive.ofTrimmed (Forest.lineAt (Line.ofSource source) j).text = .element head)
    (hc : OpenElement.shorthandClass? head.classes = some classes) :
    ∃ level front value back children,
      Node.Level (Outline.read fallbackTag source) level ∧
      Forest.nodeAt fallbackTag (Line.ofSource source) j ∈ level ∧
      Forest.nodeAt fallbackTag (Line.ofSource source) j =
        .element (head.tag.getD fallbackTag) (front ++ ("class", value) :: back) children ∧
      "class" ∉ front.map Prod.fst ∧ "class" ∉ back.map Prod.fst ∧
      ∀ (backend : Backend) (engine : Engine) (s : Scope),
        renderOn ⟨[(Forest.nodeAt fallbackTag (Line.ofSource source) j).lower]⟩ backend engine s =
          "<" ++ head.tag.getD fallbackTag ++ Id.run (Attributes.render engine.evaluator s front) ++
            Id.run (value.render engine.evaluator "class" s) ++
            Id.run (Attributes.render engine.evaluator s back) ++ ">" ++
            engine.render (Node.lowered children) s ++ "</" ++ head.tag.getD fallbackTag ++ ">" ∧
        (HasValue engine s (Forest.lastClass fallbackTag (Line.ofSource source) j head) →
          Html.CarriesClasses (Id.run (value.render engine.evaluator "class" s))
            (writtenClasses classes
              (Forest.lastClass fallbackTag (Line.ofSource source) j head))) ∧
        (¬ HasValue engine s (Forest.lastClass fallbackTag (Line.ofSource source) j head) →
          (∀ text raw, Forest.lastClass fallbackTag (Line.ofSource source) j head =
            some (.expr text raw) → Contained text) →
          Id.run (value.render engine.evaluator "class" s) = "") := by
  obtain ⟨children, hn⟩ := Forest.nodeAt_of_element fallbackTag hl
  obtain ⟨level, hv, hm⟩ := Forest.exists_level_of_not_absorbed hj
    (Forest.attribute?_of_opens (Forest.opens_of_element fallbackTag hl))
  rw [← Forest.ofLines_eq_nodes] at hv
  have hu := head.unified_attributesWith
    (Forest.attributesBelow fallbackTag (Line.ofSource source) (some j))
  obtain ⟨front, back, he, hf, hb⟩ := Keyed.exists_of_get? (hu.classed classes hc) hu.distinct
  refine ⟨level, front, _, back, children, hv, hm, by rw [hn, he], hf, hb, ?_⟩
  intro backend engine s
  refine ⟨?_, fun h => carriesClasses_render h classes, fun h hp =>
    render_of_not_hasValue h hp classes⟩
  have hnamed := Node.isNamed_of_mem (hv.allNamed (Outline.allNamed_read fallbackTag source)) hm
  have hlower : Node.allNamed [(Forest.nodeAt fallbackTag (Line.ofSource source) j).lower] =
      true := by
    rw [Node.allNamed_cons, Node.isNamed_lower _ hnamed, Node.allNamed_nil]
    rfl
  rw [renderOn_of_allNamed hlower, hn, he, Node.lower, Engine.render_element,
    Engine.run_render_append, Engine.run_render_cons]
  simp only [String.append_assoc]
  rfl

/-- A class on a line below a child, behind a class in the block. -/
def classBelow : String :=
  ".btn\x7b class: \"x\" \x7d\n  text\n  class=\x7b\x7b kind \x7d\x7d\n"

theorem Template.startTag_classes_below :
    (0 < (Line.ofSource classBelow).length ∧
      Directive.ofTrimmed (Forest.lineAt (Line.ofSource classBelow) 0).text =
        .element ⟨none, ["btn"], none, "\x7b class: \"x\" \x7d"⟩ ∧
      OpenElement.shorthandClass? ["btn"] = some "btn") ∧
    ∃ front value back children, Forest.nodeAt "div" (Line.ofSource classBelow) 0 =
        .element "div" (front ++ ("class", value) :: back) children ∧
      ∀ (engine : Engine) (s : Scope),
        ((∃ v, engine.evaluate "kind" s = .ok v) →
          Html.CarriesClasses (Id.run (value.render engine.evaluator "class" s)) "btn") ∧
        ((¬ ∃ v, engine.evaluate "kind" s = .ok v) →
          Id.run (value.render engine.evaluator "class" s) = "") := by
  have hj : 0 < (Line.ofSource classBelow).length := by decide
  have hl : Directive.ofTrimmed (Forest.lineAt (Line.ofSource classBelow) 0).text =
      .element ⟨none, ["btn"], none, "\x7b class: \"x\" \x7d"⟩ := by decide +kernel
  have hc : OpenElement.shorthandClass? ["btn"] = some "btn" := by decide
  have hlast : Forest.lastClass "div" (Line.ofSource classBelow) 0
      ⟨none, ["btn"], none, "\x7b class: \"x\" \x7d"⟩ = some (.expr "kind" false) := by
    decide +kernel
  have he : Html.escape "btn" = "btn" := by decide
  have hk : isExpression "kind" = true := by decide +kernel
  obtain ⟨-, front, value, back, children, -, -, hn, -, -, hr⟩ :=
    startTag_classes "div" hj hl hc
  refine ⟨⟨hj, hl, hc⟩, front, value, back, children, hn, fun engine s => ?_⟩
  obtain ⟨-, hcarries, hnone⟩ := hr .treeWalk engine s
  rw [hlast] at hcarries hnone
  refine ⟨fun h => ?_, fun h => hnone h ?_⟩
  · rw [← he]
    exact hcarries h
  · rintro text raw ⟨⟩
    exact contained_of_isExpression hk

/-- A class without a value behind a class in the head leaves no class attribute. -/
theorem Template.startTag_classes_missing :
    Line.ofSource ".btn class=\x7b\x7b missing \x7d\x7d" =
        [⟨0, ".btn class=\x7b\x7b missing \x7d\x7d".toList⟩] ∧
      Directive.ofTrimmed ".btn class=\x7b\x7b missing \x7d\x7d".toList =
        .element ⟨none, ["btn"], none, " class=\x7b\x7b missing \x7d\x7d"⟩ ∧
      OpenElement.shorthandClass? ["btn"] = some "btn" ∧
      ∀ backend, (compile "div" ".btn class=\x7b\x7b missing \x7d\x7d").renderOn backend
        Engine.empty Scope.empty = "<div></div>" := by
  let line : Line := ⟨0, ".btn class=\x7b\x7b missing \x7d\x7d".toList⟩
  let head : ElementHead := ⟨none, ["btn"], none, " class=\x7b\x7b missing \x7d\x7d"⟩
  have hline : Line.ofSource ".btn class=\x7b\x7b missing \x7d\x7d" = [line] := by decide
  have hl : Directive.ofTrimmed line.text = .element head := by decide +kernel
  refine ⟨hline, hl, by decide, fun backend => ?_⟩
  have hread : Node.lowered (Outline.read "div" ".btn class=\x7b\x7b missing \x7d\x7d") =
      [.element "div" [("class", .behindClasses "btn" (some (.expr "missing" false)))] []] := by
    have ha : head.attributesWith [] =
        [("class", .behindClasses "btn" (some (.expr "missing" false)))] := by decide +kernel
    have hc : head.content = [] := by decide +kernel
    have ho : Opening.ofLine "div" line = _ := Opening.mergeAll_ofLine hl []
    have hk : Outline.continuation? false line.text = none := rfl
    rw [Outline.read, hline, Outline.ofLines_eq_body,
      Outline.body_of_container hk (by rw [ho]; rfl), ho, ha, hc]
    simp only [List.takeWhile_nil, List.dropWhile_nil, Outline.body]
    with_unfolding_all rfl
  have hr : Expr.read "missing" = .ok (.var "missing") := by with_unfolding_all rfl
  have hv : ¬ AttrValue.HasValue Engine.empty Scope.empty (some (.expr "missing" false)) := by
    rintro ⟨v, hv⟩
    rw [Engine.evaluate, hr] at hv
    cases hv
  have hnone := AttrValue.render_of_not_hasValue hv (fun text raw ht => by
    cases ht
    exact contained_of_isExpression (isExpression_iff.2 ⟨_, hr⟩)) "btn"
  rw [renderOn_eq, hread, Engine.render_element, Engine.run_render_cons, hnone, Engine.render_nil]
  rfl

end IndentMarkup
