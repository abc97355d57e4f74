import IndentMarkup.Proofs.Decision.Runs
import IndentMarkup.Proofs.Outline.Composition
import IndentMarkup.Proofs.Program.Generation
import IndentMarkup.Proofs.Source.Directives

/-!
# Templates put together

The template of two sources, one behind the other, gives the output of the first and then that of
the second, unless the second goes on with a decision of the first. The template of a source behind
the line of a loop gives the output of the source once for each item, in a scope of its own. Both
back ends agree, so it is enough to look at one.
-/
namespace IndentMarkup

/-- Whether a line goes on with a decision in front of it. -/
def Line.continuesRun (line : Line) : Bool :=
  match Directive.ofTrimmed line.text with
  | .elseIf _ => true
  | .otherwise => true
  | _ => false

namespace Node

theorem continuesRun_withChildren (node : Node) (children : List Node) :
    (node.withChildren children).continuesRun = node.continuesRun := by
  cases node <;> rfl

theorem continuesRun_ofSegments (segments : List Segment) :
    (ofSegments segments).continuesRun = false := by
  unfold ofSegments
  split <;> rfl

end Node

namespace Opening

theorem continuesRun_merge (o : Opening) (pair : AttributePair) :
    (o.merge pair).node.continuesRun = o.node.continuesRun := by
  obtain ⟨node, shorthandClass⟩ := o
  cases node <;> rfl

theorem continuesRun_mergeAll (pairs : List AttributePair) (o : Opening) :
    (o.mergeAll pairs).node.continuesRun = o.node.continuesRun := by
  induction pairs generalizing o with
  | nil => rfl
  | cons pair rest ih =>
    have hm : o.mergeAll (pair :: rest) = (o.merge pair).mergeAll rest := rfl
    rw [hm, ih, continuesRun_merge]

theorem continuesRun_close (o : Opening) (pairs : List AttributePair) (nodes : List Node) :
    (o.close pairs nodes).continuesRun = o.node.continuesRun := by
  rw [close, Node.continuesRun_withChildren, continuesRun_mergeAll]

theorem continuesRun_ofLine (fallbackTag : String) (line : Line) :
    (ofLine fallbackTag line).node.continuesRun = line.continuesRun := by
  unfold ofLine Line.continuesRun
  cases Directive.ofTrimmed line.text with
  | text segments => exact Node.continuesRun_ofSegments segments
  | _ => rfl

end Opening

/-- The first node of a source is the one that its first line opens. -/
theorem Outline.continuesRun_of_mem_head?_read {fallbackTag source : String} {node : Node}
    (h : node ∈ (read fallbackTag source).head?) :
    ∃ line ∈ (Line.ofSource source).head?, node.continuesRun = line.continuesRun := by
  rw [read, ofLines_eq_body] at h
  cases hl : Line.ofSource source with
  | nil =>
    rw [hl, body] at h
    cases h
  | cons line rest =>
    refine ⟨line, rfl, ?_⟩
    rw [← Opening.continuesRun_ofLine fallbackTag]
    by_cases hc : (Opening.ofLine fallbackTag line).node.isContainer = true
    · rw [hl, body_of_container rfl hc] at h
      cases h
      exact Opening.continuesRun_close _ _ _
    · rw [hl, body_of_leaf rfl hc] at h
      cases h
      rfl

namespace Engine

variable (engine : Engine)

theorem render_nil (s : Scope) : engine.render [] s = "" := by
  rw [render, Node.renderAll]
  rfl

theorem render_cons (node : Node) (rest : List Node) (s : Scope) :
    engine.render (node :: rest) s =
      Id.run (Node.render engine.evaluator node s) ++ engine.render rest s := by
  rw [render, Node.renderAll]
  rfl

theorem render_append (nodes after : List Node) (s : Scope) :
    engine.render (nodes ++ after) s = engine.render nodes s ++ engine.render after s := by
  induction nodes with
  | nil => rw [List.nil_append, render_nil, String.empty_append]
  | cons node rest ih => rw [List.cons_append, render_cons, render_cons, ih, String.append_assoc]

/-- A loop gives what is in it once for each item. -/
theorem render_loop (head : LoopHead) (children : List Node) (s : Scope) :
    engine.render [.loop head children] s =
      match engine.evaluate head.source s with
      | .ok (.array items) => String.join (items.zipIdx.map fun p =>
          engine.render children (s.round head.item head.index p.1 p.2))
      | _ => "" := by
  rw [render_cons, render_nil, String.append_empty, Node.run_render_loop, valueOr]
  cases hv : engine.evaluate head.source s with
  | error fault => rfl
  | ok v =>
    cases v with
    | array items =>
      dsimp only
      rw [Scope.rounds, List.map_map]
      rfl
    | _ => rfl

end Engine

namespace Template

variable {fallbackTag : String}

theorem renderOn_eq (source : String) (backend : Backend) (engine : Engine) (s : Scope) :
    (compile fallbackTag source).renderOn backend engine s =
      engine.render (Node.lowered (Outline.read fallbackTag source)) s := by
  cases backend with
  | treeWalk => rfl
  | generated => exact Program.render_ofNodes (allNamed_compile fallbackTag source) engine s

theorem renderOn_append {source after : String}
    (h : ∀ line ∈ (Line.ofSource after).head?, line.indent = 0)
    (hr : ∀ line ∈ (Line.ofSource after).head?, line.continuesRun = false)
    (backend : Backend) (engine : Engine) (s : Scope) :
    (compile fallbackTag (source ++ "\n" ++ after)).renderOn backend engine s =
      (compile fallbackTag source).renderOn backend engine s ++
        (compile fallbackTag after).renderOn backend engine s := by
  have hn : ∀ node ∈ (Outline.read fallbackTag after).head?, node.continuesRun = false := by
    intro node hm
    obtain ⟨line, hl, he⟩ := Outline.continuesRun_of_mem_head?_read hm
    rw [he]
    exact hr line hl
  rw [renderOn_eq, renderOn_eq, renderOn_eq, Outline.read_append fallbackTag h,
    Node.lowered_append hn, Engine.render_append]

theorem renderOn_loop {head margin : String} {loop : LoopHead}
    (h : Outline.IsHead fallbackTag head) (hm : Outline.IsMargin margin)
    (ho : (Outline.opening fallbackTag head).node = .loop loop []) (source : String)
    (backend : Backend) (engine : Engine) (s : Scope) :
    (compile fallbackTag (head ++ "\n" ++ Outline.indented margin source)).renderOn backend engine
        s =
      match engine.evaluate loop.source s with
      | .ok (.array items) => String.join (items.zipIdx.map fun p =>
          (compile fallbackTag source).renderOn backend engine
            (s.round loop.item loop.index p.1 p.2))
      | _ => "" := by
  have he : (Outline.opening fallbackTag head).isElement = true →
      Forest.NoAttributes fallbackTag (Line.ofSource source) := by
    intro he
    rw [Opening.isElement, ho] at he
    cases he
  have hl : Node.lowered [.loop loop (Outline.read fallbackTag source)] =
      [.loop loop (Node.lowered (Outline.read fallbackTag source))] := by
    rw [Node.lowered, Node.lowerAll_eq_map, List.map_singleton, Node.lower,
      Node.foldRuns_of_ne_ifThen (fun _ _ h => by cases h), Node.foldRuns_nil]
    rfl
  simp only [renderOn_eq]
  rw [Outline.read_nested h hm he, ho]
  exact (congrArg (fun nodes => engine.render nodes s) hl).trans (engine.render_loop _ _ s)

end Template

/-- The line of a loop is read as one. -/
theorem Outline.opening_loop (fallbackTag : String) {loop : LoopHead} (hn : loop.isNamed = true)
    (hs : Text.OneLine loop.source.toList) :
    IsHead fallbackTag ("- for " ++ loop.bindings ++ " in " ++ loop.source) ∧
      (opening fallbackTag ("- for " ++ loop.bindings ++ " in " ++ loop.source)).node =
        .loop loop [] := by
  have hp : Node.Printable false (.loop loop []) := .loop hn hs .nil
  have hl : ("- for " ++ loop.bindings ++ " in " ++ loop.source).toList =
      Node.line (.loop loop []) := by
    simp [Node.line, String.toList_append]
  have ht : Line.ofText (Node.line (.loop loop [])) = ⟨0, Node.line (.loop loop [])⟩ :=
    Line.ofText_append (b := []) (by simp) (Node.oneLine_line hp)
  have ho : (opening fallbackTag ("- for " ++ loop.bindings ++ " in " ++ loop.source)).node =
      .loop loop [] := by
    rw [opening, hl, ht, Opening.ofLine, Node.ofTrimmed_line hp]
    rfl
  refine ⟨⟨?_, ?_, ?_⟩, ho⟩
  · rw [hl]
    exact (Node.oneLine_line hp).unbroken
  · rw [hl]
    exact congrArg Line.indent ht
  · rw [ho]
    rfl

/-- Sources put together give templates put together. Behind a source, one that begins without an
indentation adds its nodes, and its output unless its first line goes on with a decision. Behind the
line of a container, a source with a margin gives the children of the container, where an element
must not take lines of it for attributes. Behind the line of a loop it gives its output once for
each item, and nothing if there is no array. -/
theorem Template.sources_compose (fallbackTag : String) :
    (∀ source after : String, (∀ line ∈ (Line.ofSource after).head?, line.indent = 0) →
      Outline.read fallbackTag (source ++ "\n" ++ after) =
        Outline.read fallbackTag source ++ Outline.read fallbackTag after ∧
      ((∀ line ∈ (Line.ofSource after).head?, line.continuesRun = false) →
        ∀ (backend : Backend) (engine : Engine) (s : Scope),
          (compile fallbackTag (source ++ "\n" ++ after)).renderOn backend engine s =
            (compile fallbackTag source).renderOn backend engine s ++
              (compile fallbackTag after).renderOn backend engine s)) ∧
    (∀ head margin source : String, Outline.IsHead fallbackTag head → Outline.IsMargin margin →
      ((Outline.opening fallbackTag head).isElement = true →
        Forest.NoAttributes fallbackTag (Line.ofSource source)) →
      Outline.read fallbackTag (head ++ "\n" ++ Outline.indented margin source) =
        [(Outline.opening fallbackTag head).node.withChildren
          ((Outline.opening fallbackTag head).node.children ++
            Outline.read fallbackTag source)]) ∧
    (∀ (head margin source : String) (loop : LoopHead), Outline.IsHead fallbackTag head →
      Outline.IsMargin margin → (Outline.opening fallbackTag head).node = .loop loop [] →
      ∀ (backend : Backend) (engine : Engine) (s : Scope),
        (compile fallbackTag (head ++ "\n" ++ Outline.indented margin source)).renderOn backend
            engine s =
          match engine.evaluate loop.source s with
          | .ok (.array items) => String.join (items.zipIdx.map fun p =>
              (compile fallbackTag source).renderOn backend engine
                (s.round loop.item loop.index p.1 p.2))
          | _ => "") ∧
    (∀ loop : LoopHead, loop.isNamed = true → Text.OneLine loop.source.toList →
      Outline.IsHead fallbackTag ("- for " ++ loop.bindings ++ " in " ++ loop.source) ∧
        (Outline.opening fallbackTag ("- for " ++ loop.bindings ++ " in " ++ loop.source)).node =
          .loop loop []) := by
  refine ⟨?_, ?_, ?_, ?_⟩
  · intro source after h
    exact ⟨Outline.read_append fallbackTag h source, renderOn_append h⟩
  · intro head margin source h hm ha
    exact Outline.read_nested h hm ha
  · intro head margin source loop h hm ho
    exact renderOn_loop h hm ho source
  · intro loop hn hs
    exact Outline.opening_loop fallbackTag hn hs

/-- A decision behind another one, a line with an attribute of its own in an element, and a loop
over two items. -/
theorem Template.sources_compose_list :
    (compile "div" ("- if x\n  a" ++ "\n" ++ "- if y\n  b")).renderOn .generated Engine.empty
        Scope.empty =
      (compile "div" "- if x\n  a").renderOn .generated Engine.empty Scope.empty ++
        (compile "div" "- if y\n  b").renderOn .generated Engine.empty Scope.empty ∧
    Outline.read "div" ("%ul id=\"a\"" ++ "\n" ++ Outline.indented "  " "%li\n  id=\"b\"") =
      [.element "ul" [("id", .literal "a")] (Outline.read "div" "%li\n  id=\"b\"")] ∧
    (compile "div" ("- for v, i in xs" ++ "\n" ++ Outline.indented "\t" "= v")).renderOn
        .treeWalk Engine.empty (.ofValue (.object [("xs", .array [.string "a", .null])])) =
      String.join [
        (compile "div" "= v").renderOn .treeWalk Engine.empty
          (.round (.ofValue (.object [("xs", .array [.string "a", .null])])) "v" (some "i")
            (.string "a") 0),
        (compile "div" "= v").renderOn .treeWalk Engine.empty
          (.round (.ofValue (.object [("xs", .array [.string "a", .null])])) "v" (some "i")
            .null 1)] := by
  obtain ⟨hsequence, hnesting, hloop, hline⟩ := sources_compose "div"
  refine ⟨?_, ?_, ?_⟩
  · exact (hsequence "- if x\n  a" "- if y\n  b" (by decide)).2 (by decide) _ _ _
  · have hn : Forest.NoAttributes "div" (Line.ofSource "%li\n  id=\"b\"") := by
      intro j hj hp
      have hl : (Line.ofSource "%li\n  id=\"b\"").length = 2 := by decide
      obtain rfl | rfl : j = 0 ∨ j = 1 := by omega
      · decide +kernel
      · have hs : Forest.parent? "div" (Line.ofSource "%li\n  id=\"b\"") 1 = some 0 := by rfl
        rw [hs] at hp
        cases hp
    have hr := hnesting "%ul id=\"a\"" "  " _ ⟨by decide, by decide, by decide +kernel⟩ (by decide)
      fun _ => hn
    have ho : (Outline.opening "div" "%ul id=\"a\"").node =
        .element "ul" [("id", .literal "a")] [] := by with_unfolding_all rfl
    rw [hr, ho]
    rfl
  · have hh : "- for " ++ LoopHead.bindings ⟨"v", some "i", "xs"⟩ ++ " in " ++ "xs" =
        "- for v, i in xs" := by decide
    have hv : Engine.empty.evaluate "xs"
        (.ofValue (.object [("xs", .array [.string "a", .null])])) =
          .ok (.array [.string "a", .null]) := by with_unfolding_all rfl
    obtain ⟨hi, ho⟩ := hline ⟨"v", some "i", "xs"⟩ (by decide) (by decide)
    have hr := hloop _ "\t" "= v" _ hi (by decide) ho .treeWalk Engine.empty
      (.ofValue (.object [("xs", .array [.string "a", .null])]))
    dsimp only at hr
    rw [hh, hv] at hr
    exact hr

end IndentMarkup
