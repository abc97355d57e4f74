import IndentMarkup.Program
import IndentMarkup.Proofs.Expr.Composition

/-!
# What a program is read as

The translation of nodes is the expression that their program is meant to be, made from the nodes
and from the expressions of the texts in them, without a program text in between. Reading the
program gives exactly the translation, as long as the variables of every loop are identifiers.
-/
namespace IndentMarkup

def Expr.ofSource? (source : String) : Option Expr := (Expr.read source).toOption

/-- An expression with a constant in its place where it has no value. -/
def Expr.orElse (e : Expr) (fallback : Constant) : Expr := .call "try" [e, .constant fallback]

/-- A part of the output of nodes: text as it stands, or the text of an expression. -/
inductive Term where
  | text (s : String)
  | expr (e : Expr)

namespace Term

def literal (s : String) : List Expr := if s = "" then [] else [.constant (.string s)]

/-- The operands of the sum of some terms, behind text that is still to be joined with what follows.
-/
def operands (pending : String) : List Term → List Expr
  | [] => literal pending
  | .text s :: rest => operands (pending ++ s) rest
  | .expr e :: rest => literal pending ++ e :: operands "" rest

/-- The sum of some terms: one chain, a single operand, or the empty text. -/
def sum (terms : List Term) : Expr :=
  match operands "" terms with
  | [] => .constant (.string "")
  | first :: rest => .ofOperands first (rest.map fun e => (.add, e))

/-- The term of an attribute, unless its expression cannot be read. -/
def ofAttribute (key : String) : AttrValue → List Term
  | .literal value => [.text (Html.keyValue key value)]
  | .expr source raw =>
    (Expr.ofSource? source).toList.map fun e =>
      .expr (.call (if raw then "raw_attr" else "attr")
        [.constant (.string key), e.orElse (.bool false)])

def ofAttributes (attributes : Attributes) : List Term :=
  attributes.flatMap fun a => ofAttribute a.1 a.2

end Term

/-- Whether the variables of a loop are identifiers. -/
def LoopHead.isNamed (head : LoopHead) : Bool :=
  Text.isIdentifier head.item.toList && head.index.all fun index => Text.isIdentifier index.toList

namespace Node

mutual

/-- Whether the variables of every loop in a node are identifiers. -/
def isNamed : Node → Bool
  | .element _ _ children => allNamed children
  | .text _ => true
  | .insertion _ _ => true
  | .statement _ => true
  | .ifThen _ children => allNamed children
  | .elseIf _ children => allNamed children
  | .otherwise children => allNamed children
  | .loop head children => head.isNamed && allNamed children
  | .fragment children => allNamed children
  | .decision branches => branchesNamed branches

def allNamed : List Node → Bool
  | [] => true
  | node :: rest => isNamed node && allNamed rest

def branchesNamed : List Branch → Bool
  | [] => true
  | .mk _ children :: rest => allNamed children && branchesNamed rest

end

@[simp] theorem allNamed_nil : allNamed [] = true := by rw [allNamed]

@[simp] theorem allNamed_cons (node : Node) (rest : List Node) :
    allNamed (node :: rest) = (isNamed node && allNamed rest) := by rw [allNamed]

theorem allNamed_eq_all (nodes : List Node) : allNamed nodes = nodes.all isNamed := by
  induction nodes with
  | nil => rw [allNamed_nil, List.all_nil]
  | cons node nodes ih => rw [allNamed_cons, ih, List.all_cons]

@[simp] theorem allNamed_append (nodes rest : List Node) :
    allNamed (nodes ++ rest) = (allNamed nodes && allNamed rest) := by
  rw [allNamed_eq_all, allNamed_eq_all, allNamed_eq_all, List.all_append]

theorem isNamed_of_mem {nodes : List Node} {node : Node} (h : allNamed nodes = true)
    (hm : node ∈ nodes) : isNamed node = true := by
  rw [allNamed_eq_all, List.all_eq_true] at h
  exact h node hm

mutual

def terms : Node → List Term
  | .element tag attributes children =>
    .text ("<" ++ tag) :: Term.ofAttributes attributes ++ .text ">" :: termsAll children ++
      [.text ("</" ++ tag ++ ">")]
  | .text value => [.text value]
  | .insertion source raw =>
    (Expr.ofSource? source).toList.map fun e =>
      .expr (.call (if raw then "str" else "escape") [e.orElse .null])
  | .statement code =>
    (Expr.ofSource? code).toList.map fun e => .expr (.call "discard" [e])
  | .loop head children =>
    (Expr.ofSource? head.source).toList.map fun e =>
      .expr (.loop head.item head.index (e.orElse .null) (Term.sum (termsAll children)))
  | .fragment children => termsAll children
  | .decision branches => [.expr (choice branches)]
  | .ifThen _ _ => []
  | .elseIf _ _ => []
  | .otherwise _ => []

def termsAll : List Node → List Term
  | [] => []
  | node :: rest => terms node ++ termsAll rest

/-- The nested conditions of the branches of a decision. -/
def choice : List Branch → Expr
  | [] => .constant (.string "")
  | .mk .always children :: _ => Term.sum (termsAll children)
  | .mk (.holds condition) children :: rest =>
    match Expr.ofSource? condition with
    | some e => .cond (e.orElse (.bool false)) (Term.sum (termsAll children)) (choice rest)
    | none => choice rest

end

/-- The expression that the program of nodes is meant to be. -/
def translation (nodes : List Node) : Expr := Term.sum (termsAll nodes)

end Node

inductive Piece.Means : Piece → Term → Prop
  | text {s : String} : Means (.text s) (.text s)
  | code {s : String} {e : Expr} (h : Expr.IsOperand s e) : Means (.code s) (.expr e)

theorem Expr.ofSource?_eq_some_iff {source : String} {e : Expr} :
    Expr.ofSource? source = some e ↔ Expr.read source = .ok e := by
  unfold Expr.ofSource?
  cases Expr.read source with
  | error fault => constructor <;> (intro h; cases h)
  | ok f => constructor <;> (intro h; cases h; rfl)

theorem isExpression_of_ofSource? {source : String} {e : Expr}
    (h : Expr.ofSource? source = some e) : isExpression source = true := by
  rw [isExpression, Expr.ofSource?_eq_some_iff.1 h]
  rfl

theorem isExpression_of_ofSource?_eq_none {source : String} (h : Expr.ofSource? source = none) :
    isExpression source = false := by
  unfold Expr.ofSource? at h
  unfold isExpression
  cases hr : Expr.read source with
  | error fault => rfl
  | ok e =>
    rw [hr] at h
    cases h

theorem spells_builtIn {n : String} (h : n ∈ Engine.builtIns) :
    Lexer.Spells n.toList [.ident n] := by
  simp only [Engine.builtIns, List.mem_cons, List.not_mem_nil, or_false] at h
  rcases h with h | h | h | h | h | h <;> (rw [h]; exact Lexer.Spells.word (by decide))

namespace Term

theorem literal_of_isOperand (s : String) :
    List.Forall₂ Expr.IsOperand (Piece.literal s) (literal s) := by
  unfold Piece.literal literal
  split
  · exact .nil
  · exact .cons (Expr.isOperand_quote s) .nil

/-- What is pending goes into the next literal on both sides. -/
theorem operands_of_means {pieces : List Piece} {terms : List Term}
    (h : List.Forall₂ Piece.Means pieces terms) (pending : String) :
    List.Forall₂ Expr.IsOperand (Piece.operands pending pieces) (operands pending terms) := by
  induction h generalizing pending with
  | nil => exact literal_of_isOperand pending
  | cons hm _ ih =>
    cases hm with
    | text => exact ih _
    | code he => exact List.rel_append (literal_of_isOperand pending) (.cons he (ih ""))

/-- The concatenation of pieces is read as the sum of the terms. -/
theorem read_concatenation {pieces : List Piece} {terms : List Term}
    (h : List.Forall₂ Piece.Means pieces terms) :
    Expr.read (Piece.concatenation pieces) = .ok (sum terms) := by
  have ho := operands_of_means h ""
  unfold Piece.concatenation sum
  cases hp : Piece.operands "" pieces with
  | nil =>
    rw [hp] at ho
    cases ht : operands "" terms with
    | nil => exact (Expr.isOperand_quote "").read
    | cons e es =>
      rw [ht] at ho
      cases ho
  | cons s sources =>
    rw [hp] at ho
    cases ht : operands "" terms with
    | nil =>
      rw [ht] at ho
      cases ho
    | cons e es =>
      rw [ht] at ho
      cases ho with
      | cons hs hr => exact Expr.read_sum hs hr

end Term

section

variable {source : String} {e : Expr} (h : Expr.read source = .ok e)
include h

theorem Expr.isOperand_orElse_null :
    Expr.IsOperand ("try((" ++ source ++ "), null)") (e.orElse .null) := by
  have ho := Expr.isOperand_call_pair (spells_builtIn (n := "try") (by decide))
    (Expr.isOperand_parens h).read Expr.isOperand_null.read
  simpa [Expr.IsOperand, Expr.orElse] using ho

theorem Expr.isOperand_orElse_false :
    Expr.IsOperand ("try((" ++ source ++ "), false)") (e.orElse (.bool false)) := by
  have ho := Expr.isOperand_call_pair (spells_builtIn (n := "try") (by decide))
    (Expr.isOperand_parens h).read Expr.isOperand_false.read
  simpa [Expr.IsOperand, Expr.orElse] using ho

theorem Expr.isOperand_insertion {n : String} (hn : n ∈ Engine.builtIns) :
    Expr.IsOperand (n ++ "(try((" ++ source ++ "), null))") (.call n [e.orElse .null]) := by
  have ho := Expr.isOperand_call (spells_builtIn hn) (Expr.isOperand_orElse_null h).read
  simpa [Expr.IsOperand] using ho

theorem Expr.isOperand_statement :
    Expr.IsOperand ("discard(" ++ source ++ ")") (.call "discard" [e]) := by
  have ho := Expr.isOperand_call (spells_builtIn (n := "discard") (by decide)) h
  simpa [Expr.IsOperand] using ho

theorem Expr.isOperand_attribute {n : String} (hn : n ∈ Engine.builtIns) (key : String) :
    Expr.IsOperand (n ++ "(" ++ Text.quote key ++ ", try((" ++ source ++ "), false))")
      (.call n [.constant (.string key), e.orElse (.bool false)]) := by
  have ho := Expr.isOperand_call_pair (spells_builtIn hn) (Expr.isOperand_quote key).read
    (Expr.isOperand_orElse_false h).read
  simpa [Expr.IsOperand] using ho

theorem Expr.read_guarded {s t : String} {f g : Expr} (hs : Expr.read s = .ok f)
    (ht : Expr.read t = .ok g) :
    Expr.read ("try((" ++ source ++ "), false) ? " ++ s ++ " : " ++ t) =
      .ok (.cond (e.orElse (.bool false)) f g) := by
  have hq := Expr.read_choice (Expr.isOperand_orElse_false h) hs ht
  have he : "try((" ++ source ++ "), false) ? " ++ s ++ " : " ++ t =
      "try((" ++ source ++ "), false)" ++ " ? " ++ s ++ " : " ++ t := by
    rw [← String.toList_inj]
    simp
  rw [he]
  exact hq

end

theorem LoopHead.bindings_of_isNamed {head : LoopHead} (h : head.isNamed = true) :
    ∃ ts, Lexer.Spells head.bindings.toList ts ∧ Grammar.Bindings ts head.item head.index := by
  obtain ⟨item, index, source⟩ := head
  simp only [LoopHead.isNamed, Bool.and_eq_true] at h
  have hi := Lexer.Spells.word h.1
  have hn := Lexer.name?_wordToken item.toList
  rw [String.ofList_toList] at hn
  cases index with
  | none => exact ⟨_, hi, .one (Grammar.name_iff.2 hn)⟩
  | some index =>
    have hx := Lexer.Spells.word (w := index.toList) h.2
    have hm := Lexer.name?_wordToken index.toList
    rw [String.ofList_toList] at hm
    refine ⟨_, ?_, .two (Grammar.name_iff.2 hn) (Grammar.name_iff.2 hm)⟩
    have hc : Lexer.Spells (',' :: ' ' :: index.toList) _ :=
      .symbol .comma (by decide) (.space rfl hx)
    have hw := hi.append (Lexer.endsToken_cons rfl _) hc
    simpa [LoopHead.bindings] using hw

theorem Expr.isOperand_loop_of_isNamed {head : LoopHead} {body : String} {e f : Expr}
    (hn : head.isNamed = true) (h : Expr.read head.source = .ok e) (h' : Expr.read body = .ok f) :
    Expr.IsOperand ("for (" ++ head.bindings ++ " in try((" ++ head.source ++ "), null)) \x7b " ++
      body ++ " \x7d") (.loop head.item head.index (e.orElse .null) f) := by
  obtain ⟨ts, hs, hb⟩ := LoopHead.bindings_of_isNamed hn
  have ho := Expr.isOperand_loop hs hb (Expr.isOperand_orElse_null h).read h'
  simpa [Expr.IsOperand] using ho

/-- A piece with an expression in it is left out together with its term. -/
theorem Piece.means_of_source {source code : String} {f : Expr → Expr}
    (h : ∀ e, Expr.read source = .ok e → Expr.IsOperand code (f e)) :
    List.Forall₂ Piece.Means (if isExpression source then [.code code] else [])
      ((Expr.ofSource? source).toList.map fun e => .expr (f e)) := by
  cases hs : Expr.ofSource? source with
  | none =>
    rw [isExpression_of_ofSource?_eq_none hs]
    exact .nil
  | some e =>
    rw [isExpression_of_ofSource? hs]
    exact .cons (.code (h e (Expr.ofSource?_eq_some_iff.1 hs))) .nil

theorem Piece.means_ofAttribute (key : String) (value : AttrValue) :
    List.Forall₂ Piece.Means (Piece.ofAttribute key value) (Term.ofAttribute key value) := by
  cases value with
  | literal text => exact .cons .text .nil
  | expr source raw =>
    rw [Piece.ofAttribute, Term.ofAttribute]
    exact Piece.means_of_source fun e he =>
      Expr.isOperand_attribute he (by cases raw <;> decide) key

theorem Piece.means_ofAttributes (attributes : Attributes) :
    List.Forall₂ Piece.Means (Piece.ofAttributes attributes) (Term.ofAttributes attributes) := by
  unfold Piece.ofAttributes Term.ofAttributes
  induction attributes with
  | nil => exact .nil
  | cons a attributes ih =>
    rw [List.flatMap_cons, List.flatMap_cons]
    exact List.rel_append (Piece.means_ofAttribute a.1 a.2) ih

namespace Node

mutual

theorem means_pieces (node : Node) (h : node.isNamed = true) :
    List.Forall₂ Piece.Means (pieces node) (terms node) := by
  match node with
  | .element tag attributes children =>
    rw [isNamed] at h
    rw [pieces, terms]
    refine List.rel_append ?_ (.cons .text .nil)
    refine List.rel_append (.cons .text (Piece.means_ofAttributes attributes)) ?_
    exact .cons .text (means_piecesAll children h)
  | .text value =>
    rw [pieces, terms]
    exact .cons .text .nil
  | .insertion source raw =>
    rw [pieces, terms]
    exact Piece.means_of_source fun e he =>
      Expr.isOperand_insertion he (by cases raw <;> decide)
  | .statement code =>
    rw [pieces, terms]
    exact Piece.means_of_source fun e he => Expr.isOperand_statement he
  | .loop head children =>
    rw [isNamed, Bool.and_eq_true] at h
    rw [pieces, terms]
    have hb := Term.read_concatenation (means_piecesAll children h.2)
    exact Piece.means_of_source fun e he => Expr.isOperand_loop_of_isNamed h.1 he hb
  | .fragment children =>
    rw [isNamed] at h
    rw [pieces, terms]
    exact means_piecesAll children h
  | .decision branches =>
    rw [isNamed] at h
    rw [pieces, terms]
    exact .cons (.code (Expr.isOperand_parens (read_alternatives branches h))) .nil
  | .ifThen _ _ =>
    rw [pieces, terms]
    exact .nil
  | .elseIf _ _ =>
    rw [pieces, terms]
    exact .nil
  | .otherwise _ =>
    rw [pieces, terms]
    exact .nil

theorem means_piecesAll (nodes : List Node) (h : allNamed nodes = true) :
    List.Forall₂ Piece.Means (piecesAll nodes) (termsAll nodes) := by
  match nodes with
  | [] =>
    rw [piecesAll, termsAll]
    exact .nil
  | node :: rest =>
    rw [allNamed, Bool.and_eq_true] at h
    rw [piecesAll, termsAll]
    exact List.rel_append (means_pieces node h.1) (means_piecesAll rest h.2)

theorem read_alternatives (branches : List Branch) (h : branchesNamed branches = true) :
    Expr.read (alternatives branches) = .ok (choice branches) := by
  match branches with
  | [] =>
    rw [alternatives, choice]
    exact (Expr.isOperand_quote "").read
  | .mk .always children :: rest =>
    rw [branchesNamed, Bool.and_eq_true] at h
    rw [alternatives, choice]
    exact Term.read_concatenation (means_piecesAll children h.1)
  | .mk (.holds condition) children :: rest =>
    rw [branchesNamed, Bool.and_eq_true] at h
    rw [alternatives, choice]
    have hr := read_alternatives rest h.2
    cases hs : Expr.ofSource? condition with
    | none =>
      rw [isExpression_of_ofSource?_eq_none hs]
      exact hr
    | some e =>
      rw [isExpression_of_ofSource? hs, if_pos rfl]
      have hb := Term.read_concatenation (means_piecesAll children h.1)
      exact Expr.read_guarded (Expr.ofSource?_eq_some_iff.1 hs) hb hr

end

/-- The program of nodes is read as their translation. -/
theorem read_program_of_allNamed {nodes : List Node} (h : allNamed nodes = true) :
    Expr.read (program nodes) = .ok (translation nodes) :=
  Term.read_concatenation (means_piecesAll nodes h)

end Node

end IndentMarkup
