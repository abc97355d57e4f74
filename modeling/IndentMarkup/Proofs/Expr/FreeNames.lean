import IndentMarkup.Expr.Engine

/-!
# The names that an expression depends on

A name is free in an expression unless a loop around it binds it. The value of an expression, and
the error that it has instead, depends on a scope only through the values of its free names: scopes
may bind other names, and be nested, as they like. Evaluating a loop makes scopes that differ more
and more, but they still agree on what is free in its body.
-/
namespace IndentMarkup

def bindsName (item : String) (position : Option String) (name : String) : Bool :=
  name == item || position == some name

namespace Expr

mutual

/-- The names that are free in an expression. A loop binds its variables in its body only. -/
def freeNames : Expr → List String
  | .constant _ => []
  | .number _ => []
  | .var name => [name]
  | .array items => freeNamesAll items
  | .object entries => freeNamesEntries entries
  | .member target _ => freeNames target
  | .index target position => freeNames target ++ freeNames position
  | .call _ args => freeNamesAll args
  | .unary _ operand => freeNames operand
  | .chain first rest => freeNames first ++ freeNamesRest rest
  | .cond condition whenTrue whenFalse =>
    freeNames condition ++ (freeNames whenTrue ++ freeNames whenFalse)
  | .loop item position source body =>
    freeNames source ++ (freeNames body).filter fun name => !bindsName item position name

def freeNamesAll : List Expr → List String
  | [] => []
  | e :: rest => freeNames e ++ freeNamesAll rest

def freeNamesEntries : List (String × Expr) → List String
  | [] => []
  | (_, e) :: rest => freeNames e ++ freeNamesEntries rest

def freeNamesRest : List (BinaryOp × Expr) → List String
  | [] => []
  | (_, e) :: rest => freeNames e ++ freeNamesRest rest

end

end Expr

namespace Scope

/-- Scopes in which each of some names has the same value, or none. -/
def Agree (names : List String) (s t : Scope) : Prop :=
  ∀ name ∈ names, s.lookup name = t.lookup name

variable {s t : Scope}

theorem agree_append {names others : List String} :
    Agree (names ++ others) s t ↔ Agree names s t ∧ Agree others s t :=
  List.forall_mem_append

theorem Agree.of_subset {names others : List String} (h : Agree others s t)
    (hs : names ⊆ others) : Agree names s t :=
  fun name hm => h name (hs hm)

/-- In a round of a loop the variables of the loop hide what is bound around it, and the place hides
the item. -/
theorem lookup_round (s : Scope) (item : String) (position : Option String) (value : Value)
    (place : Nat) (name : String) :
    (s.round item position value place).lookup name =
      if position = some name then some (.int place)
      else if name = item then some value
      else s.lookup name := by
  have hitem : (s.child.bind item value).lookup name =
      if name = item then some value else s.lookup name := by
    by_cases hn : name = item
    · rw [hn, lookup_bind_self, if_pos rfl]
    · rw [lookup_bind_of_ne _ _ hn, lookup_child, if_neg hn]
  cases position with
  | none => simpa [round] using hitem
  | some index =>
    by_cases hi : index = name
    · simp [round, hi, lookup_bind_self]
    · simp [round, hi, lookup_bind_of_ne _ _ (Ne.symm hi), hitem]

/-- Rounds of a loop in scopes that agree on what the loop does not bind agree on all of it. -/
theorem Agree.round {names : List String} {item : String} {position : Option String}
    (h : Agree (names.filter fun name => !bindsName item position name) s t) (value : Value)
    (place : Nat) :
    Agree names (s.round item position value place) (t.round item position value place) := by
  intro name hm
  rw [lookup_round, lookup_round]
  by_cases hp : position = some name
  · rw [if_pos hp, if_pos hp]
  · by_cases hi : name = item
    · rw [if_neg hp, if_neg hp, if_pos hi, if_pos hi]
    · have hb : bindsName item position name = false := by simp [bindsName, hi, hp]
      have hl : s.lookup name = t.lookup name := h name (List.mem_filter.2 ⟨hm, by rw [hb]; rfl⟩)
      rw [if_neg hp, if_neg hp, if_neg hi, if_neg hi, hl]

/-- What depends on some names only is the same in the rounds of a loop in scopes that agree on
those of the names that the loop does not bind. -/
theorem map_rounds_congr {α : Type} {f : Scope → α} {names : List String} {item : String}
    {position : Option String} (hf : ∀ {s t : Scope}, Agree names s t → f s = f t)
    (h : Agree (names.filter fun name => !bindsName item position name) s t)
    (items : List Value) :
    (s.rounds item position items).map f = (t.rounds item position items).map f := by
  rw [rounds, rounds, List.map_map, List.map_map]
  apply List.map_congr_left
  intro p _
  exact hf (h.round p.1 p.2)

end Scope

namespace Engine

open Scope

variable (engine : Engine)

mutual

/-- Scopes that agree on the free names of an expression give it the same value, or the same error.
-/
theorem eval_congr (e : Expr) {s t : Scope} (h : Agree e.freeNames s t) :
    engine.eval e s = engine.eval e t := by
  match e with
  | .constant c => rw [eval, eval]
  | .number x => rw [eval, eval]
  | .var name =>
    have hl : s.lookup name = t.lookup name := h name (List.mem_singleton_self name)
    rw [eval, eval, hl]
  | .array items =>
    rw [eval, eval, evalAll_congr items h]
  | .object entries =>
    rw [eval, eval, evalEntries_congr entries h]
  | .member target name =>
    rw [eval, eval, eval_congr target h]
  | .index target position =>
    obtain ⟨ht, hp⟩ := agree_append.1 h
    rw [eval, eval, eval_congr target ht, eval_congr position hp]
  | .call name args =>
    rw [eval, eval, evalAll_congr args h]
  | .unary op operand =>
    rw [eval, eval, eval_congr operand h]
  | .chain first rest =>
    obtain ⟨hf, hr⟩ := agree_append.1 h
    have hv : ∀ v, engine.evalRest v rest s = engine.evalRest v rest t :=
      fun v => evalRest_congr v rest hr
    rw [eval, eval, eval_congr first hf]
    simp only [hv]
  | .cond condition whenTrue whenFalse =>
    obtain ⟨hc, hb⟩ := agree_append.1 h
    obtain ⟨ht, hf⟩ := agree_append.1 hb
    rw [eval, eval, eval_congr condition hc, eval_congr whenTrue ht, eval_congr whenFalse hf]
  | .loop item position source body =>
    obtain ⟨hs, hb⟩ := agree_append.1 h
    have hr : ∀ items, (s.rounds item position items).map (fun inner => engine.eval body inner) =
        (t.rounds item position items).map fun inner => engine.eval body inner :=
      map_rounds_congr (fun hst => eval_congr body hst) hb
    rw [eval, eval, eval_congr source hs]
    simp only [hr]

theorem evalAll_congr (es : List Expr) {s t : Scope} (h : Agree (Expr.freeNamesAll es) s t) :
    engine.evalAll es s = engine.evalAll es t := by
  match es with
  | [] => rw [evalAll, evalAll]
  | e :: rest =>
    obtain ⟨he, hr⟩ := agree_append.1 h
    rw [evalAll, evalAll, eval_congr e he, evalAll_congr rest hr]

theorem evalEntries_congr (entries : List (String × Expr)) {s t : Scope}
    (h : Agree (Expr.freeNamesEntries entries) s t) :
    engine.evalEntries entries s = engine.evalEntries entries t := by
  match entries with
  | [] => rw [evalEntries, evalEntries]
  | (k, e) :: rest =>
    obtain ⟨he, hr⟩ := agree_append.1 h
    rw [evalEntries, evalEntries, eval_congr e he, evalEntries_congr rest hr]

theorem evalRest_congr (left : Value) (rest : List (BinaryOp × Expr)) {s t : Scope}
    (h : Agree (Expr.freeNamesRest rest) s t) :
    engine.evalRest left rest s = engine.evalRest left rest t := by
  match rest with
  | [] => rw [evalRest, evalRest]
  | (op, e) :: rest =>
    obtain ⟨he, hr⟩ := agree_append.1 h
    have hv : ∀ v, engine.evalRest v rest s = engine.evalRest v rest t :=
      fun v => evalRest_congr v rest hr
    rw [evalRest, evalRest, eval_congr e he]
    simp only [hv]

end

end Engine

end IndentMarkup
