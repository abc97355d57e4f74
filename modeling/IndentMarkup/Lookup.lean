import IndentMarkup.Render

/-!
# Evaluation by look-up

Instead of evaluating expressions, an evaluator may look their texts up: as names in the scope
first, and then in a table. This one also keeps a list of the texts it was asked for.
-/
namespace IndentMarkup

/-- The evaluator that looks texts up and notes them in the order in which it was asked. -/
def Evaluator.ofTable (table : Keyed Value) : Evaluator (StateM (List String)) :=
  fun text s => do
    modify fun asked => asked ++ [text]
    match (s.lookup text).or (table.get? text) with
    | some v => pure (.ok v)
    | none => pure (.error (.undefined text))

/-- The output of nodes whose expressions are looked up, and the texts that were asked for. -/
def renderFromTable (table : Keyed Value) (nodes : List Node) (s : Scope) :
    String × List String :=
  Id.run (StateT.run (Node.renderAll (Evaluator.ofTable table) nodes s) [])

end IndentMarkup
