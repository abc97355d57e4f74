import IndentMarkup.Expr.Token
import IndentMarkup.Number.Layout
import IndentMarkup.Value.Basic

/-!
# Errors of expressions

Why the text of an expression cannot be read, and why an expression has no value. A template never
shows these errors; whoever evaluates an expression directly sees their messages.
-/
namespace IndentMarkup

/-- Why a text is no expression. -/
inductive SyntaxFault where
  | badInput (offset : Nat)
  | unexpected (token : Token) (offset : Nat)
  | ended
  deriving Repr, DecidableEq

def SyntaxFault.message : SyntaxFault → String
  | .badInput offset => "unexpected input at offset " ++ offset.repr
  | .unexpected token offset => "unexpected " ++ token.shown ++ " at offset " ++ offset.repr
  | .ended => "unexpected end of expression"

/-- Why an expression has no value. -/
inductive EvalError where
  | malformed (source : String) (fault : SyntaxFault)
  | undefined (name : String)
  | memberOfNull (name : String)
  | elementOfNull (position : String)
  | wrongArgumentCount (function : String)
  | notNumeric (kind : Kind)
  | notFinite (result : Float)
  | unknownFunction (name : String)
  | failed (function : String) (reason : String)

/-- A text between backticks. -/
def ticked (s : String) : String := "\x60" ++ s ++ "\x60"

def EvalError.message : EvalError → String
  | .malformed source fault => "syntax error in " ++ ticked source ++ ": " ++ fault.message
  | .undefined name => ticked name ++ " is not defined"
  | .memberOfNull name => "type error: cannot read property " ++ ticked name ++ " of null"
  | .elementOfNull position => "type error: cannot index null with " ++ ticked position
  | .wrongArgumentCount function => "type error: wrong number of arguments to " ++ ticked function
  | .notNumeric kind => "arithmetic error: " ++ kind.text ++ " is not a number"
  | .notFinite result => "arithmetic error: result is " ++ Number.shortestText result
  | .unknownFunction name => "unknown function " ++ ticked name
  | .failed function reason => "function " ++ ticked function ++ " failed: " ++ reason

end IndentMarkup
