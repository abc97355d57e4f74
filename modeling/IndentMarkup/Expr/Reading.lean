import IndentMarkup.Expr.Error
import IndentMarkup.Expr.Lexer
import IndentMarkup.Expr.Parser

/-!
# The expression of a text

A text is read as an expression by reading its tokens first and then the expression they spell. A
fault tells the offset of the token at which reading failed.
-/
namespace IndentMarkup

/-- The fault of tokens that cannot be read from some point on: the first of the tokens left over,
where it stands in the source. -/
def SyntaxFault.ofRest (lexemes : List Lexeme) (rest : List Token) : SyntaxFault :=
  match lexemes.drop (lexemes.length - rest.length) with
  | [] => .ended
  | l :: _ => .unexpected l.token l.start

def Expr.read (source : String) : Except SyntaxFault Expr :=
  match tokenize source with
  | .error offset => .error (.badInput offset)
  | .ok lexemes =>
    match Parser.whole (lexemes.map Lexeme.token) with
    | .error rest => .error (.ofRest lexemes rest)
    | .ok e => .ok e

def isExpression (source : String) : Bool := (Expr.read source).isOk

end IndentMarkup
