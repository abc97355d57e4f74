import IndentMarkup.Expr.Basic
import IndentMarkup.Text.Visible

/-!
# Tokens

The tokens of the expression language: keywords, names, numbers, texts and symbols. A number token
keeps its spelling; a text token holds the text that was meant, its escapes decoded.
-/
namespace IndentMarkup

/-- Words that are no names. -/
inductive Keyword where
  | true
  | false
  | null
  | undefined
  | loop
  | within
  deriving Repr, DecidableEq

def Keyword.text : Keyword → String
  | .true => "true"
  | .false => "false"
  | .null => "null"
  | .undefined => "undefined"
  | .loop => "for"
  | .within => "in"

def Keyword.all : List Keyword := [.true, .false, .null, .undefined, .loop, .within]

/-- Punctuation and operators. -/
inductive Symbol where
  | lParen | rParen | lBracket | rBracket | lBrace | rBrace
  | comma | colon | dot | question
  | bang | plus | minus | star | slash | percent
  | lt | le | gt | ge | eq | ne | strictEq | strictNe
  | and | or
  deriving Repr, DecidableEq

def Symbol.text : Symbol → String
  | .lParen => "("
  | .rParen => ")"
  | .lBracket => "["
  | .rBracket => "]"
  | .lBrace => "\x7b"
  | .rBrace => "\x7d"
  | .comma => ","
  | .colon => ":"
  | .dot => "."
  | .question => "?"
  | .bang => "!"
  | .plus => "+"
  | .minus => "-"
  | .star => "*"
  | .slash => "/"
  | .percent => "%"
  | .lt => "<"
  | .le => "<="
  | .gt => ">"
  | .ge => ">="
  | .eq => "=="
  | .ne => "!="
  | .strictEq => "==="
  | .strictNe => "!=="
  | .and => "&&"
  | .or => "||"

/-- The symbols, longer spellings before the shorter ones they begin with. -/
def Symbol.all : List Symbol :=
  [.strictEq, .strictNe, .le, .ge, .eq, .ne, .and, .or, .lParen, .rParen, .lBracket, .rBracket,
    .lBrace, .rBrace, .comma, .colon, .dot, .question, .bang, .plus, .minus, .star, .slash,
    .percent, .lt, .gt]

def Symbol.binaryOp? : Symbol → Option BinaryOp
  | .plus => some .add
  | .minus => some .sub
  | .star => some .mul
  | .slash => some .div
  | .percent => some .rem
  | .lt => some .lt
  | .le => some .le
  | .gt => some .gt
  | .ge => some .ge
  | .eq => some .eq
  | .ne => some .ne
  | .strictEq => some .strictEq
  | .strictNe => some .strictNe
  | .and => some .and
  | .or => some .or
  | _ => none

def Symbol.unaryOp? : Symbol → Option UnaryOp
  | .bang => some .not
  | .minus => some .neg
  | _ => none

inductive Token where
  | keyword (k : Keyword)
  | ident (name : String)
  | number (spelling : String)
  | str (text : String)
  | symbol (s : Symbol)
  deriving Repr, DecidableEq

namespace Token

/-- The word for the kind of a token, by which messages call it. -/
def kindName : Token → String
  | .keyword .true => "True"
  | .keyword .false => "False"
  | .keyword .null => "Null"
  | .keyword .undefined => "Undefined"
  | .keyword .loop => "For"
  | .keyword .within => "In"
  | .ident _ => "Ident"
  | .number _ => "Number"
  | .str _ => "Str"
  | .symbol .lParen => "LParen"
  | .symbol .rParen => "RParen"
  | .symbol .lBracket => "LBracket"
  | .symbol .rBracket => "RBracket"
  | .symbol .lBrace => "LBrace"
  | .symbol .rBrace => "RBrace"
  | .symbol .comma => "Comma"
  | .symbol .colon => "Colon"
  | .symbol .dot => "Dot"
  | .symbol .question => "Question"
  | .symbol .bang => "Bang"
  | .symbol .plus => "Plus"
  | .symbol .minus => "Minus"
  | .symbol .star => "Star"
  | .symbol .slash => "Slash"
  | .symbol .percent => "Percent"
  | .symbol .lt => "Lt"
  | .symbol .le => "Le"
  | .symbol .gt => "Gt"
  | .symbol .ge => "Ge"
  | .symbol .eq => "Eq"
  | .symbol .ne => "Ne"
  | .symbol .strictEq => "StrictEq"
  | .symbol .strictNe => "StrictNe"
  | .symbol .and => "And"
  | .symbol .or => "Or"

/-- The text that a token carries, if its kind carries one. -/
def content? : Token → Option String
  | .ident name => some name
  | .number spelling => some spelling
  | .str text => some text
  | _ => none

/-- A character as messages show it between quotes. -/
def shownChar (c : Char) : List Char :=
  if c = '"' then ['\\', '"']
  else if c = '\\' then ['\\', '\\']
  else if c = '\n' then ['\\', 'n']
  else if c = '\r' then ['\\', 'r']
  else if c = '\t' then ['\\', 't']
  else if c.toNat = 0 then ['\\', '0']
  else if Text.isVisible c then [c]
  else '\\' :: 'u' :: '{' :: (Nat.toDigits 16 c.toNat ++ ['}'])

def shown (t : Token) : String :=
  match t.content? with
  | some text =>
    t.kindName ++ "(\"" ++ String.ofList (text.toList.flatMap shownChar) ++ "\")"
  | none => t.kindName

/-- The name that a token stands for where keywords may be names too. -/
def name? : Token → Option String
  | .ident name => some name
  | .keyword k => some k.text
  | _ => none

/-- The key of an object that a token stands for: a name, a text or a number as it is spelled. -/
def key? : Token → Option String
  | .number spelling => some spelling
  | .str text => some text
  | t => t.name?

end Token

/-- A token where it stands in a source: the offsets of its first byte and of the byte behind it. -/
structure Lexeme where
  token : Token
  start : Nat
  stop : Nat
  deriving Repr, DecidableEq

end IndentMarkup
