import IndentMarkup.Text.Hex

/-!
# Quoted text

A quoted text is written between double quotes. The quote, the backslash and the control
characters below the space are escaped; the five with a letter of their own use it, and the others
are written as a four-digit hexadecimal code. Everything else stands for itself.
-/
namespace IndentMarkup.Text

/-- The written form of one character inside quotes. -/
def escapeQuoted (c : Char) : List Char :=
  if c = '"' then ['\\', '"']
  else if c = '\\' then ['\\', '\\']
  else if c = '\n' then ['\\', 'n']
  else if c = '\r' then ['\\', 'r']
  else if c = '\t' then ['\\', 't']
  else if c = '\x08' then ['\\', 'b']
  else if c = '\x0c' then ['\\', 'f']
  else if c.toNat < 0x20 then
    ['\\', 'u', '0', '0', hexDigit (c.toNat / 16), hexDigit (c.toNat % 16)]
  else [c]

def escapeAll (s : List Char) : List Char := s.flatMap escapeQuoted

def quoteChars (s : List Char) : List Char := '"' :: (escapeAll s ++ ['"'])

/-- The text between double quotes. -/
def quote (s : String) : String := String.ofList (quoteChars s.toList)

@[simp] theorem escapeAll_nil : escapeAll [] = [] := rfl

@[simp] theorem escapeAll_cons (c : Char) (s : List Char) :
    escapeAll (c :: s) = escapeQuoted c ++ escapeAll s := by
  simp [escapeAll]

@[simp] theorem toList_quote (s : String) : (quote s).toList = quoteChars s.toList := by
  simp [quote]

end IndentMarkup.Text
