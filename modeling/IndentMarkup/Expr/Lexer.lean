import IndentMarkup.Expr.Token
import IndentMarkup.Text.Blank
import IndentMarkup.Text.Hex
import IndentMarkup.Text.Identifier
import IndentMarkup.Text.Start

/-!
# Reading tokens

At each place the longest possible token is taken. Names and numbers run as far as they can, and a
number takes a fraction or an exponent only with digits in it. A text stands between two quotes of a
kind; between double or single quotes a backslash escapes the character behind it, which must not be
a line feed, and between backticks every character stands for itself. Spaces, tabs, form feeds and
line ends between tokens are skipped.
-/
namespace IndentMarkup

namespace Lexer

/-- A character that separates tokens. -/
def isSpace (c : Char) : Bool :=
  c == ' ' || c == '\t' || c == '\r' || c == '\n' || c == '\x0c'

/-- The digits a text begins with, at least one, and what follows them. -/
def splitDigits? (s : List Char) : Option (List Char × List Char) :=
  match s.takeWhile Char.isDigit with
  | [] => none
  | digits => some (digits, s.dropWhile Char.isDigit)

/-- The fraction a text begins with, if it begins with one, and what follows. -/
def splitFraction (s : List Char) : List Char × List Char :=
  match s with
  | '.' :: r =>
    match splitDigits? r with
    | some (digits, rest) => ('.' :: digits, rest)
    | none => ([], s)
  | _ => ([], s)

def splitSign (s : List Char) : List Char × List Char :=
  match s with
  | '+' :: r => (['+'], r)
  | '-' :: r => (['-'], r)
  | _ => ([], s)

def splitExponent (s : List Char) : List Char × List Char :=
  match s with
  | c :: r =>
    if c = 'e' ∨ c = 'E' then
      match splitDigits? (splitSign r).2 with
      | some (digits, rest) => (c :: ((splitSign r).1 ++ digits), rest)
      | none => ([], s)
    else ([], s)
  | [] => ([], s)

def splitNumber? (s : List Char) : Option (List Char × List Char) :=
  (splitDigits? s).map fun p =>
    let fraction := splitFraction p.2
    let exponent := splitExponent fraction.2
    (p.1 ++ fraction.1 ++ exponent.1, exponent.2)

/-- The text up to the quote that closes it, escapes left as they are, and what follows the quote.
-/
def splitQuoted? (quote : Char) : List Char → Option (List Char × List Char)
  | [] => none
  | c :: s =>
    if c = quote then some ([], s)
    else if c = '\\' then
      match s with
      | [] => none
      | d :: r =>
        if d = '\n' then none else (splitQuoted? quote r).map fun p => (c :: d :: p.1, p.2)
    else (splitQuoted? quote s).map fun p => (c :: p.1, p.2)

/-- The text up to the next backtick, and what follows the backtick. -/
def splitVerbatim? : List Char → Option (List Char × List Char)
  | [] => none
  | c :: s =>
    if c = '\x60' then some ([], s) else (splitVerbatim? s).map fun p => (c :: p.1, p.2)

/-- The character of a four-character code: hexadecimal digits, the first of which may be a plus
sign instead. A code that belongs to no character is refused. -/
def decodeCode? (a b c d : Char) : Option Char := do
  let n ← if a = '+' then Text.hexNumber? [b, c, d] else Text.hexNumber? [a, b, c, d]
  Text.charOfCode? n

/-- The character that a letter behind a backslash stands for. -/
def escaped (c : Char) : Char :=
  if c = 'n' then '\n'
  else if c = 't' then '\t'
  else if c = 'r' then '\r'
  else if c = 'b' then '\x08'
  else if c = 'f' then '\x0c'
  else if c = 'v' then '\x0b'
  else if c = '0' then '\x00'
  else c

/-- The text that was meant between quotes; none if it holds a code of no character. -/
def decode? : List Char → Option (List Char)
  | [] => some []
  | '\\' :: 'u' :: a :: b :: c :: d :: s => do
    let x ← decodeCode? a b c d
    let rest ← decode? s
    some (x :: rest)
  | '\\' :: c :: s => if c = 'u' then none else (decode? s).map (escaped c :: ·)
  | '\\' :: [] => none
  | c :: s => (decode? s).map (c :: ·)

def wordToken (s : List Char) : Token :=
  match Keyword.all.find? fun k => k.text.toList == s with
  | some k => .keyword k
  | none => .ident (String.ofList s)

/-- A token with its spelling, and the text behind it. -/
structure Scanned where
  token : Token
  spelling : List Char
  rest : List Char

def word? (s : List Char) : Option Scanned :=
  (Text.splitIdentifier? s).map fun p => ⟨wordToken p.1, p.1, p.2⟩

def number? (s : List Char) : Option Scanned :=
  (splitNumber? s).map fun p => ⟨.number (String.ofList p.1), p.1, p.2⟩

def quoted? : List Char → Option Scanned
  | [] => none
  | q :: s =>
    if q = '"' ∨ q = '\x27' then
      (splitQuoted? q s).bind fun p =>
        (decode? p.1).map fun t => ⟨.str (String.ofList t), q :: (p.1 ++ [q]), p.2⟩
    else if q = '\x60' then
      (splitVerbatim? s).map fun p => ⟨.str (String.ofList p.1), q :: (p.1 ++ [q]), p.2⟩
    else none

def symbol? (s : List Char) : Option Scanned :=
  Symbol.all.findSome? fun sym =>
    (Text.dropStart? sym.text.toList s).map fun r => ⟨.symbol sym, sym.text.toList, r⟩

/-- The longest token that a text begins with. The first character decides which kind it can be. -/
def token? (s : List Char) : Option Scanned :=
  match word? s with
  | some t => some t
  | none =>
    match number? s with
    | some t => some t
    | none =>
      match quoted? s with
      | some t => some t
      | none => symbol? s

theorem append_of_splitDigits? {s digits rest : List Char}
    (h : splitDigits? s = some (digits, rest)) : digits ≠ [] ∧ digits ++ rest = s := by
  unfold splitDigits? at h
  split at h
  · cases h
  · next hne =>
    cases h
    exact ⟨hne, List.takeWhile_append_dropWhile⟩

theorem append_of_splitFraction (s : List Char) :
    (splitFraction s).1 ++ (splitFraction s).2 = s := by
  unfold splitFraction
  split
  · next r =>
    split
    · next h => simp [(append_of_splitDigits? h).2]
    · rfl
  · rfl

theorem append_of_splitSign (s : List Char) : (splitSign s).1 ++ (splitSign s).2 = s := by
  unfold splitSign
  split <;> rfl

theorem append_of_splitExponent (s : List Char) :
    (splitExponent s).1 ++ (splitExponent s).2 = s := by
  unfold splitExponent
  split
  · next c r =>
    split
    · split
      · next h =>
        have hs := append_of_splitSign r
        rw [← (append_of_splitDigits? h).2] at hs
        simp [hs]
      · rfl
    · rfl
  · rfl

/-- A number is not empty, and together with what follows it makes up the text. -/
theorem append_of_splitNumber? {s n rest : List Char} (h : splitNumber? s = some (n, rest)) :
    n ≠ [] ∧ n ++ rest = s := by
  obtain ⟨⟨digits, r⟩, hd, e⟩ := Option.map_eq_some_iff.1 h
  cases e
  have hd' := append_of_splitDigits? hd
  have hf := append_of_splitFraction r
  have he := append_of_splitExponent (splitFraction r).2
  refine ⟨by simp [hd'.1], ?_⟩
  simp [he, hf, hd'.2]

theorem append_of_splitQuoted? {q : Char} {s b rest : List Char}
    (h : splitQuoted? q s = some (b, rest)) : b ++ q :: rest = s := by
  fun_induction splitQuoted? q s generalizing b with
  | case1 => cases h
  | case2 s => cases h; rfl
  | case3 => cases h
  | case4 => cases h
  | case5 r hq d hd ih =>
    obtain ⟨⟨b', r'⟩, hp, e⟩ := Option.map_eq_some_iff.1 h
    cases e
    simp [ih hp]
  | case6 c s hq hb ih =>
    obtain ⟨⟨b', r'⟩, hp, e⟩ := Option.map_eq_some_iff.1 h
    cases e
    simp [ih hp]

theorem append_of_splitVerbatim? {s b rest : List Char}
    (h : splitVerbatim? s = some (b, rest)) : b ++ '\x60' :: rest = s := by
  induction s generalizing b with
  | nil => cases h
  | cons c s ih =>
    rw [splitVerbatim?] at h
    split at h
    · next hc => cases h; simp [hc]
    · obtain ⟨⟨b', r'⟩, hp, e⟩ := Option.map_eq_some_iff.1 h
      cases e
      simp [ih hp]

/-- What was scanned is not empty, and together with what follows it makes up the text. -/
def Scanned.Splits (t : Scanned) (s : List Char) : Prop :=
  t.spelling ≠ [] ∧ t.spelling ++ t.rest = s

theorem splits_word? {s : List Char} {t : Scanned} (h : word? s = some t) : t.Splits s := by
  obtain ⟨p, hp, e⟩ := Option.map_eq_some_iff.1 h
  cases e
  have hs := Text.splitIdentifier?_spec hp
  refine ⟨fun hn => ?_, hs.2⟩
  have hn' : p.1 = [] := hn
  simp [hn', Text.isIdentifier] at hs

theorem splits_number? {s : List Char} {t : Scanned} (h : number? s = some t) : t.Splits s := by
  obtain ⟨p, hp, e⟩ := Option.map_eq_some_iff.1 h
  cases e
  exact append_of_splitNumber? hp

theorem splits_quoted? {s : List Char} {t : Scanned} (h : quoted? s = some t) : t.Splits s := by
  cases s with
  | nil => cases h
  | cons q s =>
    rw [quoted?] at h
    split at h
    · obtain ⟨p, hp, hd⟩ := Option.bind_eq_some_iff.1 h
      obtain ⟨u, _, e⟩ := Option.map_eq_some_iff.1 hd
      cases e
      refine ⟨by simp, ?_⟩
      simp [append_of_splitQuoted? hp]
    · split at h
      · next hq =>
        obtain ⟨p, hp, e⟩ := Option.map_eq_some_iff.1 h
        cases e
        refine ⟨by simp, ?_⟩
        subst hq
        simp [append_of_splitVerbatim? hp]
      · cases h

theorem splits_symbol? {s : List Char} {t : Scanned} (h : symbol? s = some t) : t.Splits s := by
  obtain ⟨sym, _, hs⟩ := List.exists_of_findSome?_eq_some h
  obtain ⟨r, hr, e⟩ := Option.map_eq_some_iff.1 hs
  cases e
  refine ⟨by cases sym <;> simp [Symbol.text], ?_⟩
  exact (Text.dropStart?_eq_some_iff.1 hr).symm

/-- A token is not empty, and together with what follows it makes up the text. -/
theorem splits_token? {s : List Char} {t : Scanned} (h : token? s = some t) : t.Splits s := by
  unfold token? at h
  split at h
  · next hw => cases h; exact splits_word? hw
  · split at h
    · next hn => cases h; exact splits_number? hn
    · split at h
      · next hq => cases h; exact splits_quoted? hq
      · exact splits_symbol? h

theorem length_rest_lt {s : List Char} {t : Scanned} (h : token? s = some t) :
    t.rest.length < s.length := by
  obtain ⟨hne, happ⟩ := splits_token? h
  rw [← happ, List.length_append]
  have := List.length_pos_iff.2 hne
  omega

/-- The tokens of a text that begins at the given offset, or the offset at which no token begins. -/
def scan (offset : Nat) (s : List Char) : Except Nat (List Lexeme) :=
  match s with
  | [] => .ok []
  | c :: r =>
    if isSpace c then scan (offset + c.utf8Size) r
    else
      match _h : token? (c :: r) with
      | none => .error offset
      | some t =>
        let stop := offset + Text.byteCount t.spelling
        (scan stop t.rest).map fun lexemes => ⟨t.token, offset, stop⟩ :: lexemes
termination_by s.length
decreasing_by
  · exact Nat.lt_succ_self _
  · exact length_rest_lt _h

end Lexer

/-- The tokens of a source, or the offset at which no token begins. -/
def tokenize (source : String) : Except Nat (List Lexeme) := Lexer.scan 0 source.toList

end IndentMarkup
