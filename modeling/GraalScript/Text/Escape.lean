import GraalScript.Text.Invisible

/-! What literals stand for, the text of a quoted string and the value of a digit, and how texts are
shown between quotes, with everything unprintable written as an escape. -/
namespace GraalScript.Text

def unescapeChar (c : Char) : Char :=
  if c = 'n' then '\n'
  else if c = 't' then '\t'
  else if c = 'r' then '\r'
  else if c = '0' then '\x00'
  else c

/-- Resolves the escapes of `cs` behind the characters `done`, which are kept in reverse. A
backslash with nothing after it is dropped. -/
def unescapeOnto (done : List Char) : List Char → List Char
  | [] => done.reverse
  | [c] => if c = '\\' then done.reverse else (c :: done).reverse
  | c :: d :: cs =>
    if c = '\\' then unescapeOnto (unescapeChar d :: done) cs
      else unescapeOnto (c :: done) (d :: cs)

/-- What stands between the first and the last character of a literal. A literal whose ends are not
single bytes has nothing between them. -/
def betweenQuotes (literal : List Char) : List Char :=
  match literal with
  | [] => []
  | first :: rest =>
    match rest.getLast? with
    | none => []
    | some last => if first.utf8Size = 1 ∧ last.utf8Size = 1 then rest.dropLast else []

def unescape (literal : String) : String :=
  String.ofList (unescapeOnto [] (betweenQuotes literal.toList))

def digitValue (c : Char) : Nat :=
  if c.isDigit then c.toNat - '0'.toNat
  else if c.isLower then c.toNat - 'a'.toNat + 10
  else c.toNat - 'A'.toNat + 10

def codeEscape (c : Char) : List Char :=
  ['\\', 'u', '\x7b'] ++ Nat.toDigits 16 c.toNat ++ ['\x7d']

def escapeChar (quote c : Char) : List Char :=
  if c = '\x00' then ['\\', '0']
  else if c = '\t' then ['\\', 't']
  else if c = '\r' then ['\\', 'r']
  else if c = '\n' then ['\\', 'n']
  else if c = '\\' ∨ c = quote then ['\\', c]
  else if ' ' ≤ c ∧ c ≤ '~' then [c]
  else if isInvisible c then codeEscape c
  else [c]

def quoteWith (quote : Char) (cs : List Char) : String :=
  String.ofList (quote :: cs.flatMap (escapeChar quote) ++ [quote])

def quotedChar (c : Char) : String := quoteWith '\'' [c]

def quoted (s : String) : String := quoteWith '"' s.toList

end GraalScript.Text
