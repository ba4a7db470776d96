/-! Tokens of the script language: reserved words, token kinds with their two spellings, positions
in a source text, and the span a token covers. -/
namespace GraalScript

inductive Keyword where
  | breakKw | caseKw | constKw | continueKw | defaultKw | elseKw | falseKw | forKw | functionKw
  | ifKw | inKw | newKw | nullKw | publicKw | returnKw | switchKw | trueKw | varKw | whileKw
  | withKw
  deriving DecidableEq, Repr

namespace Keyword

def all : List Keyword :=
  [breakKw, caseKw, constKw, continueKw, defaultKw, elseKw, falseKw, forKw, functionKw, ifKw,
   inKw, newKw, nullKw, publicKw, returnKw, switchKw, trueKw, varKw, whileKw, withKw]

def spelling : Keyword → String
  | breakKw => "break"
  | caseKw => "case"
  | constKw => "const"
  | continueKw => "continue"
  | defaultKw => "default"
  | elseKw => "else"
  | falseKw => "false"
  | forKw => "for"
  | functionKw => "function"
  | ifKw => "if"
  | inKw => "in"
  | newKw => "new"
  | nullKw => "null"
  | publicKw => "public"
  | returnKw => "return"
  | switchKw => "switch"
  | trueKw => "true"
  | varKw => "var"
  | whileKw => "while"
  | withKw => "with"

def label : Keyword → String
  | breakKw => "Break"
  | caseKw => "Case"
  | constKw => "Const"
  | continueKw => "Continue"
  | defaultKw => "Default"
  | elseKw => "Else"
  | falseKw => "False"
  | forKw => "For"
  | functionKw => "Function"
  | ifKw => "If"
  | inKw => "In"
  | newKw => "New"
  | nullKw => "Null"
  | publicKw => "Public"
  | returnKw => "Return"
  | switchKw => "Switch"
  | trueKw => "True"
  | varKw => "Var"
  | whileKw => "While"
  | withKw => "With"

def ofSpelling? (word : String) : Option Keyword :=
  all.find? fun k => k.spelling == word

theorem mem_all (k : Keyword) : k ∈ all := by
  cases k <;> decide

theorem spelling_injective {j k : Keyword} (h : j.spelling = k.spelling) : j = k := by
  cases j <;> cases k <;> first | rfl | exact absurd h (by decide)

theorem ofSpelling?_eq_some_iff {word : String} {k : Keyword} :
    ofSpelling? word = some k ↔ k.spelling = word := by
  constructor
  · intro h
    simpa using List.find?_some h
  · rintro rfl
    cases h : ofSpelling? k.spelling with
    | none =>
      have := List.find?_eq_none.mp h k (mem_all k)
      simp at this
    | some j =>
      have := List.find?_some h
      exact congrArg some (spelling_injective (by simpa using this))

end Keyword

inductive TokenKind where
  | plus | minus | star | slash | percent | caret | atSign | bang
  | eq | eqEq | bangEq | less | greater | lessEq | greaterEq
  | andAnd | orOr | pipe | plusPlus | minusMinus
  | plusEq | minusEq | starEq | slashEq | percentEq | atEq
  | question | colon | semicolon | comma | dot
  | leftParen | rightParen | leftBrace | rightBrace | leftBracket | rightBracket
  | int | float | str | ident
  | keyword (word : Keyword)
  | directive
  | eos
  deriving DecidableEq, Repr

namespace TokenKind

def text : TokenKind → String
  | plus => "+"
  | minus => "-"
  | star => "*"
  | slash => "/"
  | percent => "%"
  | caret => "^"
  | atSign => "@"
  | bang => "!"
  | eq => "="
  | eqEq => "=="
  | bangEq => "!="
  | less => "<"
  | greater => ">"
  | lessEq => "<="
  | greaterEq => ">="
  | andAnd => "&&"
  | orOr => "||"
  | pipe => "|"
  | plusPlus => "++"
  | minusMinus => "--"
  | plusEq => "+="
  | minusEq => "-="
  | starEq => "*="
  | slashEq => "/="
  | percentEq => "%="
  | atEq => "@="
  | question => "?"
  | colon => ":"
  | semicolon => ";"
  | comma => ","
  | dot => "."
  | leftParen => "("
  | rightParen => ")"
  | leftBrace => "\x7b"
  | rightBrace => "\x7d"
  | leftBracket => "["
  | rightBracket => "]"
  | int => "integer"
  | float => "float"
  | str => "string"
  | ident => "identifier"
  | keyword k => k.spelling
  | directive => "//#CLIENTSIDE"
  | eos => "end-of-source"

def label : TokenKind → String
  | plus => "Plus"
  | minus => "Minus"
  | star => "Star"
  | slash => "Slash"
  | percent => "Percent"
  | caret => "Caret"
  | atSign => "At"
  | bang => "Bang"
  | eq => "Eq"
  | eqEq => "EqEq"
  | bangEq => "BangEq"
  | less => "Less"
  | greater => "Greater"
  | lessEq => "LessEq"
  | greaterEq => "GreaterEq"
  | andAnd => "AndAnd"
  | orOr => "OrOr"
  | pipe => "Pipe"
  | plusPlus => "PlusPlus"
  | minusMinus => "MinusMinus"
  | plusEq => "PlusEq"
  | minusEq => "MinusEq"
  | starEq => "StarEq"
  | slashEq => "SlashEq"
  | percentEq => "PercentEq"
  | atEq => "AtEq"
  | question => "Question"
  | colon => "Colon"
  | semicolon => "Semicolon"
  | comma => "Comma"
  | dot => "Dot"
  | leftParen => "LeftParen"
  | rightParen => "RightParen"
  | leftBrace => "LeftBrace"
  | rightBrace => "RightBrace"
  | leftBracket => "LeftBracket"
  | rightBracket => "RightBracket"
  | int => "Int"
  | float => "Float"
  | str => "Str"
  | ident => "Ident"
  | keyword k => "Keyword(" ++ k.label ++ ")"
  | directive => "Directive"
  | eos => "EOS"

/-- Operators and punctuation, every spelling before the spellings that begin it. -/
def symbols : List TokenKind :=
  [plusPlus, plusEq, plus, minusMinus, minusEq, minus, starEq, star, slashEq, slash,
   percentEq, percent, atEq, atSign, eqEq, eq, bangEq, bang, lessEq, less, greaterEq, greater,
   andAnd, orOr, pipe, caret, question, colon, semicolon, comma, dot,
   leftParen, rightParen, leftBrace, rightBrace, leftBracket, rightBracket]

def all : List TokenKind :=
  symbols ++ [int, float, str, ident, directive, eos] ++ Keyword.all.map keyword

def ofText? (text : String) : Option TokenKind :=
  all.find? fun k => k.text == text

def isAssign : TokenKind → Bool
  | eq | plusEq | minusEq | starEq | slashEq | percentEq | atEq => true
  | _ => false

end TokenKind

/-- A place between two characters of a text: the bytes before it, its line counted from one, and
the characters before it on that line. -/
structure Pos where
  byte : Nat
  line : Nat
  column : Nat
  deriving DecidableEq, Repr

namespace Pos

def origin : Pos := ⟨0, 1, 0⟩

def next (p : Pos) (c : Char) : Pos :=
  if c = '\n' then ⟨p.byte + c.utf8Size, p.line + 1, 0⟩
  else ⟨p.byte + c.utf8Size, p.line, p.column + 1⟩

def advance (p : Pos) (cs : List Char) : Pos := cs.foldl next p

@[simp] theorem advance_nil (p : Pos) : p.advance [] = p := rfl

@[simp] theorem advance_cons (p : Pos) (c : Char) (cs : List Char) :
    p.advance (c :: cs) = (p.next c).advance cs := rfl

@[simp] theorem advance_append (p : Pos) (cs ds : List Char) :
    p.advance (cs ++ ds) = (p.advance cs).advance ds := List.foldl_append

end Pos

structure Span where
  start : Pos
  stop : Pos
  deriving DecidableEq, Repr

namespace Span

def length (s : Span) : Nat := s.stop.byte - s.start.byte

def isEmpty (s : Span) : Bool := s.start.byte == s.stop.byte

def startColumn (s : Span) : Nat := s.start.column + 1

/-- Column of the last character, counted from one; an empty span ends where it starts. -/
def endColumn (s : Span) : Nat := if s.isEmpty then s.startColumn else s.stop.column

end Span

structure Token where
  kind : TokenKind
  text : String
  span : Span
  deriving DecidableEq, Repr

namespace Token

def line (t : Token) : Nat := t.span.start.line

end Token

end GraalScript
