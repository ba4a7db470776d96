import GraalScript.Text.Escape
import GraalScript.Text.Source
import GraalScript.Token

/-! Cutting a source text into tokens. `scan` looks at the front of a text and says what stands
there and how many characters it takes; `next` walks over gaps to the next token or fault and keeps
the place; `tokenize` gives everything up to the end of the source or the first fault. -/
namespace GraalScript

inductive LexFault where
  | unknownCharacter (c : Char)
  | unterminatedString
  | unterminatedComment
  | invalidNumber
  deriving DecidableEq, Repr

structure LexError where
  fault : LexFault
  line : Nat
  deriving DecidableEq, Repr

def LexFault.message : LexFault → String
  | unknownCharacter c => "unknown character " ++ Text.quotedChar c
  | unterminatedString => "unterminated string"
  | unterminatedComment => "unterminated comment"
  | invalidNumber => "invalid number literal"

def LexError.message (e : LexError) : String := s!"{e.fault.message} at line {e.line}"

namespace Lexer

inductive Piece where
  | gap
  | token (kind : TokenKind)
  | fault (cause : LexFault)
  deriving DecidableEq, Repr

structure Lexeme where
  piece : Piece
  length : Nat
  deriving DecidableEq, Repr

def isSpace (c : Char) : Bool := c == ' ' || c == '\t' || c == '\r' || c == '\n'

def isWordStart (c : Char) : Bool := c == '_' || c.isAlpha

def isWordRest (c : Char) : Bool := c == '_' || c.isAlphanum

def isHexDigit (c : Char) : Bool :=
  c.isDigit || ('a' ≤ c && c ≤ 'f') || ('A' ≤ c && c ≤ 'F')

def run (p : Char → Bool) (cs : List Char) : Nat := (cs.takeWhile p).length

/-- Length of a string literal whose first `n` characters are read; `false` when a line feed or the
end of the text comes before the closing quote. A backslash takes the next character with it. -/
def stringEnd (quote : Char) (n : Nat) : List Char → Bool × Nat
  | [] => (false, n)
  | [c] => (c == quote, n + 1)
  | c :: d :: cs =>
    if c = '\n' then (false, n + 1)
    else if c = '\\' then
      if d = '\n' then (false, n + 2) else stringEnd quote (n + 2) cs
    else if c = quote then (true, n + 1)
    else stringEnd quote (n + 1) (d :: cs)

def commentEnd (n : Nat) : List Char → Bool × Nat
  | [] => (false, n)
  | [_] => (false, n + 1)
  | c :: d :: cs =>
    if c = '*' ∧ d = '/' then (true, n + 2) else commentEnd (n + 1) (d :: cs)

/-- The line comment that marks where the client side of a script begins; blanks may follow it. -/
def isDirective (comment : List Char) : Bool :=
  let marker := TokenKind.directive.text.toList
  marker.isPrefixOf comment && (comment.drop marker.length).all Text.isBlank

def scanLineComment (cs : List Char) : Lexeme :=
  let n := run (· != '\n') cs
  ⟨if isDirective (cs.take n) then .token .directive else .gap, n⟩

def scanBlockComment (cs : List Char) : Lexeme :=
  match commentEnd 2 cs with
  | (true, n) => ⟨.gap, n⟩
  | (false, n) => ⟨.fault .unterminatedComment, n⟩

def scanString (quote : Char) (cs : List Char) : Lexeme :=
  match stringEnd quote 1 cs with
  | (true, n) => ⟨.token .str, n⟩
  | (false, n) => ⟨.fault .unterminatedString, n⟩

def scanHex (cs : List Char) : Lexeme :=
  match run isHexDigit cs with
  | 0 => ⟨.fault .invalidNumber, 2⟩
  | n => ⟨.token .int, n + 2⟩

/-- Decimal digits, with a fraction only when a digit follows the point. -/
def scanDecimal (cs : List Char) : Lexeme :=
  let n := run Char.isDigit cs
  match cs.drop n with
  | '.' :: d :: rest =>
    if d.isDigit then ⟨.token .float, n + 2 + run Char.isDigit rest⟩ else ⟨.token .int, n⟩
  | _ => ⟨.token .int, n⟩

def scanNumber (c : Char) (cs : List Char) : Lexeme :=
  match c, cs with
  | '0', 'x' :: rest => scanHex rest
  | '0', 'X' :: rest => scanHex rest
  | _, _ => scanDecimal (c :: cs)

def scanWord (cs : List Char) : Lexeme :=
  let n := run isWordRest cs
  let word := String.ofList (cs.take n)
  ⟨.token ((Keyword.ofSpelling? word).elim .ident .keyword), n⟩

/-- The longest operator or punctuation mark in front. -/
def symbol? (cs : List Char) : Option TokenKind :=
  TokenKind.symbols.find? fun k => k.text.toList.isPrefixOf cs

def scanSymbol (c : Char) (cs : List Char) : Lexeme :=
  match symbol? (c :: cs) with
  | some kind => ⟨.token kind, kind.text.length⟩
  | none => ⟨.fault (.unknownCharacter c), 1⟩

def scan (c : Char) (cs : List Char) : Lexeme :=
  if isSpace c then ⟨.gap, 1 + run isSpace cs⟩
  else if c = '"' ∨ c = '\'' then scanString c cs
  else if c.isDigit then scanNumber c cs
  else if isWordStart c then scanWord (c :: cs)
  else match c, cs with
    | '/', '/' :: _ => scanLineComment (c :: cs)
    | '/', '*' :: rest => scanBlockComment rest
    | _, _ => scanSymbol c cs

theorem run_pos {p : Char → Bool} {c : Char} (cs : List Char) (h : p c = true) :
    0 < run p (c :: cs) := by
  simp [run, h]

theorem le_stringEnd (quote : Char) (n : Nat) (cs : List Char) : n ≤ (stringEnd quote n cs).2 := by
  fun_induction stringEnd quote n cs <;> grind

theorem le_commentEnd (n : Nat) (cs : List Char) : n ≤ (commentEnd n cs).2 := by
  fun_induction commentEnd n cs <;> grind

theorem scanString_length_pos (quote : Char) (cs : List Char) :
    0 < (scanString quote cs).length := by
  have h := le_stringEnd quote 1 cs
  unfold scanString
  split <;> simp_all <;> omega

theorem scanBlockComment_length_pos (cs : List Char) : 0 < (scanBlockComment cs).length := by
  have h := le_commentEnd 2 cs
  unfold scanBlockComment
  split <;> simp_all <;> omega

theorem scanHex_length_pos (cs : List Char) : 0 < (scanHex cs).length := by
  unfold scanHex
  split <;> simp

theorem scanDecimal_length_pos {c : Char} {cs : List Char} (h : c.isDigit = true) :
    0 < (scanDecimal (c :: cs)).length := by
  have := run_pos cs h
  unfold scanDecimal
  dsimp only
  split
  · split <;> simp only <;> omega
  · exact this

theorem scanNumber_length_pos {c : Char} {cs : List Char} (h : c.isDigit = true) :
    0 < (scanNumber c cs).length := by
  unfold scanNumber
  split
  · exact scanHex_length_pos _
  · exact scanHex_length_pos _
  · exact scanDecimal_length_pos h

theorem scanSymbol_length_pos (c : Char) (cs : List Char) : 0 < (scanSymbol c cs).length := by
  unfold scanSymbol
  split
  case h_1 kind h =>
    have nonempty : ∀ k ∈ TokenKind.symbols, 0 < k.text.length := by decide
    exact nonempty kind (List.mem_of_find?_eq_some h)
  case h_2 => exact Nat.one_pos

theorem scan_length_pos (c : Char) (cs : List Char) : 0 < (scan c cs).length := by
  unfold scan
  split
  · exact Nat.lt_of_lt_of_le Nat.one_pos (Nat.le_add_right _ _)
  split
  · exact scanString_length_pos _ _
  split
  next h => exact scanNumber_length_pos h
  split
  next h =>
    refine run_pos cs ?_
    simp only [isWordStart, isWordRest, Char.isAlphanum, Bool.or_eq_true] at h ⊢
    exact h.imp_right Or.inl
  split
  · exact run_pos _ rfl
  · exact scanBlockComment_length_pos _
  · exact scanSymbol_length_pos _ _

end Lexer

structure Cursor where
  rest : List Char
  pos : Pos
  deriving DecidableEq, Repr

namespace Cursor

def ofText (source : String) : Cursor := ⟨source.toList, .origin⟩

def skip (cur : Cursor) (n : Nat) : Cursor := ⟨cur.rest.drop n, cur.pos.advance (cur.rest.take n)⟩

/-- The next token or fault, and what is left after it. At the end of the text this is the
end-of-source token, again and again. -/
def next : Cursor → Except LexError Token × Cursor
  | ⟨[], pos⟩ => (.ok ⟨.eos, "", ⟨pos, pos⟩⟩, ⟨[], pos⟩)
  | ⟨c :: cs, pos⟩ =>
    let lexeme := Lexer.scan c cs
    let after := skip ⟨c :: cs, pos⟩ lexeme.length
    match lexeme.piece with
    | .gap => next after
    | .token kind =>
      (.ok ⟨kind, String.ofList ((c :: cs).take lexeme.length), ⟨pos, after.pos⟩⟩, after)
    | .fault cause => (.error ⟨cause, pos.line⟩, after)
termination_by cur => cur.rest.length
decreasing_by
  have := Lexer.scan_length_pos c cs
  simp only [skip, List.length_drop, List.length_cons]
  omega

theorem next_rest_lt {cur after : Cursor} {t : Token} (h : cur.next = (.ok t, after))
    (ht : t.kind ≠ .eos) : after.rest.length < cur.rest.length := by
  fun_induction next cur with
  | case1 =>
    simp only [Prod.mk.injEq, Except.ok.injEq] at h
    exact absurd (h.1 ▸ rfl) ht
  | case2 c cs pos lexeme after' _ ih =>
    have := Lexer.scan_length_pos c cs
    have := ih h
    simp only [after', skip, List.length_drop, List.length_cons, lexeme] at *
    omega
  | case3 c cs pos lexeme after' kind _ =>
    have := Lexer.scan_length_pos c cs
    simp only [Prod.mk.injEq] at h
    simp only [← h.2, after', skip, List.length_drop, List.length_cons, lexeme]
    omega
  | case4 => simp at h

def collect (cur : Cursor) (seen : Array (Except LexError Token)) : Array (Except LexError Token) :=
  match _ : cur.next with
  | (.error e, _) => seen.push (.error e)
  | (.ok t, after) =>
    if _ : t.kind = .eos then seen.push (.ok t) else after.collect (seen.push (.ok t))
termination_by cur.rest.length
decreasing_by exact next_rest_lt ‹_› ‹_›

end Cursor

/-- The tokens of a source text. The last one is the end of the source or the first fault. -/
def tokenize (source : String) : List (Except LexError Token) :=
  ((Cursor.ofText source).collect #[]).toList

end GraalScript
