import GraalScript.Token.Lexer

/-! The tokens still to come, with what a reader of the grammar has to know about the place it
stands at: the line it has reached, how deep it is nested, and how many loops and switches surround
it. -/
namespace GraalScript

inductive TokenError where
  | mismatch (expected found : TokenKind) (line : Nat)
  | endOfSource (line : Nat)
  | lex (error : LexError)
  deriving DecidableEq, Repr

namespace TokenError

def line : TokenError → Nat
  | mismatch _ _ line => line
  | endOfSource line => line
  | lex e => e.line

def message : TokenError → String
  | mismatch expected found line =>
    s!"encountered unexpected token '{found.text}', expected '{expected.text}' at line {line}"
  | endOfSource line => s!"unexpected end of source code after line {line}"
  | lex e => e.message

end TokenError

structure Stream where
  /-- The items not yet taken, the last one the end of the source or a fault. -/
  pending : List (Except LexError Token)
  /-- Number of items of the whole source. -/
  size : Nat
  /-- Line of the token taken last. -/
  lastLine : Nat
  depth : Nat
  limit : Nat
  loops : Nat
  switches : Nat

namespace Stream

def defaultLimit : Nat := 128

def ofItems (items : List (Except LexError Token)) (limit : Nat) : Stream :=
  ⟨items, items.length, 0, 0, limit, 0, 0⟩

def ofText (source : String) (limit : Nat) : Stream := ofItems (tokenize source) limit

def next (s : Stream) : Option (Except LexError Token) × Stream :=
  match s.pending with
  | [] => (none, s)
  | .ok t :: rest => (some (.ok t), { s with pending := rest, lastLine := t.line })
  | .error e :: rest => (some (.error e), { s with pending := rest })

def peek (s : Stream) : Except TokenError Token :=
  match s.pending with
  | [] => .error (.endOfSource s.lastLine)
  | .ok t :: _ => .ok t
  | .error e :: _ => .error (.lex e)

/-- Kind of the token `n` places after the next one; past the end or at a fault it is the end of the
source. -/
def kindAt (s : Stream) (n : Nat) : TokenKind :=
  match s.pending[n]? with
  | some (.ok t) => t.kind
  | _ => .eos

def advance (s : Stream) : Except TokenError Token × Stream :=
  match s.next with
  | (some (.ok t), s') => (.ok t, s')
  | (some (.error e), s') => (.error (.lex e), s')
  | (none, s') => (.error (.endOfSource s.lastLine), s')

def consume (s : Stream) (kind : TokenKind) : Except TokenError Token × Stream :=
  match s.peek with
  | .error e => (.error e, s)
  | .ok t => if t.kind = kind then s.advance else (.error (.mismatch kind t.kind t.line), s)

def accept (s : Stream) (kind : TokenKind) : Bool × Stream :=
  match s.consume kind with
  | (.ok _, s') => (true, s')
  | (.error _, _) => (false, s)

def enter (s : Stream) : Option Stream :=
  if s.depth < s.limit then some { s with depth := s.depth + 1 } else none

def leave (s : Stream) : Stream := { s with depth := s.depth - 1 }

def enterLoop (s : Stream) : Stream := { s with loops := s.loops + 1 }

def leaveLoop (s : Stream) : Stream := { s with loops := s.loops - 1 }

def enterSwitch (s : Stream) : Stream := { s with switches := s.switches + 1 }

def leaveSwitch (s : Stream) : Stream := { s with switches := s.switches - 1 }

def inLoop (s : Stream) : Bool := 0 < s.loops

def canBreak (s : Stream) : Bool := 0 < s.loops || 0 < s.switches

/-- The line that a fault at this place is reported on. -/
def faultLine (s : Stream) : Nat :=
  match s.peek with
  | .ok t => t.line
  | .error e => e.line

end Stream

end GraalScript
