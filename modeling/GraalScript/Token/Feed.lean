import GraalScript.Token.Stream

/-! Tokens taken one at a time from a scanner of the source text, and only when they are asked for.
A buffer in front of the scanner keeps what has been looked at and not yet taken; each look goes one
item further than the one before, until the buffer is rewound. -/
namespace GraalScript

structure Scanner where
  source : String
  cursor : Cursor
  /-- The end of the source or a fault has been handed out. -/
  finished : Bool

namespace Scanner

def ofText (source : String) : Scanner := ⟨source, .ofText source, false⟩

def reset (s : Scanner) : Scanner := ofText s.source

def nextToken (s : Scanner) : Except LexError Token × Scanner :=
  let (item, cursor) := s.cursor.next
  (item, { s with cursor })

/-- The next item of the source, as long as it is not finished. -/
def next (s : Scanner) : Option (Except LexError Token) × Scanner :=
  if s.finished then (none, s)
  else
    let (item, after) := s.nextToken
    let finished := match item with
      | .error _ => true
      | .ok t => t.kind == .eos
    (some item, { after with finished })

end Scanner

/-- What a buffer can do. -/
structure Lookahead (σ : Type) where
  /-- Hands out the next item. -/
  next : σ → Option (Except LexError Token) × σ
  /-- Looks at the item behind the one looked at last. -/
  look : σ → Option (Except LexError Token) × σ
  /-- Lets the next look start at the front. -/
  rewind : σ → σ

namespace Lookahead

variable {σ : Type} (b : Lookahead σ)

def lookAt : Nat → σ → Option (Except LexError Token) × σ
  | 0, a => b.look a
  | n + 1, a => lookAt n (b.look a).2

end Lookahead

/-- A scanner, the items that have been looked at and not yet taken, and how many of them the next
look passes over. -/
structure Ahead where
  scanner : Scanner
  held : List (Except LexError Token)
  cursor : Nat

namespace Ahead

def ofText (source : String) : Ahead := ⟨.ofText source, [], 0⟩

def next (a : Ahead) : Option (Except LexError Token) × Ahead :=
  match a.held with
  | item :: rest => (some item, ⟨a.scanner, rest, 0⟩)
  | [] => (a.scanner.next.1, ⟨a.scanner.next.2, [], 0⟩)

def look (a : Ahead) : Option (Except LexError Token) × Ahead :=
  match a.held[a.cursor]? with
  | some item => (some item, { a with cursor := a.cursor + 1 })
  | none =>
    match a.scanner.next with
    | (some item, scanner) => (some item, ⟨scanner, a.held ++ [item], a.cursor + 1⟩)
    | (none, scanner) => (none, { a with scanner })

def rewind (a : Ahead) : Ahead := { a with cursor := 0 }

def lookahead : Lookahead Ahead := ⟨next, look, rewind⟩

end Ahead

structure Feed (σ : Type) where
  ahead : σ
  lastLine : Nat

namespace Feed

variable {σ : Type} (b : Lookahead σ) (f : Feed σ)

def start (ahead : σ) : Feed σ := ⟨ahead, 0⟩

def next : Option (Except LexError Token) × Feed σ :=
  match b.next f.ahead with
  | (some (.ok t), ahead) => (some (.ok t), ⟨ahead, t.line⟩)
  | (item, ahead) => (item, { f with ahead })

def rewind : Feed σ := { f with ahead := b.rewind f.ahead }

def peek : Except TokenError Token × Feed σ :=
  match b.look (f.rewind b).ahead with
  | (some (.ok t), ahead) => (.ok t, { f with ahead })
  | (some (.error e), ahead) => (.error (.lex e), { f with ahead })
  | (none, ahead) => (.error (.endOfSource f.lastLine), { f with ahead })

def peekKind : Except TokenError TokenKind × Feed σ :=
  let (t, f) := f.peek b
  (t.map Token.kind, f)

/-- Kind of the token `n` places after the next one; past the end or at a fault it is the end of the
source. -/
def kindAt (n : Nat) : TokenKind × Feed σ :=
  let (item, ahead) := b.lookAt n (f.rewind b).ahead
  let kind := match item with
    | some (.ok t) => t.kind
    | _ => .eos
  (kind, rewind b { f with ahead })

def advance : Except TokenError Token × Feed σ :=
  match f.next b with
  | (some (.ok t), after) => (.ok t, after)
  | (some (.error e), after) => (.error (.lex e), after)
  | (none, after) => (.error (.endOfSource after.lastLine), after)

def consume (kind : TokenKind) : Except TokenError Token × Feed σ :=
  match f.peek b with
  | (.error e, after) => (.error e, after)
  | (.ok t, after) =>
    if t.kind = kind then after.advance b else (.error (.mismatch kind t.kind t.line), after)

def accept (kind : TokenKind) : Bool × Feed σ :=
  let (item, ahead) := b.look (f.rewind b).ahead
  let after := rewind b { f with ahead }
  match item with
  | some (.ok t) => if t.kind = kind then (true, (after.next b).2) else (false, after)
  | _ => (false, after)

end Feed

end GraalScript
