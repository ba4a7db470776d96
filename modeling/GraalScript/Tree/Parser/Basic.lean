import GraalScript.Text.Escape
import GraalScript.Tree.Basic
import GraalScript.Tree.Error

/-! Reading a tree off a stream of tokens: the steps on single tokens, one level of nesting,
repetition, and the parts of the grammar that do not nest. A parser keeps the stream also when it
fails. -/
namespace GraalScript

abbrev Parser := ExceptT ParseError (StateM Stream)

namespace Parser

variable {α β : Type}

def liftStep (step : Stream → Except TokenError α × Stream) : Parser α := ExceptT.mk do
  let (result, s) := step (← get)
  set s
  return result.mapError .token

def peek : Parser Token := liftStep fun s => (s.peek, s)

def peekKind : Parser TokenKind := return (← peek).kind

def advance : Parser Token := liftStep Stream.advance

def consume (kind : TokenKind) : Parser Token := liftStep (Stream.consume · kind)

def accept (kind : TokenKind) : Parser Bool := do
  let (found, s) := (← get).accept kind
  set s
  return found

def lastLine : Parser Nat := return (← get).lastLine

/-- Runs a parser one level deeper, and comes back up whether it succeeds or fails. -/
def nested (p : Parser α) : Parser α := ExceptT.mk do
  let s ← get
  match s.enter with
  | none => return .error (.nestingTooDeep s.limit s.faultLine)
  | some deeper =>
    set deeper
    let result ← p.run
    modify Stream.leave
    return result

def insideLoop (p : Parser α) : Parser α := ExceptT.mk do
  modify Stream.enterLoop
  let result ← p.run
  modify Stream.leaveLoop
  return result

def insideSwitch (p : Parser α) : Parser α := ExceptT.mk do
  modify Stream.enterSwitch
  let result ← p.run
  modify Stream.leaveSwitch
  return result

def room : Parser Nat := return (← get).limit - (← get).depth

def iterate (step : α → Parser (α ⊕ β)) : Nat → α → Parser β
  | 0, _ => do throw (.token (.endOfSource (← lastLine)))
  | n + 1, a => do
    match ← step a with
    | .inl a => iterate step n a
    | .inr b => return b

/-- Repeats a step that takes a token each time it does not give the result. The tokens of the
source bound the number of rounds. -/
def loop (a : α) (step : α → Parser (α ⊕ β)) : Parser β := do
  iterate step ((← get).size + 1) a

structure Listed (α : Type) where
  items : List α
  /-- A comma follows the last item. -/
  trailing : Bool

def comma : Parser (Option Token) := do
  if (← peekKind) = .comma then return some (← consume .comma) else return none

def listedRound (item : Parser α) (close : TokenKind) (seen : Listed α) :
    Parser (Listed α ⊕ Listed α) := do
  if (← peekKind) = close then return .inr { seen with items := seen.items.reverse }
  let a ← item
  match ← comma with
  | some _ => return .inl ⟨a :: seen.items, true⟩
  | none => return .inr ⟨(a :: seen.items).reverse, false⟩

/-- Reads items up to the closing token, which it leaves. A comma may follow the last item. -/
def listed (item : Parser α) (close : TokenKind) : Parser (Listed α) :=
  loop (⟨[], false⟩ : Listed α) (listedRound item close)

def ident : Parser Ident := do
  let t ← consume .ident
  return ⟨t.text, t.line⟩

def readWord (base : Nat) (digits : List Char) : Option UInt32 :=
  let n := digits.foldl (fun n c => base * n + Text.digitValue c) 0
  if n < 0x100000000 then some (.ofNat n) else none

/-- The value of an integer token. A decimal number over 32 bits is kept as text. -/
def intLiteral (text : String) : Option Literal :=
  match text.toList with
  | '0' :: 'x' :: digits => (readWord 16 digits).map .int
  | '0' :: 'X' :: digits => (readWord 16 digits).map .int
  | digits => some ((readWord 10 digits).elim (.float text) .int)

def literalValue (t : Token) : Except ParseError Literal :=
  match t.kind with
  | .int =>
    match intLiteral t.text with
    | some value => .ok value
    | none => .error (.invalidLiteral t.line)
  | .float => .ok (.float t.text)
  | .str => .ok (.str (Text.unescape t.text))
  | .keyword .trueKw => .ok (.bool true)
  | .keyword .falseKw => .ok (.bool false)
  | .keyword .nullKw => .ok .null
  | found => .error (.unexpected .literal found t.line)

def literal : Parser (Literal × Nat) := do
  let t ← advance
  match literalValue t with
  | .ok value => return (value, t.line)
  | .error e => throw e

end Parser

end GraalScript
