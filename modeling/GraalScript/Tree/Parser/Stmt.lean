import GraalScript.Tree.Parser.Expr

/-! Reading statements, functions and whole programs. A statement inside another one is read one
level deeper, so the recursion is on the levels left; blocks add no level of their own. -/
namespace GraalScript.Parser

def condition : Parser Expr := do
  let _ ← consume .leftParen
  let e ← expr
  let _ ← consume .rightParen
  return e

def exprUnless (close : TokenKind) : Parser (Option Expr) := do
  if (← peekKind) = close then return none else return some (← expr)

def exprStmt : Parser Stmt := do
  let e ← expr
  let _ ← consume .semicolon
  return .expr e

def returnStmt : Parser Stmt := do
  let line := (← consume (.keyword .returnKw)).line
  let value ← exprUnless .semicolon
  let _ ← consume .semicolon
  return .ret line value

def varDef : Parser VarDef := do
  let name ← ident
  if ← accept .eq then return ⟨name, some (← expr)⟩ else return ⟨name, none⟩

def varRound (line : Nat) (seen : List VarDef) : Parser (List VarDef ⊕ VarDecl) := do
  let defs := (← varDef) :: seen
  if ← accept .comma then return .inl defs else return .inr ⟨line, defs.reverse⟩

def varDecl : Parser VarDecl := do
  let line := (← consume (.keyword .varKw)).line
  loop [] (varRound line)

def varStmt : Parser Stmt := do
  let decl ← varDecl
  let _ ← consume .semicolon
  return .vars decl

def constStmt : Parser Stmt := do
  let line := (← consume (.keyword .constKw)).line
  let name ← ident
  let _ ← consume .eq
  let value ← expr
  let _ ← consume .semicolon
  return .const line name value

def jumpStmt (line : Nat) (allowed : Stream → Bool) (what : Misplaced) (stmt : Stmt) :
    Parser Stmt := do
  let _ ← advance
  if !allowed (← get) then throw (.misplaced what line)
  let _ ← consume .semicolon
  return stmt

def forInit : Parser (Option ForInit) := do
  match ← peekKind with
  | .semicolon => return none
  | .keyword .varKw => return some (.vars (← varDecl))
  | _ => return some (.expr (← expr))

/-- A name or a declared name before a colon: the loop runs over the elements of an object. -/
def isForEach (s : Stream) : Bool :=
  (s.kindAt 0 = .ident && s.kindAt 1 = .colon)
    || (s.kindAt 0 = .keyword .varKw && s.kindAt 1 = .ident && s.kindAt 2 = .colon)

def labelRound (seen : List (Option Expr)) : Parser (List (Option Expr) ⊕ List (Option Expr)) := do
  match ← peekKind with
  | .keyword .caseKw =>
    let _ ← advance
    let label ← expr
    let _ ← consume .colon
    return .inl (some label :: seen)
  | .keyword .defaultKw =>
    let _ ← advance
    let _ ← consume .colon
    return .inl (none :: seen)
  | _ => return .inr seen.reverse

def caseLabels : Parser (List (Option Expr)) := loop [] labelRound

section level

variable (stmt : Parser Stmt)

def blockRound (seen : List Stmt) : Parser (List Stmt ⊕ List Stmt) := do
  match ← peekKind with
  | .rightBrace => return .inr seen.reverse
  | .eos =>
    let _ ← consume .rightBrace
    return .inl seen
  | _ => return .inl ((← stmt) :: seen)

def block : Parser Block := do
  let line := (← consume .leftBrace).line
  let body ← loop [] (blockRound stmt)
  let _ ← consume .rightBrace
  return ⟨line, body⟩

def blockStmt : Parser Stmt := do
  let b ← block stmt
  return .block b.line b.body

def ifStmt : Parser Stmt := do
  let line := (← consume (.keyword .ifKw)).line
  let cond ← condition
  let yes ← stmt
  if ← accept (.keyword .elseKw) then
    return .ifElse line cond yes (← stmt)
  else
    return .ifThen line cond yes

def whileStmt : Parser Stmt := do
  let line := (← consume (.keyword .whileKw)).line
  let cond ← condition
  return .whileLoop line cond (← insideLoop stmt)

def withStmt : Parser Stmt := do
  let line := (← consume (.keyword .withKw)).line
  let object ← condition
  return .withObject line object (← stmt)

def forEachRest (line : Nat) : Parser Stmt := do
  let declared ← accept (.keyword .varKw)
  let item ← ident
  let _ ← consume .colon
  let iterable ← expr
  let _ ← consume .rightParen
  return .forEach line declared item.name .unresolved iterable (← insideLoop stmt)

def forLoopRest (line : Nat) : Parser Stmt := do
  let init ← forInit
  let _ ← consume .semicolon
  let cond ← exprUnless .semicolon
  let _ ← consume .semicolon
  let step ← exprUnless .rightParen
  let _ ← consume .rightParen
  return .forLoop line init cond step (← insideLoop stmt)

def forStmt : Parser Stmt := do
  let line := (← consume (.keyword .forKw)).line
  let _ ← consume .leftParen
  if isForEach (← get) then forEachRest stmt line else forLoopRest stmt line

def bodyRound (seen : List Stmt) : Parser (List Stmt ⊕ List Stmt) := do
  match ← peekKind with
  | .rightBrace | .keyword .caseKw | .keyword .defaultKw => return .inr seen.reverse
  | .eos =>
    let _ ← consume .rightBrace
    return .inl seen
  | _ => return .inl ((← stmt) :: seen)

def caseBody : Parser (List Stmt) := loop [] (bodyRound stmt)

/-- One case with its labels, or the end of the switch. A second case with a default label is
refused. -/
def caseRound (seen : List Case) : Parser (List Case ⊕ List Case) := do
  let t ← peek
  match t.kind with
  | .rightBrace => return .inr seen.reverse
  | .keyword .caseKw | .keyword .defaultKw =>
    let labels ← caseLabels
    let c := Case.mk t.line labels (← caseBody stmt)
    if c.isDefault && seen.any Case.isDefault then throw (.misplaced .secondDefault c.line)
    return .inl (c :: seen)
  | found => throw (.unexpected .caseLabel found t.line)

def cases : Parser (List Case) := loop [] (caseRound stmt)

def switchStmt : Parser Stmt := do
  let line := (← consume (.keyword .switchKw)).line
  let value ← condition
  let _ ← consume .leftBrace
  let cs ← insideSwitch (cases stmt)
  let _ ← consume .rightBrace
  return .switch line value cs

/-- `new Class(name) { … }`, or a `new` expression as a statement. -/
def newStmt : Parser Stmt := do
  let e ← newExpr deeperExpr
  if (← peekKind) ≠ .leftBrace then
    let _ ← consume .semicolon
    return .expr e
  match e with
  | .new line cls [name] =>
    let b ← block stmt
    return .new line cls name b.line b.body
  | _ => throw (.unexpected .semicolonAfterNew .leftBrace (← lastLine))

def keywordStmt (t : Token) : Keyword → Parser Stmt
  | .ifKw => ifStmt stmt
  | .whileKw => whileStmt stmt
  | .forKw => forStmt stmt
  | .withKw => withStmt stmt
  | .returnKw => returnStmt
  | .switchKw => switchStmt stmt
  | .newKw => newStmt stmt
  | .breakKw => jumpStmt t.line Stream.canBreak .breakOut (.breakOut t.line)
  | .continueKw => jumpStmt t.line Stream.inLoop .continueLoop (.continueLoop t.line)
  | .varKw => varStmt
  | .constKw => constStmt
  | .functionKw | .publicKw => throw (.misplaced .function t.line)
  | .elseKw | .caseKw | .defaultKw | .inKw => throw (.unexpected .statement t.kind t.line)
  | .trueKw | .falseKw | .nullKw => exprStmt

def anyStmt : Parser Stmt := do
  let t ← peek
  match t.kind with
  | .leftBrace => blockStmt stmt
  | .semicolon =>
    let _ ← advance
    return .empty t.line
  | .keyword word => keywordStmt stmt t word
  | .directive => throw (.misplaced .directive t.line)
  | _ => exprStmt

end level

/-- Reads a statement with `n` levels left; without any it never starts. -/
def stmtAt : Nat → Parser Stmt
  | 0 => do throw (.nestingTooDeep (← get).limit (← get).faultLine)
  | n + 1 => anyStmt (nested (stmtAt n))

def stmt : Parser Stmt := do nested (stmtAt (← room))

def func : Parser Func := do
  let isPublic ← accept (.keyword .publicKw)
  let line := (← consume (.keyword .functionKw)).line
  let first ← ident
  let (object, name) ←
    if ← accept .dot then pure (some first, ← ident) else pure (none, first)
  let _ ← consume .leftParen
  let params ← listed ident .rightParen
  let _ ← consume .rightParen
  let body ← block stmt
  return ⟨line, isPublic, object, name, params.items, body⟩

/-- What has been read of a program: the items in reverse, their number, and the client side
mark. -/
structure Reading where
  items : List Item
  count : Nat
  clientside : Option Nat

def itemRound (seen : Reading) : Parser (Reading ⊕ Program) := do
  let t ← peek
  match t.kind with
  | .eos =>
    if seen.count = 0 ∧ seen.clientside = none then throw .emptySource
    return .inr ⟨seen.items.reverse, seen.clientside⟩
  | .directive =>
    let _ ← advance
    if seen.clientside.isSome then throw (.misplaced .secondDirective t.line)
    return .inl { seen with clientside := some seen.count }
  | .keyword .functionKw | .keyword .publicKw =>
    let f ← func
    return .inl { seen with items := .func f :: seen.items, count := seen.count + 1 }
  | _ =>
    let s ← stmt
    return .inl { seen with items := .stmt s :: seen.items, count := seen.count + 1 }

def program : Parser Program := loop (⟨[], 0, none⟩ : Reading) itemRound

end GraalScript.Parser
