import GraalScript.Tree.Parser.Basic

/-! Reading expressions. Binary operators are read by binding power; assignment and the conditional
operator bind more loosely, unary and postfix operators more tightly. Whatever nests goes one level
deeper, so the recursion is on the levels left. -/
namespace GraalScript.Parser

inductive Connective where
  | binary (op : BinaryOp)
  | logical (op : LogicalOp)
  | membership
  deriving DecidableEq, Repr

def connective? : TokenKind → Option (Connective × Nat)
  | .orOr => some (.logical .or, 1)
  | .andAnd => some (.logical .and, 2)
  | .eqEq => some (.binary .eq, 3)
  | .bangEq => some (.binary .notEq, 3)
  | .less => some (.binary .less, 4)
  | .greater => some (.binary .greater, 4)
  | .lessEq => some (.binary .lessEq, 4)
  | .greaterEq => some (.binary .greaterEq, 4)
  | .keyword .inKw => some (.membership, 4)
  | .atSign => some (.binary .concat, 5)
  | .plus => some (.binary .add, 6)
  | .minus => some (.binary .sub, 6)
  | .star => some (.binary .mul, 7)
  | .slash => some (.binary .div, 7)
  | .percent => some (.binary .mod, 7)
  | .caret => some (.binary .pow, 8)
  | _ => none

/-- The least binding power on the right of an operator: only powers group to the right. -/
def rightPower (c : Connective) (power : Nat) : Nat :=
  if c = .binary .pow then power else power + 1

def assignment? : TokenKind → Option (Option BinaryOp)
  | .eq => some none
  | .plusEq => some (some .add)
  | .minusEq => some (some .sub)
  | .starEq => some (some .mul)
  | .slashEq => some (some .div)
  | .percentEq => some (some .mod)
  | .atEq => some (some .concat)
  | _ => none

def unary? : TokenKind → Option UnaryOp
  | .minus => some .neg
  | .bang => some .not
  | _ => none

def step? : TokenKind → Option StepOp
  | .plusPlus => some .inc
  | .minusMinus => some .dec
  | _ => none

/-- The parts of the grammar at which a deeper level starts. -/
inductive Goal where
  | assignment
  | binary (power : Nat)
  /-- The right side of `value in`, whose operator stands on `line`. -/
  | membership (value : Expr) (line power : Nat)
  | unary

section level

variable (deeper : Goal → Parser Expr)

def arguments (close : TokenKind) : Parser (List Expr) := do
  let args ← listed (deeper .assignment) close
  let _ ← consume close
  return args.items

def dimensionRound (seen : List UInt32) : Parser (List UInt32 ⊕ List UInt32) := do
  if !(← accept .leftBracket) then return .inr seen.reverse
  match ← literal with
  | (.int size, _) =>
    let _ ← consume .rightBracket
    return .inl (size :: seen)
  | (_, line) => throw (.invalidLiteral line)

def dimensions : Parser (List UInt32) := loop [] dimensionRound

def newExpr : Parser Expr := do
  let line := (← consume (.keyword .newKw)).line
  if (← peekKind) = .leftBracket then
    return .newArray line (← dimensions)
  let cls ← ident
  let _ ← consume .leftParen
  return .new line cls (← arguments deeper .rightParen)

def nameExpr : Parser Expr := do
  let id ← ident
  let isCall := (← peekKind) = .leftParen
  match CastKind.ofName? id.name with
  | some kind =>
    if isCall then
      let _ ← advance
      let operand ← deeper .assignment
      let _ ← consume .rightParen
      return .cast id.line kind operand
    else return .name id.line id.name .unresolved
  | none => return .name id.line id.name .unresolved

def literalExpr : Parser Expr := do
  let (value, line) ← literal
  return .literal line value

def primary : Parser Expr := do
  let t ← peek
  match t.kind with
  | .int | .float | .str | .keyword .trueKw | .keyword .falseKw | .keyword .nullKw => literalExpr
  | .ident => nameExpr deeper
  | .keyword .newKw => newExpr deeper
  | .leftParen =>
    let _ ← advance
    let e ← deeper .assignment
    let _ ← consume .rightParen
    return e
  | .leftBrace =>
    let _ ← advance
    return .array t.line (← arguments deeper .rightBrace)
  | found => throw (.unexpected .expression found t.line)

/-- One call, member, index or step behind the expression `e`, which it takes its line from. -/
def suffix (e : Expr) : Parser (Expr ⊕ Expr) := do
  match ← peekKind with
  | .leftParen =>
    let _ ← advance
    return .inl (.call e.line e (← arguments deeper .rightParen))
  | .dot =>
    let _ ← advance
    return .inl (.member e.line e (← ident))
  | .leftBracket =>
    let _ ← advance
    let i ← deeper .assignment
    let _ ← consume .rightBracket
    return .inl (.index e.line e i)
  | kind =>
    match step? kind with
    | some op =>
      let t ← advance
      if !e.isAssignable then throw (.invalidTarget t.line)
      return .inl (.step e.line op false e)
    | none => return .inr e

def suffixed : Parser Expr := do loop (← primary deeper) (suffix deeper)

def unary : Parser Expr := do
  let kind ← peekKind
  match unary? kind, step? kind with
  | some op, _ =>
    let line := (← advance).line
    return .unary line op (← deeper .unary)
  | none, some op =>
    let line := (← advance).line
    let target ← deeper .unary
    if !target.isAssignable then throw (.invalidTarget line)
    return .step line op true target
  | none, none => suffixed deeper

def connected (least : Nat) (lhs : Expr) : Parser (Expr ⊕ Expr) := do
  match connective? (← peekKind) with
  | none => return .inr lhs
  | some (c, power) =>
    if power < least then return .inr lhs
    let line := (← advance).line
    let right := rightPower c power
    match c with
    | .membership => return .inl (← deeper (.membership lhs line right))
    | .binary op => return .inl (.binary line op lhs (← deeper (.binary right)))
    | .logical op => return .inl (.logical line op lhs (← deeper (.binary right)))

def binary (least : Nat) : Parser Expr := do loop (← unary deeper) (connected deeper least)

/-- The right side of `value in`: a range between bars, or an object. -/
def membership (value : Expr) (line power : Nat) : Parser Expr := do
  if !(← accept .pipe) then
    return .inObject line value (← binary deeper power)
  let lower ← deeper .assignment
  let _ ← consume .comma
  let upper ← deeper .assignment
  let _ ← consume .pipe
  return .inRange line value lower upper

def ternary : Parser Expr := do
  let cond ← binary deeper 1
  if !(← accept .question) then return cond
  let line ← lastLine
  let yes ← deeper .assignment
  let _ ← consume .colon
  let no ← deeper .assignment
  return .ternary line cond yes no

def assignment : Parser Expr := do
  let target ← ternary deeper
  match assignment? (← peekKind) with
  | none => return target
  | some op =>
    let line := (← advance).line
    if !target.isAssignable then throw (.invalidTarget line)
    return .assign line op target (← deeper .assignment)

def goal : Goal → Parser Expr
  | .assignment => assignment deeper
  | .binary power => binary deeper power
  | .membership value line power => membership deeper value line power
  | .unary => unary deeper

end level

/-- Reads a part of an expression with `n` levels left; without any it never starts. -/
def exprAt : Nat → Goal → Parser Expr
  | 0, _ => do throw (.nestingTooDeep (← get).limit (← get).faultLine)
  | n + 1, g => goal (fun g => nested (exprAt n g)) g

def deeperExpr (g : Goal) : Parser Expr := do nested (exprAt (← room) g)

def expr : Parser Expr := deeperExpr .assignment

end GraalScript.Parser
