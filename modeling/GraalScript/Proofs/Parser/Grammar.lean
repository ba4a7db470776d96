import GraalScript.Tree.Parser.Basic

/-! The grammar of expressions, read level by level. There is one reader for each part of the
grammar; it looks at one token ahead and knows no limit on nesting. A level of operators that group
to the left reads its first operand one level down, and then an operand for each operator of its
own. No reader goes round without taking a token, so every one ends, and the grammar is a function
of the tokens. -/
namespace GraalScript

abbrev Grammar.Tokens := List (Except LexError Token)

/-- Reads something off the front of some tokens and leaves the others, or fails. One that never
ended would give nothing, not even a failure. -/
abbrev Reader := StateT Grammar.Tokens (OptionT Option)

/-- The grammar of expressions. In the loose one, tighter operators may follow a range, and what was
read so far is then their left operand. -/
inductive Grammar where
  | strict | loose
  deriving DecidableEq

namespace Grammar

variable {α : Type}

def fail : Reader α := fun _ => OptionT.fail

/-- The next token, which is not taken. Faults of the text are no tokens. -/
def look : Reader Token
  | .ok t :: rest => pure (t, .ok t :: rest)
  | _ => OptionT.fail

def lookKind : Reader TokenKind := return (← look).kind

def take : Reader Token
  | .ok t :: rest => pure (t, rest)
  | _ => OptionT.fail

def expect (kind : TokenKind) : Reader Token
  | .ok t :: rest => if t.kind = kind then pure (t, rest) else OptionT.fail
  | _ => OptionT.fail

def took (kind : TokenKind) : Reader Bool
  | .ok t :: rest => pure (if t.kind = kind then (true, rest) else (false, .ok t :: rest))
  | rest => pure (false, rest)

def target (e : Expr) : Reader Expr := if e.isAssignable then return e else fail

/-- The levels of operators that group to the left, the loosest first. -/
inductive Level where
  | or | and | equality | relational | concat | additive | multiplicative
  deriving DecidableEq

inductive Operator where
  | binary (op : BinaryOp)
  | logical (op : LogicalOp)

def Operator.join (line : Nat) (lhs rhs : Expr) : Operator → Expr
  | binary op => .binary line op lhs rhs
  | logical op => .logical line op lhs rhs

def Level.operator? : Level → TokenKind → Option Operator
  | or, .orOr => some (.logical .or)
  | and, .andAnd => some (.logical .and)
  | equality, .eqEq => some (.binary .eq)
  | equality, .bangEq => some (.binary .notEq)
  | relational, .less => some (.binary .less)
  | relational, .greater => some (.binary .greater)
  | relational, .lessEq => some (.binary .lessEq)
  | relational, .greaterEq => some (.binary .greaterEq)
  | concat, .atSign => some (.binary .concat)
  | additive, .plus => some (.binary .add)
  | additive, .minus => some (.binary .sub)
  | multiplicative, .star => some (.binary .mul)
  | multiplicative, .slash => some (.binary .div)
  | multiplicative, .percent => some (.binary .mod)
  | _, _ => none

def assign? : TokenKind → Option (Option BinaryOp)
  | .eq => some none
  | .plusEq => some (some .add)
  | .minusEq => some (some .sub)
  | .starEq => some (some .mul)
  | .slashEq => some (some .div)
  | .percentEq => some (some .mod)
  | .atEq => some (some .concat)
  | _ => none

def literal : Reader (Literal × Nat) := do
  let t ← take
  match Parser.literalValue t with
  | .ok value => return (value, t.line)
  | .error _ => fail

mutual

/-- `ternary ( assign_op assignment )?` -/
def assignment (rules : Grammar) : Reader Expr := do
  let e ← rules |>.ternary
  match assign? (← lookKind) with
  | none => return e
  | some op =>
    let t ← take
    return .assign t.line op (← target e) (← rules |>.assignment)
partial_fixpoint

/-- `or ( "?" assignment ":" assignment )?` -/
def ternary (rules : Grammar) : Reader Expr := do
  let cond ← rules |>.level .or
  if (← lookKind) = .question then
    let t ← take
    let yes ← rules |>.assignment
    let _ ← expect .colon
    return .ternary t.line cond yes (← rules |>.assignment)
  else return cond
partial_fixpoint

/-- `operand ( operator operand )*`, for each level. -/
def level (rules : Grammar) (l : Level) : Reader Expr := do rules |>.chain l (← rules |>.operand l)
partial_fixpoint

def operand (rules : Grammar) : Level → Reader Expr
  | .or => rules |>.level .and
  | .and => rules |>.level .equality
  | .equality => rules |>.level .relational
  | .relational => rules |>.level .concat
  | .concat => rules |>.level .additive
  | .additive => rules |>.level .multiplicative
  | .multiplicative => rules |>.power
partial_fixpoint

def chain (rules : Grammar) (l : Level) (lhs : Expr) : Reader Expr := do
  let kind ← lookKind
  match l.operator? kind with
  | some op =>
    let t ← take
    rules |>.chain l (op.join t.line lhs (← rules |>.operand l))
  | none =>
    if l = .relational ∧ kind = .keyword .inKw then
      let t ← take
      rules |>.chain l (← rules |>.continued (← rules |>.container t.line lhs))
    else return lhs
partial_fixpoint

/-- `"|" expr "," expr "|" | concat`, behind `in`. -/
def container (rules : Grammar) (line : Nat) (value : Expr) : Reader Expr := do
  if ← took .pipe then
    let lower ← rules |>.assignment
    let _ ← expect .comma
    let upper ← rules |>.assignment
    let _ ← expect .pipe
    return .inRange line value lower upper
  else return .inObject line value (← rules |>.level .concat)
partial_fixpoint

def continued (rules : Grammar) : Expr → Reader Expr
  | .inRange line value lower upper =>
    if rules = .loose then do
      let factor ← rules |>.raised (.inRange line value lower upper)
      rules |>.chain .concat (← rules |>.chain .additive (← rules |>.chain .multiplicative factor))
    else return .inRange line value lower upper
  | e => return e
partial_fixpoint

/-- `unary ( "^" power )?` -/
def power (rules : Grammar) : Reader Expr := do rules |>.raised (← rules |>.unary)
partial_fixpoint

def raised (rules : Grammar) (base : Expr) : Reader Expr := do
  if (← lookKind) = .caret then
    let t ← take
    return .binary t.line .pow base (← rules |>.power)
  else return base
partial_fixpoint

/-- `( "-" | "!" | "++" | "--" ) unary | postfix` -/
def unary (rules : Grammar) : Reader Expr := do
  match ← lookKind with
  | .minus => return .unary (← take).line .neg (← rules |>.unary)
  | .bang => return .unary (← take).line .not (← rules |>.unary)
  | .plusPlus => return .step (← take).line .inc true (← target (← rules |>.unary))
  | .minusMinus => return .step (← take).line .dec true (← target (← rules |>.unary))
  | _ => rules |>.suffixes (← rules |>.primary)
partial_fixpoint

/-- `( "(" args? ")" | "." IDENT | "[" expr "]" | "++" | "--" )*`, behind an expression. -/
def suffixes (rules : Grammar) (e : Expr) : Reader Expr := do
  match ← lookKind with
  | .leftParen =>
    let _ ← take
    rules |>.suffixes (.call e.line e (← rules |>.arguments .rightParen))
  | .dot =>
    let _ ← take
    let t ← expect .ident
    rules |>.suffixes (.member e.line e ⟨t.text, t.line⟩)
  | .leftBracket =>
    let _ ← take
    let i ← rules |>.assignment
    let _ ← expect .rightBracket
    rules |>.suffixes (.index e.line e i)
  | .plusPlus =>
    let _ ← take
    rules |>.suffixes (.step e.line .inc false (← target e))
  | .minusMinus =>
    let _ ← take
    rules |>.suffixes (.step e.line .dec false (← target e))
  | _ => return e
partial_fixpoint

/-- `INT | FLOAT | STRING | IDENT | "true" | "false" | "null" | "(" expr ")" | "{" args? "}" | cast
| new` -/
def primary (rules : Grammar) : Reader Expr := do
  let t ← look
  match t.kind with
  | .ident => rules |>.named
  | .keyword .newKw => rules |>.new
  | .leftParen =>
    let _ ← take
    let e ← rules |>.assignment
    let _ ← expect .rightParen
    return e
  | .leftBrace =>
    let _ ← take
    return .array t.line (← rules |>.arguments .rightBrace)
  | .int | .float | .str | .keyword .trueKw | .keyword .falseKw | .keyword .nullKw =>
    let (value, line) ← literal
    return .literal line value
  | _ => fail
partial_fixpoint

/-- `IDENT | ( "int" | "float" | "string" ) "(" expr ")"` -/
def named (rules : Grammar) : Reader Expr := do
  let t ← expect .ident
  match CastKind.ofName? t.text, ← lookKind with
  | some kind, .leftParen =>
    let _ ← take
    let e ← rules |>.assignment
    let _ ← expect .rightParen
    return .cast t.line kind e
  | _, _ => return .name t.line t.text .unresolved
partial_fixpoint

/-- `"new" IDENT "(" args? ")" | "new" ( "[" INT "]" )+` -/
def new (rules : Grammar) : Reader Expr := do
  let t ← expect (.keyword .newKw)
  if (← lookKind) = .leftBracket then return .newArray t.line (← rules |>.dimensions)
  else
    let cls ← expect .ident
    let _ ← expect .leftParen
    return .new t.line ⟨cls.text, cls.line⟩ (← rules |>.arguments .rightParen)
partial_fixpoint

/-- `( "[" INT "]" )*` -/
def dimensions (rules : Grammar) : Reader (List UInt32) := do
  if ← took .leftBracket then
    match ← literal with
    | (.int size, _) =>
      let _ ← expect .rightBracket
      return size :: (← rules |>.dimensions)
    | _ => fail
  else return []
partial_fixpoint

def arguments (rules : Grammar) (close : TokenKind) : Reader (List Expr) := do
  let args ← rules |>.items close
  let _ ← expect close
  return args
partial_fixpoint

/-- `( expr ( "," expr )* ","? )?`, in front of the closing token. -/
def items (rules : Grammar) (close : TokenKind) : Reader (List Expr) := do
  if (← lookKind) = close then return []
  else
    let e ← rules |>.assignment
    if (← lookKind) = .comma then
      let _ ← expect .comma
      return e :: (← rules |>.items close)
    else return [e]
partial_fixpoint

end

section runs

variable {β : Type} {r : Reader α} {g : α → Reader β} {ts rest : Tokens} {a : α}

theorem bind_of_run (h : r.run ts = pure (a, rest)) : (r >>= g).run ts = (g a).run rest := by
  rw [StateT.run_bind, h, pure_bind]

theorem bind_of_fail (h : r.run ts = OptionT.fail) : (r >>= g).run ts = OptionT.fail := by
  rw [StateT.run_bind, h]
  rfl

theorem lookKind_token (t : Token) (rest : Tokens) :
    lookKind.run (.ok t :: rest) = pure (t.kind, .ok t :: rest) := rfl

theorem take_token (t : Token) (rest : Tokens) : take.run (.ok t :: rest) = pure (t, rest) := rfl

theorem expect_of_kind {kind : TokenKind} {t : Token} (same : t.kind = kind) :
    (expect kind).run (.ok t :: rest) = pure (t, rest) := if_pos same

theorem took_of_kind {kind : TokenKind} {t : Token} (same : t.kind = kind) :
    (took kind).run (.ok t :: rest) = pure (true, rest) := congrArg pure (if_pos same)

theorem took_of_ne {kind : TokenKind} (other : ∀ t rest, ts = .ok t :: rest → t.kind ≠ kind) :
    (took kind).run ts = pure (false, ts) := by
  rcases ts with _ | ⟨_ | t, rest⟩
  · rfl
  · rfl
  · exact congrArg pure (if_neg (other t rest rfl))

end runs

section ends

/-- On fewer than `n` tokens the reader ends, and if it does not fail it takes `k` of them at
least. -/
def Ends (n k : Nat) (r : Reader α) : Prop :=
  ∀ ts : Tokens, ts.length < n → ∃ x : Option (α × Tokens), (r.run ts).run = some x ∧
    ∀ a rest, x = some (a, rest) → rest.length + k ≤ ts.length

variable {β : Type} {n j k : Nat} {r : Reader α} {g : α → Reader β}

theorem ends_zero (k : Nat) (r : Reader α) : Ends 0 k r :=
  fun _ none => absurd none (Nat.not_lt_zero _)

theorem Ends.any (h : Ends n k r) : Ends n 0 r := by
  intro ts fewer
  obtain ⟨x, ran, left⟩ := h ts fewer
  exact ⟨x, ran, fun a rest found => Nat.le_of_add_right_le (left a rest found)⟩

theorem Ends.then (h : Ends n j r) (next : ∀ a, Ends (n - j) k (g a)) :
    Ends n (j + k) (r >>= g) := by
  intro ts fewer
  obtain ⟨_ | ⟨a, rest⟩, ran, left⟩ := h ts fewer
  · exact ⟨none, bind_of_fail ran, nofun⟩
  · have here := left a rest rfl
    obtain ⟨x, ran', left'⟩ := next a rest (by omega)
    refine ⟨x, (bind_of_run ran).trans ran', fun b more found => ?_⟩
    have := left' b more found
    omega

theorem Ends.bind (h : Ends n 0 r) (next : ∀ a, Ends n k (g a)) : Ends n k (r >>= g) := by
  have both := h.then (k := k) next
  rwa [Nat.zero_add] at both

theorem Ends.some_bind (h : Ends (n + 1) 1 r) (next : ∀ a, Ends n 0 (g a)) :
    Ends (n + 1) 1 (r >>= g) :=
  h.then next

theorem ends_pure (a : α) : Ends n 0 (pure a) := fun ts _ =>
  ⟨some (a, ts), rfl, by rintro _ _ ⟨⟩; exact Nat.le_refl _⟩

theorem ends_fail : Ends n k (fail : Reader α) := fun _ _ => ⟨none, rfl, nofun⟩

theorem ends_look : Ends n 0 look
  | .ok t :: rest, _ => ⟨some (t, .ok t :: rest), rfl, by rintro _ _ ⟨⟩; exact Nat.le_refl _⟩
  | .error _ :: _, _ => ⟨none, rfl, nofun⟩
  | [], _ => ⟨none, rfl, nofun⟩

theorem ends_lookKind : Ends n 0 lookKind := ends_look.bind fun _ => ends_pure _

theorem ends_take : Ends n 1 take
  | .ok t :: rest, _ => ⟨some (t, rest), rfl, by rintro _ _ ⟨⟩; exact Nat.le_refl _⟩
  | .error _ :: _, _ => ⟨none, rfl, nofun⟩
  | [], _ => ⟨none, rfl, nofun⟩

theorem ends_expect (kind : TokenKind) : Ends n 1 (expect kind) := by
  rintro (_ | ⟨_ | t, rest⟩) _
  · exact ⟨none, rfl, nofun⟩
  · exact ⟨none, rfl, nofun⟩
  · by_cases same : t.kind = kind
    · exact ⟨some (t, rest), if_pos same, by rintro _ _ ⟨⟩; exact Nat.le_refl _⟩
    · exact ⟨none, if_neg same, nofun⟩

/-- Two ways on: with fewer tokens, or with all of them. -/
theorem ends_took_bind (kind : TokenKind) {g : Bool → Reader β} (le : k ≤ 1)
    (yes : Ends n 0 (g true)) (no : Ends (n + 1) k (g false)) :
    Ends (n + 1) k (took kind >>= g) := by
  intro ts fewer
  by_cases next : ∃ t rest, ts = .ok t :: rest ∧ t.kind = kind
  · obtain ⟨t, rest, rfl, same⟩ := next
    obtain ⟨x, ran, left⟩ := yes rest (Nat.lt_of_succ_lt_succ fewer)
    refine ⟨x, (bind_of_run (took_of_kind same)).trans ran, fun b more found => ?_⟩
    have := left b more found
    rw [List.length_cons]
    omega
  · have other : ∀ t rest, ts = .ok t :: rest → t.kind ≠ kind := fun t rest here same =>
      next ⟨t, rest, here, same⟩
    obtain ⟨x, ran, left⟩ := no ts fewer
    exact ⟨x, (bind_of_run (took_of_ne other)).trans ran, left⟩

theorem ends_literal : Ends n 1 literal := by
  refine ends_take.then (k := 0) fun t => ?_
  cases Parser.literalValue t with
  | ok value => exact ends_pure _
  | error e => exact ends_fail

theorem ends_target (e : Expr) : Ends n 0 (target e) := by
  unfold target
  split
  · exact ends_pure e
  · exact ends_fail

/-- On fewer than `n` tokens the readers end. -/
structure Ending (rules : Grammar) (n : Nat) : Prop where
  assignment : Ends n 1 rules.assignment
  operand : ∀ l, Ends n 1 (rules.operand l)
  chain : ∀ l e, Ends n 0 (rules.chain l e)
  container : ∀ line e, Ends n 1 (rules.container line e)
  continued : ∀ e, Ends n 0 (rules.continued e)
  power : Ends n 1 rules.power
  raised : ∀ e, Ends n 0 (rules.raised e)
  unary : Ends n 1 rules.unary
  suffixes : ∀ e, Ends n 0 (rules.suffixes e)
  dimensions : Ends n 0 rules.dimensions
  items : ∀ close, Ends n 0 (rules.items close)
  arguments : ∀ close, Ends n 1 (rules.arguments close)

theorem ending_zero (rules : Grammar) : Ending rules 0 := by
  constructor
  all_goals
    intros
    exact ends_zero _ _

variable {rules : Grammar} (h : Ending rules n)

include h

-- With one token more, a reader that has taken a token goes on with readers that end.

theorem ends_dimensions : Ends (n + 1) 0 rules.dimensions := by
  rw [dimensions]
  refine ends_took_bind .leftBracket (Nat.zero_le 1) ?_ (ends_pure [])
  refine ends_literal.any.bind fun l => ?_
  obtain ⟨value, line⟩ := l
  cases value with
  | int size =>
    refine (ends_expect _).any.bind fun _ => ?_
    exact h.dimensions.bind fun sizes => ends_pure _
  | _ => exact ends_fail

theorem ends_named : Ends (n + 1) 1 rules.named := by
  rw [named]
  refine (ends_expect _).some_bind fun t => ends_lookKind.bind fun kind => ?_
  split
  · refine ends_take.any.bind fun _ => h.assignment.any.bind fun e => ?_
    exact (ends_expect _).any.bind fun _ => ends_pure _
  · exact ends_pure _

theorem ends_new : Ends (n + 1) 1 rules.new := by
  rw [new]
  refine (ends_expect _).some_bind fun t => ends_lookKind.bind fun kind => ?_
  split
  · exact h.dimensions.bind fun dims => ends_pure _
  · refine (ends_expect _).any.bind fun cls => (ends_expect _).any.bind fun _ => ?_
    exact (h.arguments _).any.bind fun args => ends_pure _

theorem ends_primary : Ends (n + 1) 1 rules.primary := by
  rw [primary]
  refine ends_look.bind fun t => ?_
  split
  · exact ends_named h
  · exact ends_new h
  · refine ends_take.some_bind fun _ => h.assignment.any.bind fun e => ?_
    exact (ends_expect _).any.bind fun _ => ends_pure e
  · exact ends_take.some_bind fun _ => (h.arguments _).any.bind fun items => ends_pure _
  iterate 6 exact ends_literal.some_bind fun l => ends_pure _
  · exact ends_fail

theorem ends_suffixes (e : Expr) : Ends (n + 1) 0 (rules.suffixes e) := by
  rw [suffixes]
  refine ends_lookKind.bind fun kind => ?_
  split
  · refine Ends.any (ends_take.some_bind fun _ => (h.arguments _).any.bind fun args => ?_)
    exact h.suffixes _
  · refine Ends.any (ends_take.some_bind fun _ => (ends_expect _).any.bind fun t => ?_)
    exact h.suffixes _
  · refine Ends.any (ends_take.some_bind fun _ => h.assignment.any.bind fun i => ?_)
    exact (ends_expect _).any.bind fun _ => h.suffixes _
  iterate 2
    refine Ends.any (ends_take.some_bind fun _ => (ends_target e).bind fun e => ?_)
    exact h.suffixes _
  · exact ends_pure e

theorem ends_unary : Ends (n + 1) 1 rules.unary := by
  rw [unary]
  refine ends_lookKind.bind fun kind => ?_
  split
  iterate 2 exact ends_take.some_bind fun _ => h.unary.any.bind fun e => ends_pure _
  iterate 2
    refine ends_take.some_bind fun _ => h.unary.any.bind fun e => ?_
    exact (ends_target e).bind fun e => ends_pure _
  · exact (ends_primary h).some_bind fun e => h.suffixes e

theorem ends_raised (base : Expr) : Ends (n + 1) 0 (rules.raised base) := by
  rw [raised]
  refine ends_lookKind.bind fun kind => ?_
  split
  · exact Ends.any (ends_take.some_bind fun t => h.power.any.bind fun e => ends_pure _)
  · exact ends_pure base

theorem ends_power : Ends (n + 1) 1 rules.power := by
  rw [power]
  exact (ends_unary h).some_bind fun base => h.raised base

theorem ends_chain (l : Level) (lhs : Expr) : Ends (n + 1) 0 (rules.chain l lhs) := by
  rw [chain]
  refine ends_lookKind.bind fun kind => ?_
  cases l.operator? kind with
  | some op =>
    exact Ends.any (ends_take.some_bind fun t => (h.operand l).any.bind fun rhs => h.chain l _)
  | none =>
    dsimp only
    split
    · refine Ends.any (ends_take.some_bind fun t => (h.container _ _).any.bind fun e => ?_)
      exact (h.continued e).bind fun e => h.chain l e
    · exact ends_pure lhs

theorem ends_level {l : Level} (inner : Ends (n + 1) 1 (rules.operand l)) :
    Ends (n + 1) 1 (rules.level l) := by
  rw [level]
  exact inner.some_bind fun e => h.chain l e

theorem ends_operand (l : Level) : Ends (n + 1) 1 (rules.operand l) := by
  have multiplicative : Ends (n + 1) 1 (rules.operand .multiplicative) := by
    rw [operand.eq_def]
    exact ends_power h
  have additive : Ends (n + 1) 1 (rules.operand .additive) := by
    rw [operand.eq_def]
    exact ends_level h multiplicative
  have concat : Ends (n + 1) 1 (rules.operand .concat) := by
    rw [operand.eq_def]
    exact ends_level h additive
  have relational : Ends (n + 1) 1 (rules.operand .relational) := by
    rw [operand.eq_def]
    exact ends_level h concat
  have equality : Ends (n + 1) 1 (rules.operand .equality) := by
    rw [operand.eq_def]
    exact ends_level h relational
  have and : Ends (n + 1) 1 (rules.operand .and) := by
    rw [operand.eq_def]
    exact ends_level h equality
  have or : Ends (n + 1) 1 (rules.operand .or) := by
    rw [operand.eq_def]
    exact ends_level h and
  cases l <;> assumption

theorem ends_container (line : Nat) (value : Expr) :
    Ends (n + 1) 1 (rules.container line value) := by
  rw [container]
  refine ends_took_bind .pipe (Nat.le_refl 1) ?_ ?_
  · refine h.assignment.any.bind fun lower => (ends_expect _).any.bind fun _ => ?_
    refine h.assignment.any.bind fun upper => (ends_expect _).any.bind fun _ => ends_pure _
  · exact (ends_level h (ends_operand h .concat)).some_bind fun object => ends_pure _

theorem ends_continued (e : Expr) : Ends (n + 1) 0 (rules.continued e) := by
  rw [continued.eq_def]
  split
  · split
    · refine (ends_raised h _).bind fun factor => (ends_chain h _ _).bind fun e => ?_
      exact (ends_chain h _ _).bind fun e => ends_chain h _ e
    · exact ends_pure _
  · exact ends_pure _

theorem ends_ternary : Ends (n + 1) 1 rules.ternary := by
  rw [ternary]
  refine (ends_level h (ends_operand h .or)).some_bind fun cond => ends_lookKind.bind fun kind => ?_
  split
  · refine ends_take.any.bind fun t => h.assignment.any.bind fun yes => ?_
    exact (ends_expect _).any.bind fun _ => h.assignment.any.bind fun no => ends_pure _
  · exact ends_pure cond

theorem ends_assignment : Ends (n + 1) 1 rules.assignment := by
  rw [assignment]
  refine (ends_ternary h).some_bind fun e => ends_lookKind.bind fun kind => ?_
  cases assign? kind with
  | none => exact ends_pure e
  | some op =>
    refine ends_take.any.bind fun t => (ends_target e).bind fun e => ?_
    exact h.assignment.any.bind fun value => ends_pure _

theorem ends_items (close : TokenKind) : Ends (n + 1) 0 (rules.items close) := by
  rw [items]
  refine ends_lookKind.bind fun kind => ?_
  split
  · exact ends_pure []
  · refine Ends.any ((ends_assignment h).some_bind fun e => ends_lookKind.bind fun kind => ?_)
    split
    · exact (ends_expect _).any.bind fun _ => (h.items close).bind fun rest => ends_pure _
    · exact ends_pure _

theorem ends_arguments (close : TokenKind) : Ends (n + 1) 1 (rules.arguments close) := by
  rw [arguments]
  exact (ends_items h close).bind fun args => (ends_expect _).some_bind fun _ => ends_pure args

theorem ending_succ : Ending rules (n + 1) where
  assignment := ends_assignment h
  operand := ends_operand h
  chain := ends_chain h
  container := ends_container h
  continued := ends_continued h
  power := ends_power h
  raised := ends_raised h
  unary := ends_unary h
  suffixes := ends_suffixes h
  dimensions := ends_dimensions h
  items := ends_items h
  arguments := ends_arguments h

omit h

theorem ending (rules : Grammar) (n : Nat) : Ending rules n := by
  induction n with
  | zero => exact ending_zero rules
  | succ n ih => exact ending_succ ih

theorem isSome_assignment (rules : Grammar) (ts : Tokens) :
    (rules.assignment.run ts).run.isSome = true := by
  obtain ⟨x, ran, -⟩ := (ending rules (ts.length + 1)).assignment ts (Nat.lt_succ_self _)
  rw [ran]
  rfl

/-- The expression in front of some tokens and the tokens behind it, or a failure. -/
def read (rules : Grammar) (ts : Tokens) : Option (Expr × Tokens) :=
  (rules.assignment.run ts).run.get (isSome_assignment rules ts)

theorem read_of_run {ts : Tokens} {x : Option (Expr × Tokens)}
    (ran : rules.assignment.run ts = OptionT.mk (some x)) : rules.read ts = x :=
  Option.get_of_eq_some (isSome_assignment rules ts) ran

end ends

end Grammar

end GraalScript
