import GraalScript.Proofs.Tree.Printer

/-! Reading printed expressions. In front of tokens without places a parser takes what an expression
is printed to and gives the expression back. -/
namespace GraalScript

open TokenKind Print

/-- Where a reader stands, apart from the tokens to come. -/
structure Place where
  size : Nat
  depth : Nat
  limit : Nat
  loops : Nat
  switches : Nat

def Recast.flat : Recast := .lines fun _ => Pos.origin.line

namespace Place

def before (pl : Place) (ts : List Token) : Stream :=
  ⟨ts.map .ok, pl.size, Pos.origin.line, pl.depth, pl.limit, pl.loops, pl.switches⟩

def deeper (pl : Place) : Place := { pl with depth := pl.depth + 1 }

/-- Levels and rounds enough for `k` tokens. -/
structure Room (pl : Place) (k : Nat) : Prop where
  levels : pl.depth + k ≤ pl.limit
  rounds : k ≤ pl.size

theorem Room.mono {pl : Place} {j k : Nat} (h : pl.Room k) (le : j ≤ k) : pl.Room j :=
  ⟨Nat.le_trans (Nat.add_le_add_left le _) h.levels, Nat.le_trans le h.rounds⟩

theorem Room.deeper {pl : Place} {k : Nat} (h : pl.Room (k + 1)) : pl.deeper.Room k := by
  have := h.levels
  refine ⟨?_, Nat.le_of_succ_le h.rounds⟩
  change pl.depth + 1 + k ≤ pl.limit
  omega

end Place

namespace Parser

variable {α β γ : Type} {pl : Place} {p : Parser α} {ts mid rest : List Token} {a : α} {b : β}

/-- From the tokens `ts` the parser `p` goes on to `rest` and gives `a`. -/
def Takes (pl : Place) (p : Parser α) (ts rest : List Token) (a : α) : Prop :=
  p.run (pl.before ts) = (.ok a, pl.before rest)

theorem takes_pure : Takes pl (pure a) ts ts a := rfl

theorem Takes.bind {f : α → Parser β} (first : Takes pl p ts mid a)
    (second : Takes pl (f a) mid rest b) : Takes pl (p >>= f) ts rest b := by
  rw [Takes, run_bind, first]
  exact second

theorem takes_peek (t : Token) : Takes pl peek (t :: ts) (t :: ts) t := rfl

theorem takes_peekKind (t : Token) : Takes pl peekKind (t :: ts) (t :: ts) t.kind := rfl

theorem takes_advance (kind : TokenKind) (x : String) :
    Takes pl advance (.bare kind x :: ts) ts (.bare kind x) := rfl

theorem takes_consume (kind : TokenKind) (x : String) :
    Takes pl (consume kind) (.bare kind x :: ts) ts (.bare kind x) := by
  change (((pl.before (.bare kind x :: ts)).consume kind).1.mapError ParseError.token,
    ((pl.before (.bare kind x :: ts)).consume kind).2) = _
  have here : (pl.before (.bare kind x :: ts)).consume kind = (.ok (.bare kind x), pl.before ts) :=
    if_pos rfl
  rw [here]
  rfl

theorem takes_accept (kind : TokenKind) (x : String) :
    Takes pl (accept kind) (.bare kind x :: ts) ts true := by
  change (Except.ok ((pl.before (.bare kind x :: ts)).accept kind).1, _) = _
  have here : (pl.before (.bare kind x :: ts)).consume kind = (.ok (.bare kind x), pl.before ts) :=
    if_pos rfl
  rw [Stream.accept, here]

theorem takes_notAccept {kind : TokenKind} {t : Token} (h : t.kind ≠ kind) :
    Takes pl (accept kind) (t :: ts) (t :: ts) false := by
  change (Except.ok ((pl.before (t :: ts)).accept kind).1, _) = _
  have here : (pl.before (t :: ts)).consume kind =
      (.error (.mismatch kind t.kind t.line), pl.before (t :: ts)) := if_neg h
  rw [Stream.accept, here]

theorem takes_ident (x : String) : Takes pl ident (named x :: ts) ts ⟨x, Pos.origin.line⟩ :=
  (takes_consume .ident x).bind takes_pure

theorem takes_lastLine : Takes pl lastLine ts ts Pos.origin.line := rfl

theorem takes_room : Takes pl room ts ts (pl.limit - pl.depth) := rfl

theorem takes_nested (room : pl.depth < pl.limit) (h : Takes pl.deeper p ts rest a) :
    Takes pl (nested p) ts rest a := by
  have enter : (pl.before ts).enter = some (pl.deeper.before ts) := if_pos room
  rw [Takes, run_nested, enter]
  simp only [show p.run (pl.deeper.before ts) = _ from h]
  rfl

section loops

variable {step : α → Parser (α ⊕ β)}

theorem takes_done {n : Nat} (last : Takes pl (step a) ts rest (.inr b)) :
    Takes pl (iterate step (n + 1) a) ts rest b := last.bind takes_pure

theorem takes_next {n : Nat} {a' : α} (first : Takes pl (step a) ts mid (.inl a'))
    (others : Takes pl (iterate step n a') mid rest b) :
    Takes pl (iterate step (n + 1) a) ts rest b :=
  first.bind others

theorem takes_loop (h : Takes pl (iterate step (pl.size + 1) a) ts rest b) :
    Takes pl (loop a step) ts rest b :=
  h

theorem takes_twice {a' : α} (some : 0 < pl.size) (first : Takes pl (step a) ts mid (.inl a'))
    (last : Takes pl (step a') mid rest (.inr b)) : Takes pl (loop a step) ts rest b := by
  obtain ⟨n, size⟩ := Nat.exists_eq_succ_of_ne_zero (Nat.ne_of_gt some)
  refine takes_loop ?_
  rw [size]
  exact takes_next first (takes_done last)

theorem takes_collect {δ : Type} {step : List δ → Parser (List δ ⊕ β)} {print : γ → List Token}
    {f : γ → δ} {xs : List γ} (enough : xs.length ≤ pl.size)
    (each : ∀ seen x later, xs = seen ++ x :: later →
      Takes pl (step (seen.map f).reverse) (print x ++ (later.flatMap print ++ mid))
        (later.flatMap print ++ mid) (Sum.inl (f x :: (seen.map f).reverse)))
    (last : Takes pl (step (xs.map f).reverse) mid rest (Sum.inr b)) :
    Takes pl (loop [] step) (xs.flatMap print ++ mid) rest b := by
  have rounds (seen later : List γ) (n : Nat) (whole : xs = seen ++ later)
      (enough : later.length ≤ n) :
      Takes pl (iterate step (n + 1) (seen.map f).reverse) (later.flatMap print ++ mid) rest b := by
    induction later generalizing seen n with
    | nil =>
      rw [List.append_nil] at whole
      subst whole
      exact takes_done last
    | cons x later ih =>
      obtain ⟨n, rfl⟩ :=
        Nat.exists_eq_succ_of_ne_zero (Nat.ne_of_gt (Nat.lt_of_lt_of_le (Nat.succ_pos _) enough))
      rw [List.flatMap_cons, List.append_assoc]
      refine takes_next (each seen x later whole) ?_
      have further :=
        ih (seen ++ [x]) n (by rw [whole, List.append_assoc]; rfl) (Nat.le_of_succ_le_succ enough)
      rwa [List.map_append, List.reverse_append] at further
  exact takes_loop (rounds [] xs pl.size rfl enough)

/-- A loop over parts with commas between them; `value` is what a state and the parts still to come
make. -/
theorem takes_commas {step : α → Parser (α ⊕ β)} {print : γ → List Token} (value : α → List γ → β)
    {xs : List γ} {n : Nat} (some : xs ≠ []) (enough : xs.length ≤ n)
    (more : ∀ x ∈ xs, ∀ a rest, ∃ a',
      Takes pl (step a) (print x ++ TokenKind.comma.bare :: rest) rest (.inl a') ∧
      ∀ later, value a' later = value a (x :: later))
    (last : ∀ x ∈ xs, ∀ a, Takes pl (step a) (print x ++ mid) rest (.inr (value a [x]))) :
    Takes pl (iterate step n a) (Print.commas (xs.map print) ++ mid) rest (value a xs) := by
  induction xs generalizing a n with
  | nil => exact absurd rfl some
  | cons x xs ih =>
    obtain ⟨n, rfl⟩ :=
      Nat.exists_eq_succ_of_ne_zero (Nat.ne_of_gt (Nat.lt_of_lt_of_le (Nat.succ_pos _) enough))
    cases xs with
    | nil => exact takes_done (last x List.mem_cons_self a)
    | cons next later =>
      rw [List.map_cons, List.map_cons, Print.commas, List.append_assoc, List.cons_append,
        ← List.map_cons]
      obtain ⟨a', first, same⟩ :=
        more x List.mem_cons_self a (Print.commas ((next :: later).map print) ++ mid)
      refine takes_next first ?_
      rw [← same]
      exact ih nofun (Nat.le_of_succ_le_succ enough)
        (fun y hy => more y (List.mem_cons_of_mem _ hy))
        fun y hy => last y (List.mem_cons_of_mem _ hy)

end loops

def isEnd : TokenKind → Bool
  | .rightParen | .rightBracket | .rightBrace | .comma | .colon | .semicolon | .pipe => true
  | _ => false

def Ends (ts : List Token) : Prop := ∃ t us, ts = t :: us ∧ isEnd t.kind = true

theorem ends_bare {kind : TokenKind} (h : isEnd kind = true) (x : String) (ts : List Token) :
    Ends (.bare kind x :: ts) := ⟨_, ts, rfl, h⟩

theorem takes_comma : Takes pl comma (TokenKind.comma.bare :: ts) ts (some TokenKind.comma.bare) :=
  (takes_peekKind _).bind ((takes_consume _ _).bind takes_pure)

theorem takes_noComma {t : Token} (h : t.kind ≠ .comma) :
    Takes pl comma (t :: ts) (t :: ts) none := by
  refine (takes_peekKind t).bind ?_
  rw [if_neg h]
  exact takes_pure

theorem takes_listed {print : γ → List Token} {f : γ → α} {close : TokenKind} {xs : List γ}
    (enough : xs.length ≤ pl.size + 1) (isClose : isEnd close = true) (other : close ≠ .comma)
    (starts : ∀ x ∈ xs, ∃ t ts, print x = t :: ts ∧ t.kind ≠ close)
    (each : ∀ x ∈ xs, ∀ rest, Ends rest → Takes pl p (print x ++ rest) rest (f x)) :
    Takes pl (listed p close) (Print.commas (xs.map print) ++ close.bare :: rest)
      (close.bare :: rest)
      ⟨xs.map f, false⟩ := by
  refine takes_loop ?_
  by_cases some : xs = []
  · subst some
    refine takes_done ((takes_peekKind _).bind ?_)
    rw [if_pos (show close.bare.kind = close from rfl)]
    exact takes_pure
  · refine takes_commas
      (fun (seen : Listed α) later => (⟨seen.items.reverse ++ later.map f, false⟩ : Listed α)) some
      enough ?_ ?_
    · intro x hx seen rest
      obtain ⟨t, ts, start, notClose⟩ := starts x hx
      have read := each x hx (TokenKind.comma.bare :: rest) (ends_bare rfl _ _)
      refine ⟨⟨f x :: seen.items, true⟩, ?_, fun later => by simp⟩
      rw [start] at read ⊢
      refine (takes_peekKind t).bind ?_
      rw [if_neg notClose]
      exact read.bind (takes_comma.bind takes_pure)
    · intro x hx seen
      obtain ⟨t, ts, start, notClose⟩ := starts x hx
      have read := each x hx (close.bare :: rest) (ends_bare isClose _ _)
      rw [start] at read ⊢
      refine (takes_peekKind t).bind ?_
      rw [if_neg notClose]
      refine read.bind ((takes_noComma other).bind ?_)
      simp only [List.map_cons, List.map_nil, ← List.reverse_cons]
      exact takes_pure

theorem intLiteral_of_isDigits {text : String} (h : Lexer.IsDigits text.toList) :
    intLiteral text = some ((readWord 10 text.toList).elim (.float text) .int) := by
  have mark {x : Char} (digit : x.isDigit = false) (ds : List Char) :
      text.toList ≠ '0' :: x :: ds := by
    intro chars
    have := h.digits x (by simp [chars])
    rw [digit] at this
    cases this
  unfold intLiteral
  split
  next ds chars => exact absurd chars (mark rfl ds)
  next ds chars => exact absurd chars (mark rfl ds)
  next => rfl

theorem readWord_repr (n : UInt32) : readWord 10 (Nat.repr n.toNat).toList = some n := by
  have digits := Nat.ofDigitChars_toDigits (b := 10) (n := n.toNat) (by decide) (by decide)
  have value : (Nat.toDigits 10 n.toNat).foldl (fun n c => 10 * n + Text.digitValue c) 0 =
      n.toNat := by
    refine Eq.trans (List.foldl_ext _ _ _ fun m c inside => ?_) digits
    have digit : c.isDigit = true := Nat.isDigit_of_mem_toDigits (by decide) (by decide) inside
    simp [Text.digitValue, digit]
  have small : n.toNat < 0x100000000 := n.toNat_lt
  rw [readWord, Nat.repr, String.toList_ofList, value, if_pos small, UInt32.ofNat_toNat]

theorem literalValue_token_of_written {value : Literal} (h : value.Written) :
    literalValue value.token = .ok value := by
  cases value with
  | int n =>
    have read : intLiteral (Nat.repr n.toNat) = some (.int n) := by
      rw [intLiteral_of_isDigits (isDigits_repr _), readWord_repr]
      rfl
    simp [Literal.token, literalValue, Token.bare, read]
  | float text =>
    rcases h with fraction | ⟨digits, large⟩
    · have point : '.' ∈ text.toList := by
        obtain ⟨whole, part, chars, _⟩ := fraction
        simp [chars]
      simp [Literal.token, literalValue, Token.bare, point]
    · have read : intLiteral text = some (.float text) := by
        rw [intLiteral_of_isDigits digits, large]
        rfl
      simp [Literal.token, literalValue, Token.bare, point_notMem digits, read]
  | str value => simp [Literal.token, literalValue, Token.bare, Text.unescape_literal]
  | bool value => cases value <;> rfl
  | null => rfl

theorem takes_literal {value : Literal} (h : value.Written) :
    Takes pl literal (value.token :: ts) ts (value, Pos.origin.line) := by
  have line : value.token.line = Pos.origin.line := by
    rcases value with _ | _ | _ | value | _
    case bool => cases value <;> rfl
    all_goals rfl
  have first : Takes pl advance (value.token :: ts) ts value.token := by
    rcases value with _ | _ | _ | value | _
    case bool => cases value <;> rfl
    all_goals rfl
  refine first.bind ?_
  rw [literalValue_token_of_written h, line]
  exact takes_pure

def isSuffix : TokenKind → Bool
  | .leftParen | .dot | .leftBracket | .plusPlus | .minusMinus => true
  | _ => false

section level

variable {deeper : Goal → Parser Expr} {e : Expr} {t : Token}

theorem takes_suffix_end (stop : isSuffix t.kind = false) :
    Takes pl (suffix deeper e) (t :: ts) (t :: ts) (.inr e) := by
  refine (takes_peekKind t).bind ?_
  generalize t.kind = kind at stop
  cases kind <;> first | exact takes_pure | cases stop

theorem takes_suffixed (stop : isSuffix t.kind = false)
    (h : Takes pl (primary deeper) ts (t :: rest) e) :
    Takes pl (suffixed deeper) ts (t :: rest) e :=
  h.bind (takes_loop (takes_done (takes_suffix_end stop)))

theorem takes_suffixed_once {e' : Expr} (some : 0 < pl.size) (stop : isSuffix t.kind = false)
    (first : Takes pl (primary deeper) ts mid e)
    (second : Takes pl (suffix deeper e) mid (t :: rest) (.inl e')) :
    Takes pl (suffixed deeper) ts (t :: rest) e' :=
  first.bind (takes_twice some second (takes_suffix_end stop))

theorem takes_unary_of_suffixed (plain : unary? t.kind = none ∧ step? t.kind = none)
    (h : Takes pl (suffixed deeper) (t :: ts) rest e) :
    Takes pl (unary deeper) (t :: ts) rest e := by
  refine (takes_peekKind t).bind ?_
  rw [plain.1, plain.2]
  exact h

theorem takes_connected_end (stop : connective? t.kind = none) (least : Nat) :
    Takes pl (connected deeper least e) (t :: ts) (t :: ts) (.inr e) := by
  refine (takes_peekKind t).bind ?_
  rw [stop]
  exact takes_pure

theorem takes_binary_of_unary (stop : connective? t.kind = none) (least : Nat)
    (h : Takes pl (unary deeper) ts (t :: rest) e) :
    Takes pl (binary deeper least) ts (t :: rest) e :=
  h.bind (takes_loop (takes_done (takes_connected_end stop least)))

theorem takes_ternary_of_binary (stop : t.kind ≠ .question)
    (h : Takes pl (binary deeper 1) ts (t :: rest) e) :
    Takes pl (ternary deeper) ts (t :: rest) e :=
  h.bind ((takes_notAccept stop).bind takes_pure)

theorem takes_assignment_of_ternary (stop : assignment? t.kind = none)
    (h : Takes pl (ternary deeper) ts (t :: rest) e) :
    Takes pl (assignment deeper) ts (t :: rest) e := by
  refine h.bind ((takes_peekKind t).bind ?_)
  rw [stop]
  exact takes_pure

theorem stops_of_isEnd {kind : TokenKind} (h : isEnd kind = true) :
    isSuffix kind = false ∧ connective? kind = none ∧ kind ≠ .question ∧
      assignment? kind = none := by
  cases kind <;> first | exact ⟨rfl, rfl, by decide, rfl⟩ | cases h

theorem takes_assignment_of_binary (ends : Ends rest) (h : Takes pl (binary deeper 1) ts rest e) :
    Takes pl (assignment deeper) ts rest e := by
  obtain ⟨t, us, rfl, isEnd⟩ := ends
  obtain ⟨_, _, question, assign⟩ := stops_of_isEnd isEnd
  exact takes_assignment_of_ternary assign (takes_ternary_of_binary question h)

theorem takes_assignment_of_unary (ends : Ends rest) (h : Takes pl (unary deeper) ts rest e) :
    Takes pl (assignment deeper) ts rest e := by
  obtain ⟨t, us, rfl, isEnd⟩ := id ends
  exact takes_assignment_of_binary ends (takes_binary_of_unary (stops_of_isEnd isEnd).2.1 1 h)

def Goal.starts : Goal → Bool
  | .membership .. => false
  | _ => true

/-- The tokens of an expression are read back in front of a closing parenthesis. -/
def Back (pl : Place) (p : Parser Expr) (e : Expr) : Prop :=
  ∀ rest, Takes pl p (e.tokens ++ rightParen.bare :: rest) (rightParen.bare :: rest)
    (e.recast .flat)

/-- Below, an expression is read back, with and without its parentheses. -/
structure Knows (pl : Place) (deeper : Goal → Parser Expr) (e : Expr) : Prop where
  inner : Back pl (deeper .assignment) e
  outer : ∀ g rest, g.starts = true → Ends rest →
    Takes pl (deeper g) (e.print ++ rest) rest (e.recast .flat)

theorem ends_rightParen : Ends (rightParen.bare :: rest) := ends_bare rfl _ _

theorem print_append (e : Expr) (rest : List Token) :
    e.print ++ rest = leftParen.bare :: (e.tokens ++ rightParen.bare :: rest) := by
  simp [Expr.print, parens]

theorem takes_primary_print (h : Back pl (deeper .assignment) e) :
    Takes pl (primary deeper) (e.print ++ rest) rest (e.recast .flat) := by
  rw [print_append]
  refine (takes_peek leftParen.bare).bind ((takes_advance _ _).bind ?_)
  exact (h rest).bind ((takes_consume _ _).bind takes_pure)

theorem takes_unary_print (h : Back pl (deeper .assignment) e) (stop : isSuffix t.kind = false) :
    Takes pl (unary deeper) (e.print ++ t :: rest) (t :: rest) (e.recast .flat) :=
  takes_unary_of_suffixed ⟨rfl, rfl⟩ (takes_suffixed stop (takes_primary_print h))

theorem takes_goal_print (h : Back pl (deeper .assignment) e) {g : Goal} (starts : g.starts = true)
    (ends : Ends rest) : Takes pl (goal deeper g) (e.print ++ rest) rest (e.recast .flat) := by
  obtain ⟨t, us, rfl, isEnd⟩ := id ends
  obtain ⟨suffix, connective, _⟩ := stops_of_isEnd isEnd
  have unary : Takes pl (unary deeper) (e.print ++ t :: us) (t :: us) (e.recast .flat) :=
    takes_unary_print h suffix
  cases g with
  | assignment => exact takes_assignment_of_unary ends unary
  | binary power => exact takes_binary_of_unary connective power unary
  | membership => cases starts
  | unary => exact unary

theorem takes_arguments {args : List Expr} (enough : args.length ≤ pl.size + 1) (close : TokenKind)
    (isClose : isEnd close = true) (other : close ≠ .comma) (notOpen : close ≠ .leftParen)
    (each : ∀ a ∈ args, Knows pl deeper a) :
    Takes pl (arguments deeper close) (commas (Expr.tokensAll args) ++ close.bare :: rest) rest
      (args.map (Expr.recast .flat)) := by
  have read :
      Takes pl (listed (deeper .assignment) close)
        (commas (args.map Expr.print) ++ close.bare :: rest)
      (close.bare :: rest) ⟨args.map (Expr.recast .flat), false⟩ := by
    refine takes_listed enough isClose other
      (fun a _ => ⟨leftParen.bare, _, rfl, Ne.symm notOpen⟩) ?_
    exact fun a ha rest ends => (each a ha).outer .assignment rest rfl ends
  rw [Expr.tokensAll_eq]
  exact read.bind ((takes_consume _ _).bind takes_pure)

section forms

variable {line : Nat}

theorem back_literal {value : Literal} (h : value.Written) :
    Back pl (assignment deeper) (.literal line value) := by
  intro rest
  refine takes_assignment_of_unary ends_rightParen
    (takes_unary_of_suffixed ?_ (takes_suffixed rfl ?_))
  · rcases value with _ | text | _ | value | _
    case bool => cases value <;> exact ⟨rfl, rfl⟩
    case float =>
      by_cases point : '.' ∈ text.toList <;> simp [Literal.token, Token.bare, point, unary?, step?]
    all_goals exact ⟨rfl, rfl⟩
  · have read :
        Takes pl literalExpr (value.token :: rightParen.bare :: rest) (rightParen.bare :: rest)
        ((Expr.literal line value).recast .flat) := (takes_literal h).bind takes_pure
    refine (takes_peek _).bind ?_
    rcases value with _ | text | _ | value | _
    case bool => cases value <;> exact read
    case float =>
      by_cases point : '.' ∈ text.toList <;> simpa [Literal.token, Token.bare, point] using read
    all_goals exact read

theorem back_name {x : String} : Back pl (assignment deeper) (.name line x .unresolved) := by
  intro rest
  refine takes_assignment_of_unary ends_rightParen
    (takes_unary_of_suffixed ⟨rfl, rfl⟩ (takes_suffixed rfl ?_))
  refine (takes_peek _).bind ((takes_ident x).bind ((takes_peekKind _).bind ?_))
  cases CastKind.ofName? x <;> exact takes_pure

theorem takes_assignment_of_suffix {e' : Expr} (some : 0 < pl.size)
    (h : Back pl (deeper .assignment) e)
    (step : Takes pl (suffix deeper (e.recast .flat)) mid (rightParen.bare :: rest) (.inl e')) :
    Takes pl (assignment deeper) (e.print ++ mid) (rightParen.bare :: rest) e' :=
  takes_assignment_of_unary ends_rightParen
    (takes_unary_of_suffixed ⟨rfl, rfl⟩ (takes_suffixed_once some rfl (takes_primary_print h) step))

theorem back_member {object : Expr} {field : Ident} (some : 0 < pl.size)
    (h : Back pl (deeper .assignment) object) :
    Back pl (assignment deeper) (.member line object field) := by
  intro rest
  have tokens : (Expr.member line object field).tokens ++ rightParen.bare :: rest =
      object.print ++ dot.bare :: named field.name :: rightParen.bare :: rest := by
        simp [Expr.tokens, Expr.print]
  rw [tokens]
  refine takes_assignment_of_suffix some h ((takes_peekKind _).bind ((takes_advance _ _).bind ?_))
  refine (takes_ident _).bind ?_
  rw [Expr.line_recast]
  exact takes_pure

theorem back_index {object i : Expr} (some : 0 < pl.size) (h : Back pl (deeper .assignment) object)
    (hi : Knows pl deeper i) : Back pl (assignment deeper) (.index line object i) := by
  intro rest
  have tokens : (Expr.index line object i).tokens ++ rightParen.bare :: rest =
      object.print ++ leftBracket.bare ::
        (i.print ++ rightBracket.bare :: rightParen.bare :: rest) := by
    simp [Expr.tokens, Expr.print]
  rw [tokens]
  refine takes_assignment_of_suffix some h ((takes_peekKind _).bind ((takes_advance _ _).bind ?_))
  refine (hi.outer .assignment _ rfl (ends_bare rfl _ _)).bind ((takes_consume _ _).bind ?_)
  rw [Expr.line_recast]
  exact takes_pure

theorem back_call {callee : Expr} {args : List Expr} (some : 0 < pl.size)
    (h : Back pl (deeper .assignment) callee) (enough : args.length ≤ pl.size + 1)
    (each : ∀ a ∈ args, Knows pl deeper a) :
    Back pl (assignment deeper) (.call line callee args) := by
  intro rest
  have tokens : (Expr.call line callee args).tokens ++ rightParen.bare :: rest =
      callee.print ++
        leftParen.bare ::
          (commas (Expr.tokensAll args) ++ rightParen.bare :: rightParen.bare :: rest) := by
    simp [Expr.tokens, Expr.print, parens]
  rw [tokens]
  refine takes_assignment_of_suffix some h ((takes_peekKind _).bind ((takes_advance _ _).bind ?_))
  refine (takes_arguments enough .rightParen rfl (by decide) (by decide) each).bind ?_
  rw [Expr.line_recast, ← Expr.recastAll_eq]
  exact takes_pure

theorem back_stepAfter {op : StepOp} {target : Expr} (some : 0 < pl.size)
    (h : Back pl (deeper .assignment) target) (assignable : target.isAssignable = true) :
    Back pl (assignment deeper) (.step line op false target) := by
  intro rest
  have tokens : (Expr.step line op false target).tokens ++ rightParen.bare :: rest =
      target.print ++ op.kind.bare :: rightParen.bare :: rest := by simp [Expr.tokens, Expr.print]
  rw [tokens]
  refine takes_assignment_of_suffix some h ?_
  have result :
      Takes pl (pure (.inl (.step (target.recast .flat).line op false (target.recast .flat))) :
        Parser (Expr ⊕ Expr))
      (rightParen.bare :: rest) (rightParen.bare :: rest)
        (.inl ((Expr.step line op false target).recast .flat)) := by
    rw [Expr.line_recast]
    exact takes_pure
  cases op <;>
    · refine (takes_peekKind _).bind ((takes_advance _ _).bind ?_)
      rw [Expr.isAssignable_recast, assignable]
      exact result

theorem back_array {items : List Expr} (enough : items.length ≤ pl.size + 1)
    (each : ∀ a ∈ items, Knows pl deeper a) : Back pl (assignment deeper) (.array line items) := by
  intro rest
  have tokens : (Expr.array line items).tokens ++ rightParen.bare :: rest =
      leftBrace.bare ::
        (commas (Expr.tokensAll items) ++ rightBrace.bare :: rightParen.bare :: rest) := by
    simp [Expr.tokens, braces]
  rw [tokens]
  refine takes_assignment_of_unary ends_rightParen
    (takes_unary_of_suffixed ⟨rfl, rfl⟩ (takes_suffixed rfl ?_))
  refine (takes_peek _).bind
    ((takes_advance _ _).bind
      ((takes_arguments enough .rightBrace rfl (by decide) (by decide) each).bind ?_))
  rw [← Expr.recastAll_eq]
  exact takes_pure

theorem back_unary {op : UnaryOp} {operand : Expr} (h : Knows pl deeper operand) :
    Back pl (assignment deeper) (.unary line op operand) := by
  intro rest
  refine takes_assignment_of_unary ends_rightParen ?_
  have read := (h.outer .unary (rightParen.bare :: rest) rfl ends_rightParen)
  cases op <;> exact (takes_peekKind _).bind ((takes_advance _ _).bind (read.bind takes_pure))

theorem back_stepBefore {op : StepOp} {target : Expr} (h : Knows pl deeper target)
    (assignable : target.isAssignable = true) :
    Back pl (assignment deeper) (.step line op true target) := by
  intro rest
  refine takes_assignment_of_unary ends_rightParen ?_
  have read := h.outer .unary (rightParen.bare :: rest) rfl ends_rightParen
  cases op <;>
    · refine (takes_peekKind _).bind ((takes_advance _ _).bind (read.bind ?_))
      rw [Expr.isAssignable_recast, assignable]
      exact takes_pure

theorem connective?_binary (op : BinaryOp) :
    ∃ power, 0 < power ∧ connective? op.kind = some (.binary op, power) := by
  cases op <;> exact ⟨_, by decide, rfl⟩

theorem connective?_logical (op : LogicalOp) :
    ∃ power, 0 < power ∧ connective? op.kind = some (.logical op, power) := by
  cases op <;> exact ⟨_, by decide, rfl⟩

theorem takes_assignment_of_connected {e' : Expr} (some : 0 < pl.size)
    (h : Back pl (deeper .assignment) e) (stop : isSuffix t.kind = false)
    (step : Takes pl (connected deeper 1 (e.recast .flat)) (t :: mid) (rightParen.bare :: rest)
      (.inl e')) :
    Takes pl (assignment deeper) (e.print ++ t :: mid) (rightParen.bare :: rest) e' := by
  refine takes_assignment_of_binary ends_rightParen ((takes_unary_print h stop).bind ?_)
  exact takes_twice some step (takes_connected_end rfl 1)

theorem back_binary {op : BinaryOp} {lhs rhs : Expr} (some : 0 < pl.size)
    (hl : Back pl (deeper .assignment) lhs) (hr : Knows pl deeper rhs) :
    Back pl (assignment deeper) (.binary line op lhs rhs) := by
  intro rest
  have tokens : (Expr.binary line op lhs rhs).tokens ++ rightParen.bare :: rest =
      lhs.print ++ op.kind.bare :: (rhs.print ++ rightParen.bare :: rest) := by
        simp [Expr.tokens, Expr.print]
  obtain ⟨power, pos, connective⟩ := connective?_binary op
  rw [tokens]
  refine takes_assignment_of_connected some hl (by cases op <;> rfl) ((takes_peekKind _).bind ?_)
  rw [show op.kind.bare.kind = op.kind from rfl, connective]
  dsimp only
  rw [if_neg (Nat.not_lt.mpr pos)]
  exact (takes_advance _ _).bind ((hr.outer (.binary _) _ rfl ends_rightParen).bind takes_pure)

theorem back_logical {op : LogicalOp} {lhs rhs : Expr} (some : 0 < pl.size)
    (hl : Back pl (deeper .assignment) lhs) (hr : Knows pl deeper rhs) :
    Back pl (assignment deeper) (.logical line op lhs rhs) := by
  intro rest
  have tokens : (Expr.logical line op lhs rhs).tokens ++ rightParen.bare :: rest =
      lhs.print ++ op.kind.bare :: (rhs.print ++ rightParen.bare :: rest) := by
        simp [Expr.tokens, Expr.print]
  obtain ⟨power, pos, connective⟩ := connective?_logical op
  rw [tokens]
  refine takes_assignment_of_connected some hl (by cases op <;> rfl) ((takes_peekKind _).bind ?_)
  rw [show op.kind.bare.kind = op.kind from rfl, connective]
  dsimp only
  rw [if_neg (Nat.not_lt.mpr pos)]
  exact (takes_advance _ _).bind ((hr.outer (.binary _) _ rfl ends_rightParen).bind takes_pure)

theorem takes_assignment_of_membership {value e' : Expr} (some : 0 < pl.size)
    (h : Back pl (deeper .assignment) value)
    (right : Takes pl (deeper (.membership (value.recast .flat) Pos.origin.line 5)) mid
      (rightParen.bare :: rest) e') :
    Takes pl (assignment deeper) (value.print ++ word .inKw :: mid) (rightParen.bare :: rest) e' :=
  takes_assignment_of_connected some h rfl
    ((takes_peekKind _).bind ((takes_advance _ _).bind (right.bind takes_pure)))

theorem takes_membership_object {value object : Expr} {power : Nat} (ends : Ends rest)
    (h : Back pl (deeper .assignment) object) :
    Takes pl (membership deeper value Pos.origin.line power) (object.print ++ rest) rest
      (.inObject Pos.origin.line value (object.recast .flat)) := by
  have read : Takes pl (binary deeper power) (object.print ++ rest) rest (object.recast .flat) :=
    takes_goal_print (g := .binary power) h rfl ends
  have notPipe : Takes pl (accept .pipe) (object.print ++ rest) (object.print ++ rest) false := by
    rw [print_append]
    exact takes_notAccept nofun
  exact notPipe.bind (read.bind takes_pure)

theorem takes_membership_range {value lower upper : Expr} {power : Nat} (hl : Knows pl deeper lower)
    (hu : Knows pl deeper upper) :
    Takes pl (membership deeper value Pos.origin.line power)
      (pipe.bare :: (lower.print ++ TokenKind.comma.bare :: (upper.print ++ pipe.bare :: rest)))
        rest
      (.inRange Pos.origin.line value (lower.recast .flat) (upper.recast .flat)) := by
  refine (takes_accept _ _).bind ((hl.outer .assignment _ rfl (ends_bare rfl _ _)).bind ?_)
  refine (takes_consume _ _).bind ((hu.outer .assignment _ rfl (ends_bare rfl _ _)).bind ?_)
  exact (takes_consume _ _).bind takes_pure

theorem back_inObject {value object : Expr} (some : 0 < pl.size)
    (h : Back pl (deeper .assignment) value)
    (right : ∀ rest, Takes pl (deeper (.membership (value.recast .flat) Pos.origin.line 5))
      (object.print ++ rightParen.bare :: rest) (rightParen.bare :: rest)
      (.inObject Pos.origin.line (value.recast .flat) (object.recast .flat))) :
    Back pl (assignment deeper) (.inObject line value object) := by
  intro rest
  have tokens : (Expr.inObject line value object).tokens ++ rightParen.bare :: rest =
      value.print ++ word .inKw :: (object.print ++ rightParen.bare :: rest) := by
        simp [Expr.tokens, Expr.print]
  rw [tokens]
  exact takes_assignment_of_membership some h (right rest)

theorem back_inRange {value lower upper : Expr} (some : 0 < pl.size)
    (h : Back pl (deeper .assignment) value)
    (right : ∀ rest, Takes pl (deeper (.membership (value.recast .flat) Pos.origin.line 5))
      (pipe.bare :: (lower.print ++ TokenKind.comma.bare :: (upper.print ++ pipe.bare :: rest)))
      rest (.inRange Pos.origin.line (value.recast .flat) (lower.recast .flat)
        (upper.recast .flat))) :
    Back pl (assignment deeper) (.inRange line value lower upper) := by
  intro rest
  have tokens : (Expr.inRange line value lower upper).tokens ++ rightParen.bare :: rest =
      value.print ++
      word .inKw :: pipe.bare :: (lower.print ++ TokenKind.comma.bare ::
        (upper.print ++ pipe.bare :: rightParen.bare :: rest)) := by simp [Expr.tokens, Expr.print]
  rw [tokens]
  exact takes_assignment_of_membership some h (right _)

theorem assignment?_assignKind {kind : TokenKind} {op : Option BinaryOp}
    (h : assignment? kind = some op) : assignment? (BinaryOp.assignKind op) = some op := by
  cases kind <;> cases h <;> rfl

theorem stops_assignKind (op : Option BinaryOp) : isSuffix (BinaryOp.assignKind op) = false ∧
    connective? (BinaryOp.assignKind op) = none ∧ BinaryOp.assignKind op ≠ .question := by
  rcases op with _ | op
  · exact ⟨rfl, rfl, nofun⟩
  · cases op <;> exact ⟨rfl, rfl, nofun⟩

theorem back_assign {kind : TokenKind} {op : Option BinaryOp} {target value : Expr}
    (operator : assignment? kind = some op) (assignable : target.isAssignable = true)
    (ht : Back pl (deeper .assignment) target) (hv : Knows pl deeper value) :
    Back pl (assignment deeper) (.assign line op target value) := by
  intro rest
  have tokens : (Expr.assign line op target value).tokens ++ rightParen.bare :: rest =
      target.print ++ (BinaryOp.assignKind op).bare ::
        (value.print ++ rightParen.bare :: rest) := by
    simp [Expr.tokens, Expr.print]
  rw [tokens]
  obtain ⟨suffix, connective, question⟩ := stops_assignKind op
  refine (takes_ternary_of_binary question
    (takes_binary_of_unary connective 1 (takes_unary_print ht suffix))).bind ?_
  refine (takes_peekKind _).bind ?_
  rw [show (BinaryOp.assignKind op).bare.kind = BinaryOp.assignKind op from rfl,
    assignment?_assignKind operator]
  refine (takes_advance _ _).bind ?_
  rw [Expr.isAssignable_recast, assignable]
  exact (hv.outer .assignment _ rfl ends_rightParen).bind takes_pure

theorem back_ternary {cond yes no : Expr} (hc : Back pl (deeper .assignment) cond)
    (hy : Knows pl deeper yes) (hn : Knows pl deeper no) :
    Back pl (assignment deeper) (.ternary line cond yes no) := by
  intro rest
  have tokens : (Expr.ternary line cond yes no).tokens ++ rightParen.bare :: rest = cond.print ++
      question.bare :: (yes.print ++ colon.bare :: (no.print ++ rightParen.bare :: rest)) := by
    simp [Expr.tokens, Expr.print]
  rw [tokens]
  refine takes_assignment_of_ternary rfl
    ((takes_binary_of_unary rfl 1 (takes_unary_print hc rfl)).bind ?_)
  refine (takes_accept _ _).bind
    (takes_lastLine.bind ((hy.outer .assignment _ rfl (ends_bare rfl _ _)).bind ?_))
  exact (takes_consume _ _).bind ((hn.outer .assignment _ rfl ends_rightParen).bind takes_pure)

theorem back_cast {kind : CastKind} {operand : Expr} (h : Knows pl deeper operand) :
    Back pl (assignment deeper) (.cast line kind operand) := by
  intro rest
  have tokens : (Expr.cast line kind operand).tokens ++ rightParen.bare :: rest =
      named kind.name :: leftParen.bare ::
      (operand.print ++ rightParen.bare :: rightParen.bare :: rest) := by
        simp [Expr.tokens, Expr.print, parens]
  have known : CastKind.ofName? kind.name = some kind := by cases kind <;> rfl
  rw [tokens]
  refine takes_assignment_of_unary ends_rightParen
    (takes_unary_of_suffixed ⟨rfl, rfl⟩ (takes_suffixed rfl ?_))
  refine (takes_peek _).bind ((takes_ident _).bind ((takes_peekKind _).bind ?_))
  dsimp only
  rw [known]
  refine (takes_advance _ _).bind ((h.outer .assignment _ rfl ends_rightParen).bind ?_)
  exact (takes_consume _ _).bind takes_pure

theorem takes_new (line : Nat) {cls : Ident} {args : List Expr} (enough : args.length ≤ pl.size + 1)
    (each : ∀ a ∈ args, Knows pl deeper a) :
    Takes pl (newExpr deeper) ((Expr.new line cls args).tokens ++ rest) rest
      ((Expr.new line cls args).recast .flat) := by
  have tokens : (Expr.new line cls args).tokens ++ rest = word .newKw :: named cls.name ::
      leftParen.bare ::
      (commas (Expr.tokensAll args) ++ rightParen.bare :: rest) := by simp [Expr.tokens, parens]
  rw [tokens]
  refine (takes_consume _ _).bind ((takes_peekKind _).bind ((takes_ident _).bind ?_))
  refine (takes_consume _ _).bind
    ((takes_arguments enough .rightParen rfl (by decide) (by decide) each).bind ?_)
  rw [← Expr.recastAll_eq]
  exact takes_pure

theorem takes_newArray (line : Nat) {dims : List UInt32} (nonempty : dims ≠ [])
    (enough : dims.length ≤ pl.size) (stop : t.kind ≠ .leftBracket) :
    Takes pl (newExpr deeper) ((Expr.newArray line dims).tokens ++ t :: rest) (t :: rest)
      ((Expr.newArray line dims).recast .flat) := by
  have read : Takes pl dimensions (dims.flatMap dimension ++ t :: rest) (t :: rest) dims := by
    refine takes_collect (f := id) enough (fun seen size later _ => ?_) ?_
    · have number {ts : List Token} :
          Takes pl literal ((Literal.int size).token :: ts) ts (.int size, Pos.origin.line) :=
        takes_literal trivial
      exact (takes_accept _ _).bind (number.bind ((takes_consume _ _).bind takes_pure))
    · refine (takes_notAccept stop).bind ?_
      simp only [List.map_id, List.reverse_reverse]
      exact takes_pure
  obtain ⟨size, dims, rfl⟩ := List.exists_cons_of_ne_nil nonempty
  exact (takes_consume _ _).bind ((takes_peekKind leftBracket.bare).bind (read.bind takes_pure))

theorem takes_assignment_of_new
    (h : Takes pl (newExpr deeper) (word .newKw :: ts) (rightParen.bare :: rest) e) :
    Takes pl (assignment deeper) (word .newKw :: ts) (rightParen.bare :: rest) e :=
  takes_assignment_of_unary ends_rightParen
    (takes_unary_of_suffixed ⟨rfl, rfl⟩ (takes_suffixed rfl ((takes_peek _).bind h)))

end forms

end level

/-- With a level and a round for each token, the expression is read back. -/
def ReadBack (e : Expr) : Prop :=
  ∀ k pl, e.tokens.length < k → pl.Room (e.tokens.length + 1) → Back pl (exprAt k .assignment) e

theorem ReadBack.back {e : Expr} {k : Nat} (h : ReadBack e) (levels : e.tokens.length < k)
    (room : pl.Room (e.tokens.length + 2)) : Back pl (nested (exprAt k .assignment)) e := by
  have := room.levels
  exact fun rest => takes_nested (by omega) (h k pl.deeper levels room.deeper rest)

theorem ReadBack.knows {e : Expr} {k : Nat} (h : ReadBack e) (levels : e.tokens.length + 2 ≤ k)
    (room : pl.Room (e.tokens.length + 3)) : Knows pl (fun g => nested (exprAt k g)) e := by
  refine ⟨h.back (by omega) (room.mono (by omega)), fun g rest starts ends => ?_⟩
  obtain ⟨k, rfl⟩ := Nat.exists_eq_succ_of_ne_zero (show k ≠ 0 by omega)
  have := room.levels
  exact takes_nested (by omega) (takes_goal_print (h.back (by omega) room.deeper) starts ends)

theorem length_le_commas {parts : List (List Token)} {part : List Token} (h : part ∈ parts) :
    part.length ≤ (Print.commas parts).length := by
  fun_induction Print.commas parts with
  | case1 => cases h
  | case2 only =>
    cases List.mem_singleton.mp h
    exact Nat.le_refl _
  | case3 first next parts ih =>
    rw [List.length_append, List.length_cons]
    rcases List.mem_cons.mp h with rfl | later
    · omega
    · have := ih later
      omega

theorem count_le_commas {parts : List (List Token)} (h : ∀ part ∈ parts, part ≠ []) :
    parts.length ≤ (Print.commas parts).length := by
  fun_induction Print.commas parts with
  | case1 => exact Nat.le_refl _
  | case2 only => exact List.length_pos_iff.mpr (h only List.mem_cons_self)
  | case3 first next parts ih =>
    have := ih fun part inside => h part (List.mem_cons_of_mem _ inside)
    simp only [List.length_append, List.length_cons] at this ⊢
    omega

theorem length_arguments (args : List Expr) :
    args.length ≤ (Print.commas (Expr.tokensAll args)).length := by
  have count : (args.map Expr.print).length ≤ (Print.commas (args.map Expr.print)).length := by
    refine count_le_commas fun part inside => ?_
    obtain ⟨a, _, rfl⟩ := List.mem_map.mp inside
    exact List.cons_ne_nil _ _
  rwa [List.length_map, ← Expr.tokensAll_eq] at count

theorem knows_arguments {args : List Expr} {k : Nat} (each : ∀ a ∈ args, ReadBack a)
    (levels : (Print.commas (Expr.tokensAll args)).length ≤ k)
    (room : pl.Room ((Print.commas (Expr.tokensAll args)).length + 1)) :
    ∀ a ∈ args, Knows pl (fun g => nested (exprAt k g)) a := by
  intro a ha
  have part := length_le_commas (List.mem_map_of_mem (f := Expr.print) ha)
  rw [← Expr.tokensAll_eq, Expr.print, parens] at part
  simp only [List.length_cons, List.length_append, List.length_nil] at part
  exact (each a ha).knows (by omega) (room.mono (by omega))

theorem readBack_of_level {e : Expr}
    (h : ∀ k pl, e.tokens.length ≤ k → pl.Room (e.tokens.length + 1) →
      Back pl (assignment fun g => nested (exprAt k g)) e) : ReadBack e := by
  rintro (_ | k) pl levels room
  · cases levels
  · exact h k pl (Nat.le_of_lt_succ levels) room

/-- Every formed expression is read back: each part is printed to fewer tokens than the whole. -/
theorem readBack_of_formed {n : Nat} {e : Expr} (h : e.Formed n) : ReadBack e := by
  have some {pl : Place} {k : Nat} (room : pl.Room (k + 1)) : 0 < pl.size :=
    Nat.lt_of_lt_of_le (Nat.succ_pos k) room.rounds
  induction h with
  | literal written => exact readBack_of_level fun k pl levels room => back_literal written
  | name isName => exact readBack_of_level fun k pl levels room => back_name
  | member _ _ object =>
    refine readBack_of_level fun k pl levels room => ?_
    simp only [Expr.tokens, parens, List.length_append, List.length_cons,
      List.length_nil] at levels room
    exact back_member (some room) (object.back (by omega) (room.mono (by omega)))
  | index _ _ _ object inside =>
    refine readBack_of_level fun k pl levels room => ?_
    simp only [Expr.tokens, parens, List.length_append, List.length_cons,
      List.length_nil] at levels room
    exact back_index (some room) (object.back (by omega) (room.mono (by omega)))
      (inside.knows (by omega) (room.mono (by omega)))
  | @call _ _ _ _ args _ _ _ callee inside =>
    refine readBack_of_level fun k pl levels room => ?_
    simp only [Expr.tokens, parens, List.length_append, List.length_cons,
      List.length_nil] at levels room
    have count := length_arguments args
    have rounds := room.rounds
    exact back_call (some room) (callee.back (by omega) (room.mono (by omega))) (by omega)
      (knows_arguments inside (by omega) (room.mono (by omega)))
  | @array _ _ _ items _ _ inside =>
    refine readBack_of_level fun k pl levels room => ?_
    simp only [Expr.tokens, braces, List.length_append, List.length_cons,
      List.length_nil] at levels room
    have count := length_arguments items
    have rounds := room.rounds
    exact back_array (by omega) (knows_arguments inside (by omega) (room.mono (by omega)))
  | unary _ _ operand =>
    refine readBack_of_level fun k pl levels room => ?_
    simp only [Expr.tokens, parens, List.length_append, List.length_cons,
      List.length_nil] at levels room
    exact back_unary (operand.knows (by omega) (room.mono (by omega)))
  | stepBefore _ _ assignable target =>
    refine readBack_of_level fun k pl levels room => ?_
    simp only [Expr.tokens, parens, List.length_append, List.length_cons,
      List.length_nil] at levels room
    exact back_stepBefore (target.knows (by omega) (room.mono (by omega))) assignable
  | stepAfter _ assignable target =>
    refine readBack_of_level fun k pl levels room => ?_
    simp only [Expr.tokens, parens, List.length_append, List.length_cons,
      List.length_nil] at levels room
    exact back_stepAfter (some room) (target.back (by omega) (room.mono (by omega))) assignable
  | binary _ _ _ lhs rhs =>
    refine readBack_of_level fun k pl levels room => ?_
    simp only [Expr.tokens, parens, List.length_append, List.length_cons,
      List.length_nil] at levels room
    exact back_binary (some room) (lhs.back (by omega) (room.mono (by omega)))
      (rhs.knows (by omega) (room.mono (by omega)))
  | logical _ _ _ lhs rhs =>
    refine readBack_of_level fun k pl levels room => ?_
    simp only [Expr.tokens, parens, List.length_append, List.length_cons,
      List.length_nil] at levels room
    exact back_logical (some room) (lhs.back (by omega) (room.mono (by omega)))
      (rhs.knows (by omega) (room.mono (by omega)))
  | assign operator _ assignable _ _ target value =>
    refine readBack_of_level fun k pl levels room => ?_
    simp only [Expr.tokens, parens, List.length_append, List.length_cons,
      List.length_nil] at levels room
    exact back_assign operator assignable (target.back (by omega) (room.mono (by omega)))
      (value.knows (by omega) (room.mono (by omega)))
  | ternary _ _ _ _ cond yes no =>
    refine readBack_of_level fun k pl levels room => ?_
    simp only [Expr.tokens, parens, List.length_append, List.length_cons,
      List.length_nil] at levels room
    exact back_ternary (cond.back (by omega) (room.mono (by omega)))
      (yes.knows (by omega) (room.mono (by omega)))
      (no.knows (by omega) (room.mono (by omega)))
  | cast _ _ operand =>
    refine readBack_of_level fun k pl levels room => ?_
    simp only [Expr.tokens, parens, List.length_append, List.length_cons,
      List.length_nil] at levels room
    exact back_cast (operand.knows (by omega) (room.mono (by omega)))
  | inRange _ _ _ _ value lower upper =>
    refine readBack_of_level fun k pl levels room => ?_
    simp only [Expr.tokens, parens, List.length_append, List.length_cons,
      List.length_nil] at levels room
    obtain ⟨k, rfl⟩ := Nat.exists_eq_succ_of_ne_zero (show k ≠ 0 by omega)
    have depth := room.levels
    refine back_inRange (some room) (value.back (by omega) (room.mono (by omega))) fun rest => ?_
    refine takes_nested (by omega) (takes_membership_range ?_ ?_)
    · exact lower.knows (by omega) (room.deeper.mono (by omega))
    · exact upper.knows (by omega) (room.deeper.mono (by omega))
  | inObject _ _ _ value object =>
    refine readBack_of_level fun k pl levels room => ?_
    simp only [Expr.tokens, parens, List.length_append, List.length_cons,
      List.length_nil] at levels room
    obtain ⟨k, rfl⟩ := Nat.exists_eq_succ_of_ne_zero (show k ≠ 0 by omega)
    have depth := room.levels
    refine back_inObject (some room) (value.back (by omega) (room.mono (by omega))) fun rest => ?_
    exact takes_nested (by omega) (takes_membership_object ends_rightParen
      (object.back (by omega) (room.deeper.mono (by omega))))
  | @new _ _ _ _ args _ _ _ inside =>
    refine readBack_of_level fun k pl levels room rest =>
      takes_assignment_of_new (takes_new _ ?_ ?_)
    all_goals
      simp only [Expr.tokens, parens, List.length_append, List.length_cons,
        List.length_nil] at levels room
      have count := length_arguments args
      have rounds := room.rounds
    · omega
    · exact knows_arguments inside (by omega) (room.mono (by omega))
  | @newArray _ line dims nonempty =>
    refine readBack_of_level fun k pl levels room rest => takes_assignment_of_new ?_
    refine takes_newArray line nonempty ?_ (by decide)
    have count : dims.length ≤ (dims.flatMap dimension).length := by
      simp [List.length_flatMap, dimension]
      omega
    simp only [Expr.tokens, List.length_cons] at room
    have rounds := room.rounds
    omega

end Parser

end GraalScript
