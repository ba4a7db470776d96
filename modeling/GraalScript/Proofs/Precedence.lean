import GraalScript.Proofs.Compilation
import GraalScript.Proofs.Parser.Tracks
import GraalScript.Proofs.Tree.Equality
import Mathlib.Data.List.Basic

/-! Operators read by binding power and level by level. One loop that compares binding powers reads
what the levels of the grammar read one inside the other, except behind a range `|lower, upper|`:
there the grammar goes on with comparisons only, while the loop takes an operator that binds more
tightly, with all that was read so far as its left operand. -/
namespace GraalScript

open GraalScript.Parser

namespace Grammar

variable (rules : Grammar)

def Level.up : Nat → Level
  | 0 => multiplicative
  | 1 => additive
  | 2 => concat
  | 3 => relational
  | 4 => equality
  | 5 => and
  | _ => or

/-- What may follow an operand on the level of powers and the `j` levels over it. -/
def closing : Nat → Expr → Reader Expr
  | 0, e => raised rules e
  | j + 1, e => do chain rules (.up j) (← closing j e)

theorem level_up {j : Nat} (h : j < 7) :
    level rules (.up j) = unary rules >>= closing rules (j + 1) := by
  induction j with
  | zero =>
    rw [level, Level.up, operand, power, bind_assoc]
    rfl
  | succ j ih =>
    have inner : operand rules (.up (j + 1)) = level rules (.up j) := by
      rw [operand.eq_def]
      rcases j with _ | _ | _ | _ | _ | _ | j
      iterate 6 rfl
      omega
    rw [level, inner, ih (by omega), bind_assoc]
    rfl

def Level.power : Level → Nat
  | or => 1
  | and => 2
  | equality => 3
  | relational => 4
  | concat => 5
  | additive => 6
  | multiplicative => 7

theorem Level.power_up {j : Nat} (h : j < 7) : (Level.up j).power = 7 - j := by
  match j, h with
  | 0, _ | 1, _ | 2, _ | 3, _ | 4, _ | 5, _ | 6, _ => rfl

def Operator.connective : Operator → Connective
  | binary op => .binary op
  | logical op => .logical op

theorem connective?_of_operator? {l : Level} {kind : TokenKind} {op : Operator}
    (h : l.operator? kind = some op) : connective? kind = some (op.connective, l.power) := by
  unfold Level.operator? at h
  split at h <;> cases h <;> rfl

theorem rightPower_of_operator? {l : Level} {kind : TokenKind} {op : Operator}
    (h : l.operator? kind = some op) : rightPower op.connective l.power = l.power + 1 := by
  unfold Level.operator? at h
  split at h <;> cases h <;> rfl

theorem exists_operator? {kind : TokenKind} {c : Connective} {p : Nat}
    (h : connective? kind = some (c, p)) :
    (∃ op : Operator, (Level.up (7 - p)).operator? kind = some op ∧ op.connective = c ∧
      (Level.up (7 - p)).power = p) ∨
      (kind = .caret ∧ c = .binary .pow ∧ p = 8) ∨
        (kind = .keyword .inKw ∧ c = .membership ∧ p = 4) := by
  unfold connective? at h
  split at h <;> cases h
  iterate 8 exact .inl ⟨_, rfl, rfl, rfl⟩
  · exact .inr (.inr ⟨rfl, rfl, rfl⟩)
  iterate 6 exact .inl ⟨_, rfl, rfl, rfl⟩
  · exact .inr (.inl ⟨rfl, rfl, rfl⟩)

/-- The next token is no operator of the power `k` or more. -/
def Stops (k : Nat) (ts : Tokens) : Prop :=
  ∃ t rest, ts = .ok t :: rest ∧ ∀ c p, connective? t.kind = some (c, p) → p < k

theorem Stops.mono {j k : Nat} {ts : Tokens} (h : Stops j ts) (le : j ≤ k) : Stops k ts := by
  obtain ⟨t, rest, same, weak⟩ := h
  exact ⟨t, rest, same, fun c p found => Nat.lt_of_lt_of_le (weak c p found) le⟩

variable {rules}

theorem operand_eq (l : Level) : operand rules l = unary rules >>= closing rules (7 - l.power) := by
  rw [operand.eq_def]
  cases l with
  | or => exact level_up rules (j := 5) (by decide)
  | and => exact level_up rules (j := 4) (by decide)
  | equality => exact level_up rules (j := 3) (by decide)
  | relational => exact level_up rules (j := 2) (by decide)
  | concat => exact level_up rules (j := 1) (by decide)
  | additive => exact level_up rules (j := 0) (by decide)
  | multiplicative => exact power.eq_def rules

theorem closing_level (l : Level) (e : Expr) :
    closing rules (8 - l.power) e = closing rules (7 - l.power) e >>= chain rules l := by
  cases l <;> rfl

theorem chain_of_ne {l : Level} {t : Token} (plain : l.operator? t.kind = none)
    (other : ¬(l = .relational ∧ t.kind = .keyword .inKw)) (e : Expr) (rest : Tokens) :
    (chain rules l e).run (.ok t :: rest) = pure (e, .ok t :: rest) := by
  rw [chain, bind_of_run (lookKind_token t rest), plain]
  simp only [if_neg other]
  rfl

theorem closing_of_stops {j : Nat} (h : j < 8) {ts : Tokens} (stops : Stops (8 - j) ts) (e : Expr) :
    (closing rules j e).run ts = pure (e, ts) := by
  induction j with
  | zero =>
    obtain ⟨t, rest, rfl, weak⟩ := stops
    have other : t.kind ≠ .caret := by
      intro same
      rw [same] at weak
      exact absurd (weak _ _ rfl) (by decide)
    rw [closing, raised, bind_of_run (lookKind_token t rest), if_neg other]
    rfl
  | succ j ih =>
    rw [closing, bind_of_run (ih (by omega) (stops.mono (by omega)))]
    obtain ⟨t, rest, rfl, weak⟩ := stops
    have power := Level.power_up (show j < 7 by omega)
    refine chain_of_ne (Option.eq_none_iff_forall_ne_some.mpr fun op found => ?_)
      (fun here => ?_) e rest
    · have less := weak _ _ (connective?_of_operator? found)
      omega
    · rw [here.2] at weak
      rw [here.1] at power
      have less : 4 < 8 - (j + 1) := weak _ _ rfl
      simp only [Level.power] at power
      omega

theorem closing_congr {i j : Nat} (le : i ≤ j) {e e' : Expr} {ts ts' : Tokens}
    (h : (closing rules i e).run ts = (closing rules i e').run ts') :
    (closing rules j e).run ts = (closing rules j e').run ts' := by
  induction le with
  | refl => exact h
  | step _ ih => rw [closing, closing, StateT.run_bind, StateT.run_bind, ih]

theorem closing_fail {i j : Nat} (le : i ≤ j) {e : Expr} {ts : Tokens}
    (h : (closing rules i e).run ts = OptionT.fail) :
    (closing rules j e).run ts = OptionT.fail := by
  induction le with
  | refl => exact h
  | step _ ih => exact bind_of_fail ih

theorem closing_end {ts : Tokens} (h : lookKind.run ts = OptionT.fail) (j : Nat) (e : Expr) :
    (closing rules j e).run ts = OptionT.fail := by
  refine closing_fail (Nat.zero_le j) ?_
  rw [closing, raised]
  exact bind_of_fail h

theorem Level.power_le (l : Level) : l.power ≤ 7 := by
  cases l <;> decide

theorem closing_before (l : Level) (e : Expr) {ts : Tokens} (stops : Stops (l.power + 1) ts) :
    (closing rules (8 - l.power) e).run ts = (chain rules l e).run ts := by
  have le := l.power_le
  have same : 8 - (7 - l.power) = l.power + 1 := by omega
  rw [closing_level, bind_of_run (closing_of_stops (by omega) (by rwa [same]) e)]

theorem closing_operator {l : Level} {t : Token} {op : Operator}
    (found : l.operator? t.kind = some op) (lhs : Expr) (rest : Tokens) :
    (closing rules (8 - l.power) lhs).run (.ok t :: rest) =
      (operand rules l >>= fun rhs => chain rules l (op.join t.line lhs rhs)).run rest := by
  rw [closing_before]
  · rw [chain, bind_of_run (lookKind_token t rest), found]
    exact bind_of_run (take_token t rest)
  · refine ⟨t, rest, rfl, fun c p same => ?_⟩
    rw [connective?_of_operator? found] at same
    cases same
    exact Nat.lt_succ_self _

theorem closing_caret {t : Token} (caret : t.kind = .caret) (lhs : Expr) (rest : Tokens) :
    (closing rules 0 lhs).run (.ok t :: rest) =
      (unary rules >>= closing rules 0 >>= fun rhs =>
        pure (.binary t.line .pow lhs rhs)).run rest := by
  rw [closing, raised, bind_of_run (lookKind_token t rest), if_pos caret,
    bind_of_run (take_token t rest), power.eq_def]
  rfl

theorem closing_in {t : Token} (isIn : t.kind = .keyword .inKw) (lhs : Expr) (rest : Tokens) :
    (closing rules 4 lhs).run (.ok t :: rest) = (container rules t.line lhs >>= fun e =>
      continued rules e >>= chain rules .relational).run rest := by
  have stops : Stops (Level.relational.power + 1) (.ok t :: rest) := by
    refine ⟨t, rest, rfl, fun c p same => ?_⟩
    rw [isIn] at same
    cases same
    decide
  refine (closing_before .relational lhs stops).trans ?_
  rw [chain, bind_of_run (lookKind_token t rest), isIn]
  exact bind_of_run (take_token t rest)

section range

variable {ts ts₁ ts₂ rest : Tokens} {e lower upper : Expr} {t u : Token}

theorem assignment_of_level (read : (level rules .or).run ts = pure (e, .ok t :: rest))
    (other : t.kind ≠ .question) (plain : assign? t.kind = none) :
    (assignment rules).run ts = pure (e, .ok t :: rest) := by
  have cond : (ternary rules).run ts = pure (e, .ok t :: rest) := by
    rw [ternary, bind_of_run read, bind_of_run (lookKind_token t rest), if_neg other]
    rfl
  rw [assignment, bind_of_run cond, bind_of_run (lookKind_token t rest), plain]
  rfl

theorem assignment_of_unary (read : (unary rules).run ts = pure (e, .ok t :: rest))
    (weak : connective? t.kind = none) (other : t.kind ≠ .question)
    (plain : assign? t.kind = none) : (assignment rules).run ts = pure (e, .ok t :: rest) := by
  refine assignment_of_level ?_ other plain
  have stops : Stops (8 - 7) (.ok t :: rest) := ⟨t, rest, rfl, by simp [weak]⟩
  rw [show Level.or = .up 6 from rfl, level_up rules (by decide), bind_of_run read]
  exact closing_of_stops (by decide) stops e

theorem unary_of_primary (read : (primary rules).run (.ok t :: ts) = pure (e, .ok u :: rest))
    (first : t.kind ∉ [.minus, .bang, .plusPlus, .minusMinus])
    (next : u.kind ∉ [.leftParen, .dot, .leftBracket, .plusPlus, .minusMinus]) :
    (unary rules).run (.ok t :: ts) = pure (e, .ok u :: rest) := by
  have ends : (suffixes rules e).run (.ok u :: rest) = pure (e, .ok u :: rest) := by
    rw [suffixes, bind_of_run (lookKind_token u rest)]
    split <;> first | rfl | simp_all
  rw [unary, bind_of_run (lookKind_token t ts)]
  split <;> first | exact (bind_of_run read).trans ends | simp_all

theorem primary_int {n : UInt32} (kind : t.kind = .int)
    (value : Parser.literalValue t = .ok (.int n)) :
    (primary rules).run (.ok t :: rest) = pure (.literal t.line (.int n), rest) := by
  have looked : look.run (.ok t :: rest) = pure (t, .ok t :: rest) := rfl
  have read : literal.run (.ok t :: rest) = pure ((.int n, t.line), rest) := by
    rw [literal, bind_of_run (take_token t rest), value]
    rfl
  rw [primary, bind_of_run looked, kind]
  exact bind_of_run read

theorem primary_name (kind : t.kind = .ident) (plain : CastKind.ofName? t.text = none) :
    (primary rules).run (.ok t :: .ok u :: rest) =
      pure (.name t.line t.text .unresolved, .ok u :: rest) := by
  have looked : look.run (.ok t :: .ok u :: rest) = pure (t, .ok t :: .ok u :: rest) := rfl
  rw [primary, bind_of_run looked, kind]
  dsimp only
  rw [named, bind_of_run (expect_of_kind kind), bind_of_run (lookKind_token u rest), plain]
  rfl

theorem closing_succ_of_run {j : Nat} {e' : Expr}
    (read : (closing rules j e).run ts = pure (e', .ok t :: rest))
    (plain : (Level.up j).operator? t.kind = none)
    (other : ¬(Level.up j = .relational ∧ t.kind = .keyword .inKw)) :
    (closing rules (j + 1) e).run ts = pure (e', .ok t :: rest) := by
  rw [closing, bind_of_run read]
  exact chain_of_ne plain other e' rest

theorem operator?_of_isTight {kind : TokenKind} (h : isTight kind = true) {l : Level}
    (loose : l.power ≤ 4) : l.operator? kind = none := by
  unfold isTight at h
  split at h
  case h_8 => cases h
  all_goals cases l <;> first | rfl | exact absurd loose (by decide)

theorem kind_of_isTight {kind : TokenKind} (h : isTight kind = true) :
    kind ≠ .keyword .inKw ∧ kind ≠ .question ∧ assign? kind = none := by
  unfold isTight at h
  split at h
  case h_8 => cases h
  all_goals exact ⟨by decide, by decide, rfl⟩

/-- A range in front of an operator that binds more tightly than comparisons is all that the grammar
reads. -/
theorem assignment_range {isIn bar comma bar' op : Token}
    (value : (unary .strict).run ts = pure (e, .ok isIn :: .ok bar :: ts₁))
    (kind : isIn.kind = .keyword .inKw) (opens : bar.kind = .pipe)
    (low : (assignment .strict).run ts₁ = pure (lower, .ok comma :: ts₂))
    (parts : comma.kind = .comma)
    (high : (assignment .strict).run ts₂ = pure (upper, .ok bar' :: .ok op :: rest))
    (closes : bar'.kind = .pipe) (tight : isTight op.kind = true) :
    (assignment .strict).run ts = pure (.inRange isIn.line e lower upper, .ok op :: rest) := by
  have range : (container .strict isIn.line e).run (.ok bar :: ts₁) =
      pure (.inRange isIn.line e lower upper, .ok op :: rest) := by
    rw [container, bind_of_run (took_of_kind opens), if_pos rfl, bind_of_run low,
      bind_of_run (expect_of_kind parts), bind_of_run high, bind_of_run (expect_of_kind closes)]
    rfl
  obtain ⟨notIn, other, plain⟩ := kind_of_isTight tight
  have relational : (closing .strict 4 e).run (.ok isIn :: .ok bar :: ts₁) =
      pure (.inRange isIn.line e lower upper, .ok op :: rest) := by
    rw [closing_in kind, bind_of_run range, continued.eq_def]
    exact chain_of_ne (operator?_of_isTight tight (by decide)) (fun both => notIn both.2) _ rest
  have equality := closing_succ_of_run relational (operator?_of_isTight tight (by decide))
    fun both => notIn both.2
  have and := closing_succ_of_run equality (operator?_of_isTight tight (by decide)) fun both =>
    notIn both.2
  have or := closing_succ_of_run and (operator?_of_isTight tight (by decide)) fun both =>
    notIn both.2
  refine assignment_of_level ?_ other plain
  rw [show Level.or = .up 6 from rfl, level_up .strict (by decide), bind_of_run value]
  exact or

end range

end Grammar

namespace Parser

open Grammar

section level

variable {rules : Grammar} {first : Option TokenKind} {deeper : Goal → Parser Expr}

def Goal.reader (rules : Grammar) : Goal → Reader Expr
  | .assignment => Grammar.assignment rules
  | .binary power => Grammar.unary rules >>= closing rules (8 - power)
  | .membership value line _ => container rules line value
  | .unary => Grammar.unary rules

def Goal.Known : Goal → Prop
  | .binary power => 1 ≤ power ∧ power ≤ 8
  | .membership _ _ power => power = 5
  | _ => True

/-- The goals of a parser are read as the grammar has them. What it reads for a binding power stops
before operators that bind as tightly, and what follows a right side of `in` is what may follow an
operand. -/
structure Expresses (rules : Grammar) (parse : Goal → Parser Expr) : Prop where
  reads : ∀ g : Goal, g.Known → TracksSome rules none (parse g) (g.reader rules)
  stops : ∀ k s e s', (parse (.binary k)).run s = (.ok e, s') → Stops k s'.pending
  ranges : ∀ value line s e s', s.pending.length ≤ s.size → Admits rules s.pending →
    (parse (.membership value line 5)).run s = (.ok e, s') →
      (continued rules e >>= chain rules .relational).run s'.pending =
        (closing rules 4 e).run s'.pending

theorem remains_right {q : Parser Expr} {r : Reader Expr} (node : Expr → Expr) {k p : Nat}
    {lhs : Expr} {s s₁ : Stream} {t : Token} (tight : k ≤ p)
    (taken : s.pending = .ok t :: s₁.pending) (size : s₁.size = s.size)
    (right : TracksAt (fun _ => Full) q r s₁)
    (fails : r.run s₁.pending = OptionT.fail →
      (closing rules (8 - p) lhs).run s.pending = OptionT.fail)
    (reads : ∀ e s₂, q.run s₁ = (.ok e, s₂) → r.run s₁.pending = pure (e, s₂.pending) →
      (closing rules (8 - p) lhs).run s.pending = (closing rules (8 - p) (node e)).run s₂.pending) :
    Remains id (closing rules (8 - k)) lhs s
      ((do return .inl (node (← q)) : Parser (Expr ⊕ Expr)).run s₁) := by
  have le : 8 - p ≤ 8 - k := by omega
  rw [run_bind]
  unfold TracksAt at right
  rcases run : q.run s₁ with ⟨e | e, s₂⟩ <;> rw [run] at right
  · exact Or.imp_right (fun failed => closing_fail le (fails failed)) right
  · obtain ⟨read, size', used, more, full⟩ := right
    refine ⟨closing_congr le (reads e s₂ run read), size'.trans size, .ok t :: used, ?_,
      full.append_left (u := [.ok t])⟩
    rw [taken, more]
    rfl

theorem closing_join {l : Level} {t : Token} {op : Operator} (found : l.operator? t.kind = some op)
    {lhs rhs : Expr} {rest rest' : Tokens} (read : (operand rules l).run rest = pure (rhs, rest'))
    (stops : Stops (l.power + 1) rest') :
    (closing rules (8 - l.power) lhs).run (.ok t :: rest) =
      (closing rules (8 - l.power) (op.join t.line lhs rhs)).run rest' := by
  rw [closing_operator found, bind_of_run read, closing_before l _ stops]

theorem stops_connected {k : Nat} {lhs e : Expr} {s s' : Stream}
    (h : (connected deeper k lhs).run s = (.ok (.inr e), s')) : Stops k s'.pending := by
  obtain ⟨pending, size, lastLine, depth, limit, loops, switches⟩ := s
  rcases pending with _ | ⟨fault | t, rest⟩
  · cases h
  · cases h
  have never (q : Parser Expr) (node : Expr → Expr) (s s' : Stream) :
      (do return .inl (node (← q)) : Parser (Expr ⊕ Expr)).run s ≠ (.ok (.inr e), s') := by
    rw [run_bind]
    rcases q.run s with ⟨fault | e, s₁⟩ <;> nofun
  rw [connected, run_bind, peekKind_token rfl] at h
  dsimp only at h
  cases found : connective? t.kind with
  | none =>
    rw [found] at h
    cases h
    exact ⟨t, rest, rfl, fun c p same => by rw [found] at same; cases same⟩
  | some operator =>
    obtain ⟨c, p⟩ := operator
    rw [found] at h
    dsimp only at h
    split at h
    next loose =>
      cases h
      refine ⟨t, rest, rfl, fun c p same => ?_⟩
      rw [found] at same
      cases same
      exact loose
    next =>
      rw [run_bind] at h
      cases c with
      | binary op => exact absurd h (never _ _ _ _)
      | logical op => exact absurd h (never _ _ _ _)
      | membership => exact absurd h (never _ id _ _)

theorem stops_binary {k : Nat} {e : Expr} {s s' : Stream}
    (h : (binary deeper k).run s = (.ok e, s')) : Stops k s'.pending := by
  have rounds (n : Nat) (lhs : Expr) (s : Stream)
      (h : (iterate (connected deeper k) n lhs).run s = (.ok e, s')) :
      Stops k s'.pending := by
    induction n generalizing lhs s with
    | zero => cases h
    | succ n ih =>
      rw [iterate, run_bind] at h
      rcases run : (connected deeper k lhs).run s with ⟨fault | e' | e', s₁⟩ <;> rw [run] at h
      · cases h
      · exact ih e' s₁ h
      · cases h
        exact stops_connected run
  rw [binary, run_bind] at h
  rcases run : (Parser.unary deeper).run s with ⟨fault | lhs, s₁⟩ <;> rw [run] at h
  · cases h
  · exact rounds _ lhs s₁ h

variable (deep : Expresses rules deeper)

include deep

theorem remains_operator {l : Level} {op : Operator} {t : Token}
    (found : l.operator? t.kind = some op) {k : Nat} (tight : k ≤ l.power) (lhs : Expr)
    {s s₁ : Stream} (taken : s.pending = .ok t :: s₁.pending) (size : s₁.size = s.size)
    (rounds : s₁.pending.length ≤ s₁.size) (admits : Admits rules s₁.pending) :
    Remains id (closing rules (8 - k)) lhs s
      ((do return .inl (op.join t.line lhs (← deeper (.binary (l.power + 1)))) :
        Parser (Expr ⊕ Expr)).run s₁) := by
  have le := l.power_le
  have reader : (Goal.binary (l.power + 1)).reader rules = operand rules l := by
    rw [operand_eq, Goal.reader]
    congr 2
    omega
  have right := deep.reads (.binary (l.power + 1)) ⟨by omega, by omega⟩ s₁ rounds admits nofun
  rw [reader] at right
  refine remains_right (op.join t.line lhs) tight taken size right
    (fun failed => ?_) fun e s₂ run read => ?_
  · rw [taken, closing_operator found]
    exact bind_of_fail failed
  · rw [taken]
    exact closing_join found read (deep.stops _ s₁ e s₂ run)

/-- One round of the loop reads one operator with its right side. -/
theorem remains_connected {k : Nat} (low : 1 ≤ k) (high : k ≤ 8) (lhs : Expr) (s : Stream)
    (rounds : s.pending.length ≤ s.size) (admits : Admits rules s.pending) :
    Remains id (closing rules (8 - k)) lhs s ((connected deeper k lhs).run s) := by
  obtain ⟨pending, size, lastLine, depth, limit, loops, switches⟩ := s
  rcases pending with _ | ⟨e | t, rest⟩
  · exact .inr (closing_end rfl _ lhs)
  · exact .inr (closing_end rfl _ lhs)
  let s : Stream := ⟨.ok t :: rest, size, lastLine, depth, limit, loops, switches⟩
  let s₁ : Stream := ⟨rest, size, t.line, depth, limit, loops, switches⟩
  have taken : s.pending = .ok t :: s₁.pending := rfl
  have size₁ : s₁.size = s.size := rfl
  have rounds₁ : s₁.pending.length ≤ s₁.size := Nat.le_of_succ_le rounds
  have admits₁ : Admits rules s₁.pending := admits.tail
  have stop (weak : ∀ c p, connective? t.kind = some (c, p) → p < k) :
      Remains id (closing rules (8 - k)) lhs s (.ok (.inr lhs), s) := by
    have stops : Stops (8 - (8 - k)) s.pending :=
      ⟨t, rest, rfl, by rwa [show 8 - (8 - k) = k by omega]⟩
    exact ⟨closing_of_stops (by omega) stops lhs, rfl, [], rfl, calm_nil⟩
  rw [connected, run_bind, peekKind_token rfl]
  dsimp only
  cases found : connective? t.kind with
  | none => exact stop fun c p same => by rw [found] at same; cases same
  | some operator =>
    obtain ⟨c, p⟩ := operator
    dsimp only
    split
    next loose =>
      refine stop fun c p same => ?_
      rw [found] at same
      cases same
      exact loose
    next tight =>
      rw [run_bind]
      rcases exists_operator? found with ⟨op, found', rfl, power⟩ | ⟨caret, rfl, rfl⟩ |
        ⟨isIn, rfl, rfl⟩
      · have right :=
          remains_operator deep found' (k := k) (by omega) lhs (s := s) taken size₁ rounds₁ admits₁
        rw [← rightPower_of_operator? found', power] at right
        cases op with
        | binary op => exact right
        | logical op => exact right
      · have right := deep.reads (.binary 8) ⟨by decide, by decide⟩ s₁ rounds₁ admits₁ nofun
        refine remains_right (.binary t.line .pow lhs)
          (Nat.le_of_not_lt tight) taken size₁ right ?_ ?_
        · intro failed
          rw [closing_caret caret]
          exact bind_of_fail failed
        · intro e s₂ run read
          refine ((closing_caret caret lhs rest).trans (bind_of_run read)).trans ?_
          exact (closing_of_stops (j := 0) (by decide) (deep.stops 8 s₁ e s₂ run) _).symm
      · have right := deep.reads (.membership lhs t.line 5) rfl s₁ rounds₁ admits₁ nofun
        refine remains_right id (Nat.le_of_not_lt tight) taken size₁ right ?_ ?_
        · intro failed
          rw [closing_in isIn]
          exact bind_of_fail failed
        · intro e s₂ run read
          refine ((closing_in isIn lhs rest).trans (bind_of_run read)).trans ?_
          exact deep.ranges lhs t.line s₁ e s₂ rounds₁ admits₁ run

theorem tracks_binary {k : Nat} (low : 1 ≤ k) (high : k ≤ 8) :
    TracksSome rules first (binary deeper k) ((Goal.binary k).reader rules) := by
  refine (tracks_unary (deep.reads .assignment trivial) (deep.reads .unary trivial)).some_bind
    fun lhs => ?_
  rw [← id_map (loop _ _)]
  exact tracks_rounds id (fun e s => remains_connected deep low high e s) lhs

theorem tracks_membership (value : Expr) (line : Nat) :
    TracksSome rules first (membership deeper value line 5) (container rules line value) := by
  have concat : level rules .concat = (Goal.binary 5).reader rules :=
    level_up rules (j := 2) (by decide)
  rw [container, concat]
  refine tracks_accept (by decide) (fun _ _ full => full) ?_ ?_
  · refine (deep.reads .assignment trivial).any.bind fun lower => ?_
    refine (tracks_consume (by decide) fun _ => ?_).any
    refine (deep.reads .assignment trivial).any.bind fun upper => ?_
    exact (tracks_consume (by decide) fun _ => tracks_pure _).any
  · exact (tracks_binary deep (by decide) (by decide)).some_bind fun object => tracks_pure _

theorem tracks_ternary :
    TracksSome rules first (Parser.ternary deeper) (Grammar.ternary rules) := by
  have or : level rules .or = (Goal.binary 1).reader rules := level_up rules (j := 6) (by decide)
  rw [Grammar.ternary, or]
  have behind (cond : Expr) : TracksAny rules none
      (do
        if (← peekKind) = .question then
          let t ← advance
          let yes ← deeper .assignment
          let _ ← consume .colon
          let no ← deeper .assignment
          return .ternary t.line cond yes no
        else return cond)
      (do
        if (← lookKind) = .question then
          let t ← take
          let yes ← Grammar.assignment rules
          let _ ← expect .colon
          return .ternary t.line cond yes (← Grammar.assignment rules)
        else return cond) := by
    refine tracks_peekKind fun kind => ?_
    split
    next same =>
      subst same
      refine (tracks_advance (by decide) fun t => ?_).any
      refine (deep.reads .assignment trivial).any.bind fun yes => ?_
      refine (tracks_consume (by decide) fun _ => ?_).any
      exact (deep.reads .assignment trivial).any.bind fun no => tracks_pure _
    next => exact tracks_pure _
  intro s rounds admits starts
  refine (tracks_binary deep (by decide) (by decide) s rounds admits starts).bind
    fun cond s' used run taken size full => ?_
  -- What was read stops in front of a token, so there is one to look at.
  obtain ⟨t, rest, pending, -⟩ := stops_binary run
  have shorter : s'.pending.length ≤ s'.size := by
    rw [taken, List.length_append] at rounds
    omega
  rw [taken] at admits
  refine (congrArg (Answers _ _ s') (run_accept pending _ (pure cond))).mpr ?_
  exact (behind cond s' shorter admits.rest (by simp)).imp fun e more => full.append

theorem tracks_assignment :
    TracksSome rules first (Parser.assignment deeper) (Grammar.assignment rules) := by
  rw [Grammar.assignment]
  refine (tracks_ternary deep).some_bind fun e => tracks_peekKind fun kind => ?_
  have same : assign? kind = assignment? kind := by
    cases kind <;> rfl
  rw [same]
  cases found : assignment? kind with
  | none => exact tracks_pure _
  | some op =>
    have other : kind ≠ .keyword .inKw := by
      rintro rfl
      cases found
    refine (tracks_advance other fun t => ?_).any
    exact tracks_target e _ ((deep.reads .assignment trivial).any.bind fun value => tracks_pure _)

/-- A bar that closes a range stands behind an expression. -/
theorem bar_of_range {value : Expr} {line : Nat} {s s' : Stream} {e : Expr}
    (rounds : s.pending.length ≤ s.size) (admits : Admits rules s.pending)
    (run : (membership deeper value line 5).run s = (.ok e, s')) :
    (∃ object, e = .inObject line value object ∧ Stops 5 s'.pending) ∨
      ∃ lower upper front t bar, e = .inRange line value lower upper ∧
        s.pending = front ++ .ok t :: .ok bar :: s'.pending ∧ bar.kind = .pipe ∧
          t.kind ≠ .keyword .inKw := by
  have assignment := deep.reads .assignment trivial
  rw [membership] at run
  obtain ⟨found, s₁, accepted, run⟩ := ok_of_bind run
  rcases token_or_other .pipe s with ⟨opening, rest, pending, isOpening⟩ | missing
  · cases (accept_token pending isOpening).symm.trans accepted
    obtain ⟨lower, s₂, run₂, run⟩ := ok_of_bind run
    obtain ⟨comma, s₃, run₃, run⟩ := ok_of_bind run
    obtain ⟨upper, s₄, run₄, run⟩ := ok_of_bind run
    obtain ⟨bar, s₅, run₅, run⟩ := ok_of_bind run
    cases run
    rw [pending] at rounds admits
    obtain ⟨rounds₂, admits₂, used, taken, -⟩ :=
      assignment.ran run₂ (Nat.le_of_succ_le rounds) admits.tail
    obtain ⟨pending₂, -, size₃⟩ := ok_of_consume run₃
    rw [pending₂] at rounds₂ admits₂
    rw [← size₃] at rounds₂
    obtain ⟨-, -, used', taken', front, t, rfl, other⟩ :=
      assignment.ran run₄ (Nat.le_of_succ_le rounds₂) admits₂.tail
    obtain ⟨pending₄, isBar, -⟩ := ok_of_consume run₅
    refine .inr ⟨lower, upper, .ok opening :: (used ++ .ok comma :: front), t, bar, rfl, ?_,
      isBar, other⟩
    rw [pending, show rest = _ from taken, pending₂, taken', pending₄]
    simp
  · cases (accept_other missing).symm.trans accepted
    obtain ⟨object, s₂, read, run⟩ := ok_of_bind run
    cases run
    exact .inl ⟨object, rfl, stops_binary read⟩

omit deep in
theorem isTight_of_connective? {kind : TokenKind} {c : Connective} {p : Nat}
    (h : connective? kind = some (c, p)) (tight : 5 ≤ p) : isTight kind = true := by
  unfold connective? at h
  split at h <;> cases h
  iterate 9 exact absurd tight (by decide)
  iterate 7 rfl

omit deep in
theorem stops_of_isTight {t : Token} (h : isTight t.kind = false) (rest : Tokens) :
    Stops 5 (.ok t :: rest) := by
  refine ⟨t, rest, rfl, fun c p found => Nat.lt_of_not_le fun tight => ?_⟩
  rw [isTight_of_connective? found tight] at h
  cases h

theorem ranges_membership (value : Expr) (line : Nat) {s s' : Stream} {e : Expr}
    (rounds : s.pending.length ≤ s.size) (admits : Admits rules s.pending)
    (run : (membership deeper value line 5).run s = (.ok e, s')) :
    (continued rules e >>= chain rules .relational).run s'.pending =
      (closing rules 4 e).run s'.pending := by
  have stopped (plain : continued rules e = pure e) (stops : Stops 5 s'.pending) :
      (continued rules e >>= chain rules .relational).run s'.pending =
        (closing rules 4 e).run s'.pending := by
    rw [plain, pure_bind]
    exact (closing_before .relational e stops).symm
  rcases bar_of_range deep rounds admits run with ⟨object, rfl, stops⟩ |
    ⟨lower, upper, front, t, bar, rfl, pending, isBar, other⟩
  · exact stopped (by rw [continued.eq_def]) stops
  cases rules with
  | loose =>
    rw [continued.eq_def]
    simp only [closing, Level.up, if_true, bind_assoc]
  | strict =>
    have plain : continued .strict (.inRange line value lower upper) =
        pure (.inRange line value lower upper) := by
      rw [continued.eq_def]
      rfl
    rcases rest : s'.pending with _ | ⟨fault | op, back⟩
    · rw [plain, pure_bind, chain]
      exact (bind_of_fail rfl).trans (closing_end rfl 4 _).symm
    · rw [plain, pure_bind, chain]
      exact (bind_of_fail rfl).trans (closing_end rfl 4 _).symm
    · rw [rest] at pending stopped
      rw [pending] at admits
      exact stopped plain (stops_of_isTight (isTight_of_barsApart admits isBar other) back)

theorem expresses_goal : Expresses rules (goal deeper) where
  reads g known := by
    cases g with
    | assignment => exact tracks_assignment deep
    | binary k => exact tracks_binary deep known.1 known.2
    | membership value line power =>
      obtain rfl : power = 5 := known
      exact tracks_membership deep value line
    | unary => exact tracks_unary (deep.reads .assignment trivial) (deep.reads .unary trivial)
  stops _ _ _ _ run := stops_binary run
  ranges value line _ _ _ rounds admits run := ranges_membership deep value line rounds admits run

omit deep in
theorem expresses_nested (h : Expresses rules deeper) :
    Expresses rules fun g => nested (deeper g) where
  reads g known := tracks_nested (h.reads g known)
  stops k s e s' run := by
    obtain ⟨s₁, s₂, inner, -, -, rest⟩ := ok_of_nested run
    rw [← rest]
    exact h.stops k s₁ e s₂ inner
  ranges value line s e s' rounds admits run := by
    obtain ⟨s₁, s₂, inner, pending, size, rest⟩ := ok_of_nested run
    rw [← pending, ← size] at rounds
    rw [← pending] at admits
    rw [← rest]
    exact h.ranges value line s₁ e s₂ rounds admits inner

end level

theorem expresses_exprAt (rules : Grammar) (n : Nat) : Expresses rules (exprAt n) := by
  induction n with
  | zero =>
    refine ⟨fun _ _ _ _ _ _ => .inl rfl, fun _ _ _ _ run => ?_, fun _ _ _ _ _ _ _ run => ?_⟩ <;>
      cases run
  | succ n ih => exact expresses_goal (expresses_nested ih)

theorem tracks_expr (rules : Grammar) : TracksSome rules none expr (Grammar.assignment rules) := by
  intro s rounds admits _
  have inner := (expresses_exprAt rules (s.limit - s.depth)).reads .assignment trivial
  have outer : TracksSome rules none (nested (exprAt (s.limit - s.depth) .assignment)) _ :=
    tracks_nested inner
  exact outer s rounds admits nofun

/-- What is read, and the tokens that are left. -/
def reading {α : Type} (p : Parser α) (s : Stream) : Option (α × Tokens) :=
  (p.run s).1.toOption.map fun a => (a, (p.run s).2.pending)

theorem reading_of_tracks {α : Type} {rules : Grammar} {p : Parser α} {r : Reader α} {s : Stream}
    (h : TracksSome rules none p r) (rounds : s.pending.length ≤ s.size)
    (admits : Admits rules s.pending) (room : InRoom (p.run s).1) :
    r.run s.pending = OptionT.mk (some (reading p s)) := by
  have here := h s rounds admits nofun
  unfold TracksAt at here
  unfold reading
  rcases run : p.run s with ⟨e | a, s'⟩ <;> rw [run] at here room
  · rcases here with deep | failed
    · rw [room e rfl] at deep
      cases deep
    · exact failed
  · exact here.1

/-- If the levels are enough, an expression is read as the grammar has it, with operators behind a
range as they are behind an operand; and where no such operator follows a range, as the grammar has
it. -/
theorem expr_follows_grammar (s : Stream) (rounds : s.pending.length ≤ s.size)
    (room : InRoom (expr.run s).1) :
    reading expr s = Grammar.loose.read s.pending ∧
      (barsApart s.pending = true → reading expr s = Grammar.strict.read s.pending) :=
  ⟨(read_of_run (reading_of_tracks (tracks_expr .loose) rounds (.inl rfl) room)).symm,
    fun apart =>
      (read_of_run (reading_of_tracks (tracks_expr .strict) rounds (.inr apart) room)).symm⟩

set_option maxRecDepth 8000 in
/-- Powers, a range and a condition under an assignment. -/
theorem expr_follows_grammar_range :
    ∃ s, s = Stream.ofText "y = a @ -b ^ 2 ^ c in |-1, 2| == d && !e ? f : g;" 16 ∧
    s.pending.length ≤ s.size ∧ InRoom (expr.run s).1 ∧ barsApart s.pending = true ∧
      reading expr s = Grammar.strict.read s.pending := by
  let s := Stream.ofText "y = a @ -b ^ 2 ^ c in |-1, 2| == d && !e ? f : g;" 16
  have room : InRoom (expr.run s).1 := by
    have succeeds : (expr.run s).1.toOption.isSome = true := by decide +kernel
    obtain ⟨e, read⟩ := exists_ok_of_isSome succeeds
    rw [read]
    exact inRoom_ok e
  have apart : barsApart s.pending = true := by decide +kernel
  exact ⟨s, rfl, Nat.le_refl _, room, apart, (expr_follows_grammar s (Nat.le_refl _) room).2 apart⟩

/-- The tokens of `x in |1, 2| + 3`. -/
def rangeAndSum : Tokens :=
  [(.ident, "x", 0), (.keyword .inKw, "in", 2), (.pipe, "|", 5), (.int, "1", 6),
    (.comma, ",", 7), (.int, "2", 9), (.pipe, "|", 10), (.plus, "+", 12), (.int, "3", 14),
    (.eos, "", 15)].map fun (kind, text, column) =>
    .ok ⟨kind, text, ⟨⟨column, 1, column⟩, ⟨column + text.length, 1, column + text.length⟩⟩⟩

/-- The sum behind a range is read with the range on its left, where the grammar ends with the
range. -/
theorem sum_behind_range :
    (reading expr (Stream.ofText "x in |1, 2| + 3" 128)).map (fun r => (r.1, r.2.length)) =
        some (.binary 1 .add
          (.inRange 1 (.name 1 "x" .unresolved) (.literal 1 (.int 1)) (.literal 1 (.int 2)))
          (.literal 1 (.int 3)), 1) ∧
      (Grammar.strict.read (tokenize "x in |1, 2| + 3")).map (fun r => (r.1, r.2.length)) =
        some (.inRange 1 (.name 1 "x" .unresolved) (.literal 1 (.int 1))
          (.literal 1 (.int 2)), 3) := by
  refine ⟨by decide +kernel, ?_⟩
  have tokens : tokenize "x in |1, 2| + 3" = rangeAndSum := by decide +kernel
  have value : (Grammar.unary .strict).run rangeAndSum =
      pure (.name 1 "x" .unresolved, rangeAndSum.drop 1) :=
    unary_of_primary (primary_name rfl rfl) (by decide) (by decide)
  have low : (Grammar.assignment .strict).run (rangeAndSum.drop 3) =
      pure (.literal 1 (.int 1), rangeAndSum.drop 4) :=
    assignment_of_unary (unary_of_primary (primary_int rfl rfl) (by decide) (by decide)) rfl
      (by decide) rfl
  have high : (Grammar.assignment .strict).run (rangeAndSum.drop 5) =
      pure (.literal 1 (.int 2), rangeAndSum.drop 6) :=
    assignment_of_unary (unary_of_primary (primary_int rfl rfl) (by decide) (by decide)) rfl
      (by decide) rfl
  rw [tokens, read_of_run (assignment_range value rfl rfl low rfl high rfl rfl)]
  rfl

end Parser

end GraalScript
