import GraalScript.Proofs.Parser.View
import GraalScript.Tree.Parser.Stmt

/-! Reading under a higher limit on nesting. Every parser ends on the level, and inside the loops
and switches, on which it began. A parser with more levels reads what one with fewer reads, unless
that one finds no level left; and then the tokens to come are more than the levels left, up to a
constant, since what nests takes a token first. -/
namespace GraalScript

namespace Stream

/-- The place `s'` is reached from `s`: tokens may have been taken, and nothing else has changed. -/
structure Reaches (s s' : Stream) : Prop where
  pending : s'.pending.length ≤ s.pending.length
  size : s'.size = s.size
  depth : s'.depth = s.depth
  limit : s'.limit = s.limit
  loops : s'.loops = s.loops
  switches : s'.switches = s.switches

namespace Reaches

variable {s s₁ s₂ : Stream}

theorem refl (s : Stream) : s.Reaches s := ⟨Nat.le_refl _, rfl, rfl, rfl, rfl, rfl⟩

theorem trans (first : s.Reaches s₁) (second : s₁.Reaches s₂) : s.Reaches s₂ where
  pending := Nat.le_trans second.pending first.pending
  size := second.size.trans first.size
  depth := second.depth.trans first.depth
  limit := second.limit.trans first.limit
  loops := second.loops.trans first.loops
  switches := second.switches.trans first.switches

end Reaches

def raised (limit : Nat) (s : Stream) : Stream := { s with limit }

variable (s : Stream) (limit : Nat)

@[simp] theorem peek_raised : (s.raised limit).peek = s.peek := rfl

theorem advance_raised : (s.raised limit).advance = (s.advance.1, s.advance.2.raised limit) := by
  rcases h : s.pending with _ | ⟨e | t, rest⟩ <;> simp [advance, next, raised, h]

theorem consume_raised (kind : TokenKind) :
    (s.raised limit).consume kind = ((s.consume kind).1, (s.consume kind).2.raised limit) := by
  simp only [consume, peek_raised, advance_raised]
  cases s.peek with
  | error e => rfl
  | ok t => by_cases h : t.kind = kind <;> simp [h]

theorem accept_raised (kind : TokenKind) :
    (s.raised limit).accept kind = ((s.accept kind).1, (s.accept kind).2.raised limit) := by
  simp only [accept, consume_raised]
  rcases s.consume kind with ⟨_ | _, _⟩ <;> rfl

theorem reaches_advance : s.Reaches s.advance.2 := by
  rcases h : s.pending with _ | ⟨e | t, rest⟩ <;> constructor <;> simp [advance, next, h]

theorem length_advance {s s' : Stream} {t : Token} (h : s.advance = (.ok t, s')) :
    s'.pending.length + 1 ≤ s.pending.length := by
  rcases eq : s.pending with _ | ⟨e | u, rest⟩
  · simp [advance, next, eq] at h
  · simp [advance, next, eq] at h
  · simp only [advance, next, eq, Prod.mk.injEq] at h
    rw [← h.2]
    simp

theorem reaches_consume (kind : TokenKind) : s.Reaches (s.consume kind).2 := by
  unfold consume
  split
  · exact Reaches.refl s
  · split
    · exact s.reaches_advance
    · exact Reaches.refl s

theorem length_consume {s s' : Stream} {kind : TokenKind} {t : Token}
    (h : s.consume kind = (.ok t, s')) : s'.pending.length + 1 ≤ s.pending.length := by
  unfold consume at h
  split at h
  · cases h
  · split at h
    · exact length_advance h
    · cases h

theorem reaches_accept (kind : TokenKind) : s.Reaches (s.accept kind).2 := by
  have taken := s.reaches_consume kind
  unfold accept
  split
  next eq =>
    rw [eq] at taken
    exact taken
  next => exact Reaches.refl s

theorem length_accept {s s' : Stream} {kind : TokenKind} (h : s.accept kind = (true, s')) :
    s'.pending.length + 1 ≤ s.pending.length := by
  unfold accept at h
  split at h
  next eq =>
    cases h
    exact length_consume eq
  next => cases h

end Stream

def ParseError.isTooDeep : ParseError → Bool
  | nestingTooDeep .. => true
  | _ => false

namespace Parser

variable {α β : Type}

/-- The levels were enough for all that was read. -/
def InRoom (r : Except ParseError α) : Prop := ∀ e, r = .error e → e.isTooDeep = false

theorem inRoom_ok (a : α) : InRoom (.ok a) := by
  intro e same
  cases same

/-- Where less than `n` levels are left, either `p` runs out of them, and then the tokens to come
and `k` more outnumber them, or `q` reads the same under any higher limit. -/
def Raises (n k : Nat) (p q : Parser α) : Prop :=
  ∀ (s : Stream) (limit : Nat), s.limit < s.depth + n → s.limit ≤ limit → s.Reaches (p.run s).2 ∧
    ((s.limit < s.depth + s.pending.length + k ∧
      ∃ line, (p.run s).1 = .error (.nestingTooDeep s.limit line)) ∨
        (InRoom (p.run s).1 ∧ q.run (s.raised limit) = ((p.run s).1, (p.run s).2.raised limit)))

variable {n k : Nat} {p q : Parser α} {f g : α → Parser β}

theorem raises_of_run (reaches : ∀ s : Stream, s.Reaches (p.run s).2)
    (fine : ∀ s, InRoom (p.run s).1)
    (same : ∀ (s : Stream) limit,
      p.run (s.raised limit) = ((p.run s).1, (p.run s).2.raised limit)) :
    Raises n k p p :=
  fun s limit _ _ => ⟨reaches s, .inr ⟨fine s, same s limit⟩⟩

theorem raises_pure (a : α) : Raises n k (pure a) (pure a) :=
  raises_of_run Stream.Reaches.refl (fun _ => inRoom_ok _) fun _ _ => rfl

theorem raises_throw {e : ParseError} (h : e.isTooDeep = false) :
    Raises n k (throw e : Parser α) (throw e) :=
  raises_of_run Stream.Reaches.refl (fun _ _ same => Except.error.inj same ▸ h) fun _ _ => rfl

theorem Raises.mono {m : Nat} (h : Raises n k p q) (le : k ≤ m) : Raises n m p q := by
  intro s limit levels higher
  obtain ⟨reaches, ⟨short, deep⟩ | same⟩ := h s limit levels higher
  · exact ⟨reaches, .inl ⟨by omega, deep⟩⟩
  · exact ⟨reaches, .inr same⟩

/-- What follows `p` may need a level more for each token that `p` has taken. -/
theorem Raises.bind_taking (c : α → Nat) (first : Raises n k p q)
    (taken : ∀ s a s', p.run s = (.ok a, s') → s.Reaches s' →
      s'.pending.length + c a ≤ s.pending.length)
    (second : ∀ a, Raises n (k + c a) (f a) (g a)) : Raises n k (p >>= f) (q >>= g) := by
  intro s limit levels higher
  obtain ⟨reaches, outcome⟩ := first s limit levels higher
  rw [run_bind, run_bind]
  rcases run : p.run s with ⟨e | a, s'⟩
  · rw [run] at reaches outcome
    refine ⟨reaches,
      outcome.imp (fun ⟨short, line, deep⟩ => ⟨short, line, ?_⟩) fun ⟨fine, same⟩ => ⟨?_, ?_⟩⟩
    · cases deep
      rfl
    · intro e' same
      cases same
      exact fine _ rfl
    · rw [same]
  · rw [run] at reaches outcome
    obtain ⟨_, line, deep⟩ | ⟨_, same⟩ := outcome
    · cases deep
    -- The rest starts at the same depth under the same limit, with fewer tokens to come.
    · have less := taken s a s' run reaches
      have levels' : s'.limit < s'.depth + n := by rw [reaches.limit, reaches.depth]; exact levels
      obtain ⟨reaches', outcome'⟩ := second a s' limit levels' (by rw [reaches.limit]; exact higher)
      rw [same]
      refine ⟨reaches.trans reaches', outcome'.imp (fun ⟨short, deep⟩ => ⟨?_, ?_⟩) id⟩
      · rw [reaches.limit, reaches.depth] at short
        omega
      · rw [← reaches.limit]
        exact deep

theorem Raises.bind (first : Raises n k p q) (second : ∀ a, Raises n k (f a) (g a)) :
    Raises n k (p >>= f) (q >>= g) :=
  first.bind_taking (fun _ => 0) (fun _ _ _ _ reaches => reaches.pending) second

theorem raises_ite {c : Prop} [Decidable c] {p' q' : Parser α} (yes : Raises n k p q)
    (no : Raises n k p' q') : Raises n k (if c then p else p') (if c then q else q') := by
  split
  · exact yes
  · exact no

theorem raises_guard {c : Prop} [Decidable c] {e : ParseError} (h : e.isTooDeep = false)
    (rest : Raises n k p q) :
    Raises n k (if c then (do (throw e : Parser Unit); p) else p)
      (if c then (do (throw e : Parser Unit); q) else q) :=
  raises_ite ((raises_throw h).bind fun _ => rest) rest

section tokens

theorem inRoom_mapError (r : Except TokenError α) : InRoom (r.mapError ParseError.token) := by
  intro e same
  cases r <;> cases same
  rfl

theorem raises_peek : Raises n k peek peek :=
  raises_of_run Stream.Reaches.refl (fun s => inRoom_mapError s.peek) fun _ _ => rfl

theorem raises_peekKind : Raises n k peekKind peekKind :=
  raises_peek.bind fun t => raises_pure t.kind

theorem raises_lastLine : Raises n k lastLine lastLine :=
  raises_of_run Stream.Reaches.refl (fun _ => inRoom_ok _) fun _ _ => rfl

theorem raises_liftStep {step : Stream → Except TokenError α × Stream}
    (reaches : ∀ s : Stream, s.Reaches (step s).2)
    (same : ∀ s limit, step (Stream.raised limit s) = ((step s).1, (step s).2.raised limit))
    (taken : ∀ s a s', step s = (.ok a, s') → s'.pending.length + 1 ≤ s.pending.length)
    (rest : ∀ a, Raises n (k + 1) (f a) (g a)) :
    Raises n k (liftStep step >>= f) (liftStep step >>= g) := by
  have alone : Raises n k (liftStep step) (liftStep step) := by
    refine raises_of_run reaches (fun s => inRoom_mapError (step s).1) fun s limit => ?_
    change ((step (s.raised limit)).1.mapError ParseError.token, (step (s.raised limit)).2) = _
    rw [same]
    rfl
  refine alone.bind_taking (fun _ => 1) (fun s a s' run _ => taken s a s' ?_) rest
  change ((step s).1.mapError ParseError.token, (step s).2) = _ at run
  rcases eq : step s with ⟨e | a', s₁⟩ <;> rw [eq] at run <;> cases run
  rfl

theorem raises_advance {f g : Token → Parser β} (rest : ∀ t, Raises n (k + 1) (f t) (g t)) :
    Raises n k (advance >>= f) (advance >>= g) :=
  raises_liftStep Stream.reaches_advance Stream.advance_raised
    (fun _ _ _ => Stream.length_advance) rest

theorem raises_consume (kind : TokenKind) {f g : Token → Parser β}
    (rest : ∀ t, Raises n (k + 1) (f t) (g t)) :
    Raises n k (consume kind >>= f) (consume kind >>= g) :=
  raises_liftStep (·.reaches_consume kind) (·.consume_raised · kind)
    (fun _ _ _ => Stream.length_consume) rest

theorem raises_found (kind : TokenKind) : Raises n k (accept kind) (accept kind) := by
  refine raises_of_run (·.reaches_accept kind) (fun _ => inRoom_ok _) fun s limit => ?_
  change (Except.ok ((s.raised limit).accept kind).1, ((s.raised limit).accept kind).2) = _
  rw [s.accept_raised]
  rfl

theorem raises_accept (kind : TokenKind) {f g : Bool → Parser β}
    (yes : Raises n (k + 1) (f true) (g true)) (no : Raises n k (f false) (g false)) :
    Raises n k (accept kind >>= f) (accept kind >>= g) := by
  refine (raises_found kind).bind_taking Bool.toNat
    (fun s found s' run reaches => ?_) fun found => ?_
  · cases found with
    | false => exact reaches.pending
    | true =>
      change (Except.ok (s.accept kind).1, (s.accept kind).2) = _ at run
      rcases eq : s.accept kind with ⟨found, s₁⟩
      rw [eq] at run
      cases run
      exact Stream.length_accept eq
  · cases found with
    | false => exact no
    | true => exact yes

theorem raises_ident : Raises n k ident ident :=
  raises_consume _ fun t => raises_pure (Ident.mk t.text t.line)

theorem raises_literal : Raises n k literal literal := by
  refine raises_advance fun t => ?_
  cases value : literalValue t with
  | ok value => exact raises_pure _
  | error e =>
    refine raises_throw ?_
    unfold literalValue at value
    split at value
    · split at value <;> cases value
      rfl
    all_goals cases value
    rfl

end tokens

section places

theorem raises_get {f g : Stream → Parser β}
    (h : ∀ s limit, Raises n k (f s) (g (s.raised limit))) :
    Raises n k (do f (← get)) (do g (← get)) :=
  fun s limit levels higher => h s limit s limit levels higher

theorem raises_nested (h : Raises n k p q) : Raises (n + 1) (k + 1) (nested p) (nested q) := by
  intro s limit levels higher
  rw [run_nested, run_nested]
  by_cases room : s.depth < s.limit
  · have here : s.enter = some { s with depth := s.depth + 1 } := if_pos room
    have there :
        (s.raised limit).enter = some (Stream.raised limit { s with depth := s.depth + 1 }) :=
      if_pos (Nat.lt_of_lt_of_le room higher)
    obtain ⟨reaches, outcome⟩ :=
      h { s with depth := s.depth + 1 } limit (by simp only; omega) higher
    simp only [here, there]
    refine ⟨?_, outcome.imp (fun ⟨short, deep⟩ => ⟨by simp only at short; omega, deep⟩)
      fun ⟨fine, same⟩ => ⟨fine, ?_⟩⟩
    · exact ⟨reaches.pending, reaches.size, congrArg (· - 1) reaches.depth, reaches.limit,
        reaches.loops, reaches.switches⟩
    · rw [same]
      rfl
  · have here : s.enter = none := if_neg room
    simp only [here]
    exact ⟨Stream.Reaches.refl s, .inl ⟨by omega, s.faultLine, rfl⟩⟩

theorem raises_insideLoop (h : Raises n k p q) : Raises n k (insideLoop p) (insideLoop q) := by
  intro s limit levels higher
  obtain ⟨reaches, outcome⟩ := h s.enterLoop limit levels higher
  refine ⟨?_, outcome.imp id fun ⟨fine, same⟩ => ⟨fine, ?_⟩⟩
  · exact ⟨reaches.pending, reaches.size, reaches.depth, reaches.limit,
      congrArg (· - 1) reaches.loops, reaches.switches⟩
  · change
      ((q.run (s.enterLoop.raised limit)).1, (q.run (s.enterLoop.raised limit)).2.leaveLoop) = _
    rw [same]
    rfl

theorem raises_insideSwitch (h : Raises n k p q) :
    Raises n k (insideSwitch p) (insideSwitch q) := by
  intro s limit levels higher
  obtain ⟨reaches, outcome⟩ := h s.enterSwitch limit levels higher
  refine ⟨?_, outcome.imp id fun ⟨fine, same⟩ => ⟨fine, ?_⟩⟩
  · exact ⟨reaches.pending, reaches.size, reaches.depth, reaches.limit, reaches.loops,
      congrArg (· - 1) reaches.switches⟩
  · change ((q.run (s.enterSwitch.raised limit)).1,
      (q.run (s.enterSwitch.raised limit)).2.leaveSwitch) = _
    rw [same]
    rfl

theorem raises_loop {γ δ : Type} {step step' : γ → Parser (γ ⊕ δ)} (a : γ)
    (h : ∀ a, Raises n k (step a) (step' a)) : Raises n k (loop a step) (loop a step') := by
  have rounds (m : Nat) (a : γ) : Raises n k (iterate step m a) (iterate step' m a) := by
    induction m generalizing a with
    | zero => exact raises_lastLine.bind fun _ => raises_throw rfl
    | succ m ih =>
      refine (h a).bind fun r => ?_
      cases r with
      | inl a => exact ih a
      | inr b => exact raises_pure b
  exact raises_get fun s _ => rounds (s.size + 1) a

theorem raises_listed (item : Raises n k p q) (close : TokenKind) :
    Raises n k (listed p close) (listed q close) := by
  refine raises_loop _ fun seen => raises_peekKind.bind fun kind => raises_ite (raises_pure _) ?_
  refine item.bind fun a => Raises.bind ?_ fun found => ?_
  · exact raises_peekKind.bind fun kind =>
      raises_ite (raises_consume _ fun t => raises_pure _) (raises_pure _)
  · cases found <;> exact raises_pure _

end places

section expressions

theorem raises_dimensions : Raises n k dimensions dimensions := by
  refine raises_loop _ fun seen => raises_accept _ ?_ (raises_pure _)
  refine raises_literal.bind fun l => ?_
  obtain ⟨value, line⟩ := l
  cases value with
  | int size => exact raises_consume _ fun _ => raises_pure _
  | _ => exact raises_throw rfl

variable {deeper deeper' : Goal → Parser Expr} (below : ∀ g, Raises n 1 (deeper g) (deeper' g))

include below

theorem raises_below (g : Goal) : Raises n (k + 1) (deeper g) (deeper' g) :=
  (below g).mono (Nat.le_add_left 1 k)

theorem raises_arguments (close : TokenKind) :
    Raises n (k + 1) (arguments deeper close) (arguments deeper' close) := by
  refine (raises_listed (raises_below below .assignment) close).bind fun args => ?_
  exact raises_consume _ fun _ => raises_pure _

theorem raises_newExpr : Raises n k (newExpr deeper) (newExpr deeper') := by
  refine raises_consume _ fun t => raises_peekKind.bind fun kind => raises_ite ?_ ?_
  · exact raises_dimensions.bind fun dims => raises_pure _
  · refine raises_ident.bind fun cls => raises_consume _ fun _ => ?_
    exact (raises_arguments below _).bind fun args => raises_pure _

theorem raises_nameExpr : Raises n k (nameExpr deeper) (nameExpr deeper') := by
  refine raises_ident.bind fun name => raises_peekKind.bind fun kind => ?_
  cases CastKind.ofName? name.name with
  | none => exact raises_pure _
  | some cast =>
    refine raises_ite (raises_advance fun _ => ?_) (raises_pure _)
    exact (raises_below below _).bind fun operand => raises_consume _ fun _ => raises_pure _

theorem raises_primary : Raises n k (primary deeper) (primary deeper') := by
  refine raises_peek.bind fun t => ?_
  split
  iterate 6 exact raises_literal.bind fun l => raises_pure _
  · exact raises_nameExpr below
  · exact raises_newExpr below
  · refine raises_advance fun _ => (raises_below below _).bind fun e => ?_
    exact raises_consume _ fun _ => raises_pure _
  · exact raises_advance fun _ => (raises_arguments below _).bind fun items => raises_pure _
  · exact raises_throw rfl

theorem raises_suffix (e : Expr) : Raises n k (suffix deeper e) (suffix deeper' e) := by
  refine raises_peekKind.bind fun kind => ?_
  split
  · exact raises_advance fun _ => (raises_arguments below _).bind fun args => raises_pure _
  · exact raises_advance fun _ => raises_ident.bind fun field => raises_pure _
  · refine raises_advance fun _ => (raises_below below _).bind fun i => ?_
    exact raises_consume _ fun _ => raises_pure _
  · split
    · exact raises_advance fun t => raises_guard rfl (raises_pure _)
    · exact raises_pure _

theorem raises_unary : Raises n k (unary deeper) (unary deeper') := by
  refine raises_peekKind.bind fun kind => ?_
  split
  · exact raises_advance fun t => (raises_below below _).bind fun operand => raises_pure _
  · refine raises_advance fun t => (raises_below below _).bind fun target => ?_
    exact raises_guard rfl (raises_pure _)
  · exact (raises_primary below).bind fun e => raises_loop e (raises_suffix below)

theorem raises_connected (least : Nat) (lhs : Expr) :
    Raises n k (connected deeper least lhs) (connected deeper' least lhs) := by
  refine raises_peekKind.bind fun kind => ?_
  split
  · exact raises_pure _
  next c power _ =>
    refine raises_ite (raises_pure _) (raises_advance fun t => ?_)
    cases c <;> exact (raises_below below _).bind fun rhs => raises_pure _

theorem raises_binary (least : Nat) : Raises n k (binary deeper least) (binary deeper' least) :=
  (raises_unary below).bind fun lhs => raises_loop lhs (raises_connected below least)

theorem raises_membership (value : Expr) (line power : Nat) :
    Raises n k (membership deeper value line power) (membership deeper' value line power) := by
  refine raises_accept _ ?_ ((raises_binary below power).bind fun object => raises_pure _)
  refine (raises_below below _).bind fun lower => raises_consume _ fun _ => ?_
  exact (raises_below below _).bind fun upper => raises_consume _ fun _ => raises_pure _

theorem raises_ternary : Raises n k (ternary deeper) (ternary deeper') := by
  refine (raises_binary below 1).bind fun cond => raises_accept _ ?_ (raises_pure _)
  refine raises_lastLine.bind fun line => (raises_below below _).bind fun yes => ?_
  exact raises_consume _ fun _ => (raises_below below _).bind fun no => raises_pure _

theorem raises_assignment : Raises n k (assignment deeper) (assignment deeper') := by
  refine (raises_ternary below).bind fun target => raises_peekKind.bind fun kind => ?_
  split
  · exact raises_pure _
  · refine raises_advance fun t => raises_guard rfl ?_
    exact (raises_below below _).bind fun value => raises_pure _

theorem raises_goal (g : Goal) : Raises n k (goal deeper g) (goal deeper' g) := by
  cases g with
  | assignment => exact raises_assignment below
  | binary power => exact raises_binary below power
  | membership value line power => exact raises_membership below value line power
  | unary => exact raises_unary below

omit below

theorem raises_exprAt {m : Nat} (le : n ≤ m) (g : Goal) : Raises n 0 (exprAt n g) (exprAt m g) := by
  induction n generalizing m g with
  | zero =>
    intro s limit levels _
    exact ⟨Stream.Reaches.refl s, .inl ⟨by omega, s.faultLine, rfl⟩⟩
  | succ n ih =>
    obtain ⟨m, rfl⟩ : ∃ m', m = m' + 1 := ⟨m - 1, by omega⟩
    exact raises_goal (fun g => raises_nested (ih (Nat.le_of_succ_le_succ le) g)) g

/-- The levels left below the present one are as many as are needed to tell that none is left. -/
theorem raises_atRoom {run : Nat → Parser α} (h : ∀ n m, n ≤ m → Raises n k (run n) (run m)) :
    Raises n (k + 1) (do nested (run (← room))) (do nested (run (← room))) := by
  intro s limit _ higher
  have more : s.limit - s.depth ≤ limit - s.depth := by omega
  exact raises_nested (h _ _ more) s limit (by omega) higher

theorem raises_deeperExpr (g : Goal) : Raises n 1 (deeperExpr g) (deeperExpr g) :=
  raises_atRoom fun _ _ le => raises_exprAt le g

theorem raises_expr : Raises n (k + 1) expr expr := raises_below raises_deeperExpr _

end expressions

section statements

theorem raises_condition : Raises n k condition condition :=
  raises_consume _ fun _ => raises_expr.bind fun _ => raises_consume _ fun _ => raises_pure _

theorem raises_exprUnless (close : TokenKind) :
    Raises n (k + 1) (exprUnless close) (exprUnless close) :=
  raises_peekKind.bind fun _ => raises_ite (raises_pure _) (raises_expr.bind fun _ => raises_pure _)

theorem raises_exprStmt : Raises n (k + 1) exprStmt exprStmt :=
  raises_expr.bind fun _ => raises_consume _ fun _ => raises_pure _

theorem raises_returnStmt : Raises n k returnStmt returnStmt := by
  refine raises_consume _ fun t => (raises_exprUnless _).bind fun value => ?_
  exact raises_consume _ fun _ => raises_pure _

theorem raises_varDecl : Raises n k varDecl varDecl := by
  refine raises_consume _ fun t => raises_loop _ fun seen => Raises.bind ?_ fun d => ?_
  · refine raises_ident.bind fun name => raises_accept _ ?_ (raises_pure _)
    exact raises_expr.bind fun value => raises_pure _
  · exact raises_accept _ (raises_pure _) (raises_pure _)

theorem raises_constStmt : Raises n k constStmt constStmt := by
  refine raises_consume _ fun t => raises_ident.bind fun name => raises_consume _ fun _ => ?_
  exact raises_expr.bind fun value => raises_consume _ fun _ => raises_pure _

theorem raises_jumpStmt (line : Nat) {allowed : Stream → Bool}
    (same : ∀ s limit, allowed (Stream.raised limit s) = allowed s) (what : Misplaced) (s : Stmt) :
    Raises n k (jumpStmt line allowed what s) (jumpStmt line allowed what s) := by
  refine raises_advance fun _ => raises_get fun st limit => ?_
  rw [same]
  exact raises_guard rfl (raises_consume _ fun _ => raises_pure _)

theorem raises_forInit : Raises n (k + 1) forInit forInit := by
  refine raises_peekKind.bind fun kind => ?_
  split
  · exact raises_pure _
  · exact raises_varDecl.bind fun decl => raises_pure _
  · exact raises_expr.bind fun e => raises_pure _

theorem raises_caseLabels : Raises n k caseLabels caseLabels := by
  refine raises_loop _ fun seen => raises_peekKind.bind fun kind => ?_
  split
  · exact raises_advance fun _ => raises_expr.bind fun label => raises_consume _ fun _ =>
      raises_pure _
  · exact raises_advance fun _ => raises_consume _ fun _ => raises_pure _
  · exact raises_pure _

variable {stmt stmt' : Parser Stmt} (below : Raises n 2 stmt stmt')

include below

theorem raises_inner : Raises n (k + 2) stmt stmt' := below.mono (Nat.le_add_left 2 k)

theorem raises_block : Raises n (k + 1) (block stmt) (block stmt') := by
  refine raises_consume _ fun t => Raises.bind ?_ fun body => raises_consume _ fun _ =>
    raises_pure _
  refine raises_loop _ fun seen => raises_peekKind.bind fun kind => ?_
  split
  · exact raises_pure _
  · exact raises_consume _ fun _ => raises_pure _
  · exact (raises_inner below).bind fun s => raises_pure _

theorem raises_ifStmt : Raises n (k + 1) (ifStmt stmt) (ifStmt stmt') := by
  refine raises_consume _ fun t => raises_condition.bind fun cond =>
    (raises_inner below).bind fun yes => ?_
  exact raises_accept _ ((raises_inner below).bind fun no => raises_pure _) (raises_pure _)

theorem raises_whileStmt : Raises n (k + 1) (whileStmt stmt) (whileStmt stmt') := by
  refine raises_consume _ fun t => raises_condition.bind fun cond => ?_
  exact (raises_insideLoop (raises_inner below)).bind fun body => raises_pure _

theorem raises_withStmt : Raises n (k + 1) (withStmt stmt) (withStmt stmt') :=
  raises_consume _ fun _ => raises_condition.bind fun _ => (raises_inner below).bind fun _ =>
    raises_pure _

theorem raises_forStmt : Raises n (k + 1) (forStmt stmt) (forStmt stmt') := by
  have body := raises_insideLoop (raises_inner (k := k + 1) below)
  refine raises_consume _ fun t => raises_consume _ fun _ => raises_get fun s limit => ?_
  refine raises_ite ?_ ?_
  · refine (raises_found _).bind fun declared => raises_ident.bind fun item => ?_
    refine raises_consume _ fun _ => raises_expr.bind fun iterable => ?_
    exact raises_consume _ fun _ => (body.mono (by omega)).bind fun body => raises_pure _
  · refine raises_forInit.bind fun init => raises_consume _ fun _ =>
      (raises_exprUnless _).bind fun cond => ?_
    refine raises_consume _ fun _ => (raises_exprUnless _).bind fun step =>
      raises_consume _ fun _ => ?_
    exact (body.mono (by omega)).bind fun body => raises_pure _

theorem raises_caseBody : Raises n (k + 2) (caseBody stmt) (caseBody stmt') := by
  refine raises_loop _ fun seen => raises_peekKind.bind fun kind => ?_
  split
  iterate 3 exact raises_pure _
  · exact raises_consume _ fun _ => raises_pure _
  · exact (raises_inner below).bind fun s => raises_pure _

theorem raises_cases : Raises n (k + 2) (cases stmt) (cases stmt') := by
  refine raises_loop _ fun seen => raises_peek.bind fun t => ?_
  split
  · exact raises_pure _
  iterate 2
    refine raises_caseLabels.bind fun labels => (raises_caseBody below).bind fun body => ?_
    exact raises_guard rfl (raises_pure _)
  · exact raises_throw rfl

theorem raises_switchStmt : Raises n (k + 1) (switchStmt stmt) (switchStmt stmt') := by
  refine raises_consume _ fun t => raises_condition.bind fun value => raises_consume _ fun _ => ?_
  refine (raises_insideSwitch (raises_cases (k := k + 1) below)).bind fun cs => ?_
  exact raises_consume _ fun _ => raises_pure _

theorem raises_newStmt : Raises n (k + 1) (newStmt stmt) (newStmt stmt') := by
  refine (raises_newExpr raises_deeperExpr).bind fun e => raises_peekKind.bind fun kind => ?_
  refine raises_ite (raises_consume _ fun _ => raises_pure _) ?_
  split
  · exact (raises_block below).bind fun b => raises_pure _
  · exact raises_lastLine.bind fun line => raises_throw rfl

theorem raises_keywordStmt (t : Token) (word : Keyword) :
    Raises n (k + 1) (keywordStmt stmt t word) (keywordStmt stmt' t word) := by
  cases word with
  | ifKw => exact raises_ifStmt below
  | whileKw => exact raises_whileStmt below
  | forKw => exact raises_forStmt below
  | withKw => exact raises_withStmt below
  | returnKw => exact raises_returnStmt
  | switchKw => exact raises_switchStmt below
  | newKw => exact raises_newStmt below
  | breakKw | continueKw => exact raises_jumpStmt _ (fun _ _ => rfl) _ _
  | varKw => exact raises_varDecl.bind fun decl => raises_consume _ fun _ => raises_pure _
  | constKw => exact raises_constStmt
  | functionKw | publicKw | elseKw | caseKw | defaultKw | inKw => exact raises_throw rfl
  | trueKw | falseKw | nullKw => exact raises_exprStmt

theorem raises_anyStmt : Raises n (k + 1) (anyStmt stmt) (anyStmt stmt') := by
  refine raises_peek.bind fun t => ?_
  split
  · exact (raises_block below).bind fun b => raises_pure _
  · exact raises_advance fun _ => raises_pure _
  · exact raises_keywordStmt below t _
  · exact raises_throw rfl
  · exact raises_exprStmt

omit below

theorem raises_stmtAt {m : Nat} (le : n ≤ m) : Raises n 1 (stmtAt n) (stmtAt m) := by
  induction n generalizing m with
  | zero =>
    intro s limit levels _
    exact ⟨Stream.Reaches.refl s, .inl ⟨by omega, s.faultLine, rfl⟩⟩
  | succ n ih =>
    obtain ⟨m, rfl⟩ : ∃ m', m = m' + 1 := ⟨m - 1, by omega⟩
    exact raises_anyStmt (raises_nested (ih (Nat.le_of_succ_le_succ le)))

theorem raises_stmt : Raises n 2 Parser.stmt Parser.stmt := raises_atRoom fun _ _ => raises_stmtAt

theorem raises_func : Raises n 2 func func := by
  have rest (line : Nat) (isPublic : Bool) (object : Option Ident) (name : Ident) (k : Nat) :
      Raises n (k + 1)
        (do
          let _ ← consume .leftParen
          let params ← listed ident .rightParen
          let _ ← consume .rightParen
          let body ← block Parser.stmt
          return (⟨line, isPublic, object, name, params.items, body⟩ : Func))
        (do
          let _ ← consume .leftParen
          let params ← listed ident .rightParen
          let _ ← consume .rightParen
          let body ← block Parser.stmt
          return ⟨line, isPublic, object, name, params.items, body⟩) := by
    refine raises_consume _ fun _ => (raises_listed raises_ident _).bind fun params => ?_
    exact raises_consume _ fun _ => (raises_block raises_stmt).bind fun body => raises_pure _
  refine (raises_found _).bind fun isPublic => raises_consume _ fun t =>
    raises_ident.bind fun first => ?_
  refine raises_accept _ ?_ ?_
  · simp only [pure_bind, if_true]
    exact raises_ident.bind fun name => rest t.line isPublic (some first) name _
  · simp only [pure_bind]
    exact rest t.line isPublic none first _

theorem raises_program : Raises n 2 program program := by
  refine raises_loop _ fun seen => raises_peek.bind fun t => ?_
  split
  · exact raises_guard rfl (raises_pure _)
  · exact raises_advance fun _ => raises_guard rfl (raises_pure _)
  iterate 2 exact raises_func.bind fun f => raises_pure _
  · exact raises_stmt.bind fun s => raises_pure _

end statements

end Parser

end GraalScript
