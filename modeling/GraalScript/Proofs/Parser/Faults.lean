import GraalScript.Compile
import GraalScript.Proofs.Parser.StmtView
import GraalScript.Proofs.Token.Prefix

/-! Where the faults of a text are. Reading passes lines on and never makes one up, so the line of a
fault is that of an item of the text; and only a text without anything in it is empty. -/
namespace GraalScript

namespace Parser

variable {α β : Type} {p q : Parser α}

/-! Nothing but a whole program is found empty. -/

/-- `p` never fails because the source is empty. -/
def FindsText (p : Parser α) : Prop := ∀ s, (p.run s).1 ≠ .error .emptySource

theorem findsText_pure (a : α) : FindsText (pure a) := fun _ => nofun

theorem findsText_throw {e : ParseError} (other : e ≠ .emptySource) :
    FindsText (throw e : Parser α) :=
  fun _ same => other (Except.error.inj same)

theorem FindsText.bind {f : α → Parser β} (first : FindsText p) (second : ∀ a, FindsText (f a)) :
    FindsText (p >>= f) := by
  intro s
  rw [run_bind]
  rcases mid : p.run s with ⟨e | a, s'⟩
  · intro same
    exact first s (by rw [mid]; exact congrArg _ (Except.error.inj same))
  · exact second a s'

theorem findsText_ite {c : Prop} [Decidable c] (yes : FindsText p) (no : FindsText q) :
    FindsText (if c then p else q) := by
  split
  · exact yes
  · exact no

theorem findsText_guard {c : Prop} [Decidable c] {e : ParseError} (other : e ≠ .emptySource)
    (rest : FindsText p) : FindsText (if c then (do (throw e : Parser Unit); p) else p) :=
  findsText_ite ((findsText_throw other).bind fun _ => rest) rest

theorem findsText_get {f : Stream → Parser α} (h : ∀ s, FindsText (f s)) :
    FindsText (do f (← get)) :=
  fun s => h s s

theorem findsText_tooDeep :
    FindsText (do throw (.nestingTooDeep (← get).limit (← get).faultLine) : Parser α) :=
  findsText_get fun _ => findsText_get fun _ => findsText_throw nofun

theorem findsText_nested (h : FindsText p) : FindsText (nested p) := by
  intro s
  rw [run_nested]
  split
  · nofun
  · exact h _

theorem findsText_insideLoop (h : FindsText p) : FindsText (insideLoop p) := fun s => h s.enterLoop

theorem findsText_insideSwitch (h : FindsText p) : FindsText (insideSwitch p) :=
  fun s => h s.enterSwitch

theorem findsText_liftStep (step : Stream → Except TokenError α × Stream) :
    FindsText (liftStep step) := by
  intro s
  change (step s).1.mapError ParseError.token ≠ _
  cases (step s).1 <;> nofun

theorem findsText_peek : FindsText peek := findsText_liftStep _

theorem findsText_peekKind : FindsText peekKind := findsText_peek.bind fun _ => findsText_pure _

theorem findsText_advance : FindsText advance := findsText_liftStep _

theorem findsText_consume (kind : TokenKind) : FindsText (consume kind) := findsText_liftStep _

theorem findsText_accept (kind : TokenKind) : FindsText (accept kind) := fun _ => nofun

theorem findsText_lastLine : FindsText lastLine := fun _ => nofun

theorem findsText_room : FindsText room := fun _ => nofun

theorem findsText_iterate {step : α → Parser (α ⊕ β)} (h : ∀ a, FindsText (step a)) (n : Nat)
    (a : α) : FindsText (iterate step n a) := by
  induction n generalizing a with
  | zero => exact findsText_lastLine.bind fun _ => findsText_throw nofun
  | succ n ih =>
    refine (h a).bind fun r => ?_
    cases r with
    | inl a => exact ih a
    | inr b => exact findsText_pure b

theorem findsText_loop {step : α → Parser (α ⊕ β)} {a : α} (h : ∀ a, FindsText (step a)) :
    FindsText (loop a step) :=
  findsText_get fun s => findsText_iterate h (s.size + 1) a

theorem findsText_listed (item : FindsText p) (close : TokenKind) : FindsText (listed p close) := by
  refine findsText_loop fun seen => findsText_peekKind.bind fun kind =>
    findsText_ite (findsText_pure _) ?_
  refine item.bind fun a => FindsText.bind ?_ fun found => ?_
  · exact findsText_peekKind.bind fun kind =>
      findsText_ite ((findsText_consume _).bind fun _ => findsText_pure _) (findsText_pure _)
  · cases found <;> exact findsText_pure _

theorem findsText_ident : FindsText ident := (findsText_consume _).bind fun _ => findsText_pure _

theorem literalValue_ne (t : Token) : literalValue t ≠ .error .emptySource := by
  unfold literalValue
  split
  · split <;> nofun
  all_goals nofun

theorem findsText_literal : FindsText literal := by
  refine findsText_advance.bind fun t => ?_
  have other := literalValue_ne t
  cases found : literalValue t with
  | ok value => exact findsText_pure _
  | error e => exact findsText_throw fun same => other (by rw [found, same])

theorem findsText_dimensions : FindsText dimensions := by
  refine findsText_loop fun seen => (findsText_accept _).bind fun found =>
    findsText_ite (findsText_pure _) ?_
  refine findsText_literal.bind fun l => ?_
  obtain ⟨value, line⟩ := l
  cases value with
  | int size => exact (findsText_consume _).bind fun _ => findsText_pure _
  | _ => exact findsText_throw nofun

section level

variable {deeper : Goal → Parser Expr} (below : ∀ g, FindsText (deeper g))

include below

theorem findsText_arguments (close : TokenKind) : FindsText (arguments deeper close) :=
  (findsText_listed (below _) close).bind fun _ => (findsText_consume _).bind fun _ =>
    findsText_pure _

theorem findsText_newExpr : FindsText (newExpr deeper) := by
  refine (findsText_consume _).bind fun _ => findsText_peekKind.bind fun _ => findsText_ite ?_ ?_
  · exact findsText_dimensions.bind fun _ => findsText_pure _
  · refine findsText_ident.bind fun _ => (findsText_consume _).bind fun _ => ?_
    exact (findsText_arguments below _).bind fun _ => findsText_pure _

theorem findsText_nameExpr : FindsText (nameExpr deeper) := by
  refine findsText_ident.bind fun id => findsText_peekKind.bind fun _ => ?_
  cases CastKind.ofName? id.name with
  | none => exact findsText_pure _
  | some cast =>
    refine findsText_ite (findsText_advance.bind fun _ => (below _).bind fun _ => ?_)
      (findsText_pure _)
    exact (findsText_consume _).bind fun _ => findsText_pure _

theorem findsText_primary : FindsText (primary deeper) := by
  refine findsText_peek.bind fun t => ?_
  split
  iterate 6 exact findsText_literal.bind fun _ => findsText_pure _
  · exact findsText_nameExpr below
  · exact findsText_newExpr below
  · refine findsText_advance.bind fun _ => (below _).bind fun _ => ?_
    exact (findsText_consume _).bind fun _ => findsText_pure _
  · exact findsText_advance.bind fun _ => (findsText_arguments below _).bind fun _ =>
      findsText_pure _
  · exact findsText_throw nofun

theorem findsText_suffix (e : Expr) : FindsText (suffix deeper e) := by
  refine findsText_peekKind.bind fun kind => ?_
  split
  · exact findsText_advance.bind fun _ => (findsText_arguments below _).bind fun _ =>
      findsText_pure _
  · exact findsText_advance.bind fun _ => findsText_ident.bind fun _ => findsText_pure _
  · refine findsText_advance.bind fun _ => (below _).bind fun _ => ?_
    exact (findsText_consume _).bind fun _ => findsText_pure _
  · split
    · exact findsText_advance.bind fun _ => findsText_guard nofun (findsText_pure _)
    · exact findsText_pure _

theorem findsText_unary : FindsText (unary deeper) := by
  refine findsText_peekKind.bind fun kind => ?_
  split
  · exact findsText_advance.bind fun _ => (below _).bind fun _ => findsText_pure _
  · exact findsText_advance.bind fun _ => (below _).bind fun _ =>
      findsText_guard nofun (findsText_pure _)
  · exact (findsText_primary below).bind fun _ => findsText_loop (findsText_suffix below)

theorem findsText_connected (least : Nat) (lhs : Expr) :
    FindsText (connected deeper least lhs) := by
  refine findsText_peekKind.bind fun kind => ?_
  split
  · exact findsText_pure _
  · refine findsText_ite (findsText_pure _) (findsText_advance.bind fun _ => ?_)
    dsimp only
    split <;> exact (below _).bind fun _ => findsText_pure _

theorem findsText_binary (least : Nat) : FindsText (binary deeper least) :=
  (findsText_unary below).bind fun _ => findsText_loop (findsText_connected below least)

theorem findsText_membership (value : Expr) (line power : Nat) :
    FindsText (membership deeper value line power) := by
  refine (findsText_accept _).bind fun found => findsText_ite ?_ ?_
  · exact (findsText_binary below power).bind fun _ => findsText_pure _
  · refine (below _).bind fun _ => (findsText_consume _).bind fun _ => (below _).bind fun _ => ?_
    exact (findsText_consume _).bind fun _ => findsText_pure _

theorem findsText_assignment : FindsText (assignment deeper) := by
  refine FindsText.bind ?_ fun target => findsText_peekKind.bind fun kind => ?_
  · refine (findsText_binary below 1).bind fun cond => (findsText_accept _).bind fun found => ?_
    refine findsText_ite (findsText_pure _)
      (findsText_lastLine.bind fun _ => (below _).bind fun _ => ?_)
    exact (findsText_consume _).bind fun _ => (below _).bind fun _ => findsText_pure _
  · split
    · exact findsText_pure _
    · refine findsText_advance.bind fun _ =>
        findsText_guard ?_ ((below _).bind fun _ => findsText_pure _)
      rintro ⟨⟩

theorem findsText_goal (g : Goal) : FindsText (goal deeper g) := by
  cases g with
  | assignment => exact findsText_assignment below
  | binary power => exact findsText_binary below power
  | membership value line power => exact findsText_membership below value line power
  | unary => exact findsText_unary below

end level

theorem findsText_exprAt (n : Nat) (g : Goal) : FindsText (exprAt n g) := by
  induction n generalizing g with
  | zero => exact findsText_tooDeep
  | succ n ih => exact findsText_goal (fun g => findsText_nested (ih g)) g

theorem findsText_deeperExpr (g : Goal) : FindsText (deeperExpr g) :=
  findsText_room.bind fun n => findsText_nested (findsText_exprAt n g)

theorem findsText_expr : FindsText expr := findsText_deeperExpr _

theorem findsText_condition : FindsText condition :=
  (findsText_consume _).bind fun _ => findsText_expr.bind fun _ =>
    (findsText_consume _).bind fun _ => findsText_pure _

theorem findsText_exprUnless (close : TokenKind) : FindsText (exprUnless close) :=
  findsText_peekKind.bind fun _ =>
    findsText_ite (findsText_pure _) (findsText_expr.bind fun _ => findsText_pure _)

theorem findsText_exprStmt : FindsText exprStmt :=
  findsText_expr.bind fun _ => (findsText_consume _).bind fun _ => findsText_pure _

theorem findsText_varDecl : FindsText varDecl := by
  refine (findsText_consume _).bind fun _ => findsText_loop fun seen =>
    FindsText.bind ?_ fun _ => ?_
  · refine findsText_ident.bind fun _ => (findsText_accept _).bind fun _ => ?_
    exact findsText_ite (findsText_expr.bind fun _ => findsText_pure _) (findsText_pure _)
  · exact (findsText_accept _).bind fun _ => findsText_ite (findsText_pure _) (findsText_pure _)

theorem findsText_forInit : FindsText forInit := by
  refine findsText_peekKind.bind fun kind => ?_
  split
  · exact findsText_pure _
  · exact findsText_varDecl.bind fun _ => findsText_pure _
  · exact findsText_expr.bind fun _ => findsText_pure _

theorem findsText_caseLabels : FindsText caseLabels := by
  refine findsText_loop fun seen => findsText_peekKind.bind fun kind => ?_
  split
  · refine findsText_advance.bind fun _ => findsText_expr.bind fun _ => ?_
    exact (findsText_consume _).bind fun _ => findsText_pure _
  · exact findsText_advance.bind fun _ => (findsText_consume _).bind fun _ => findsText_pure _
  · exact findsText_pure _

section level

variable {stmt : Parser Stmt} (below : FindsText stmt)

include below

theorem findsText_block : FindsText (block stmt) := by
  refine (findsText_consume _).bind fun _ => FindsText.bind ?_ fun _ => ?_
  · refine findsText_loop fun seen => findsText_peekKind.bind fun kind => ?_
    split
    · exact findsText_pure _
    · exact (findsText_consume _).bind fun _ => findsText_pure _
    · exact below.bind fun _ => findsText_pure _
  · exact (findsText_consume _).bind fun _ => findsText_pure _

theorem findsText_forStmt : FindsText (forStmt stmt) := by
  refine (findsText_consume _).bind fun _ => (findsText_consume _).bind fun _ =>
    findsText_get fun s => ?_
  refine findsText_ite ?_ ?_
  · refine (findsText_accept _).bind fun _ => findsText_ident.bind fun _ =>
      (findsText_consume _).bind fun _ => ?_
    refine findsText_expr.bind fun _ => (findsText_consume _).bind fun _ => ?_
    exact (findsText_insideLoop below).bind fun _ => findsText_pure _
  · refine findsText_forInit.bind fun _ => (findsText_consume _).bind fun _ => ?_
    refine (findsText_exprUnless _).bind fun _ => (findsText_consume _).bind fun _ => ?_
    refine (findsText_exprUnless _).bind fun _ => (findsText_consume _).bind fun _ => ?_
    exact (findsText_insideLoop below).bind fun _ => findsText_pure _

theorem findsText_caseBody : FindsText (caseBody stmt) := by
  refine findsText_loop fun seen => findsText_peekKind.bind fun kind => ?_
  split
  iterate 3 exact findsText_pure _
  · exact (findsText_consume _).bind fun _ => findsText_pure _
  · exact below.bind fun _ => findsText_pure _

theorem findsText_cases : FindsText (cases stmt) := by
  refine findsText_loop fun seen => findsText_peek.bind fun t => ?_
  split
  · exact findsText_pure _
  iterate 2
    refine findsText_caseLabels.bind fun _ => (findsText_caseBody below).bind fun _ => ?_
    exact findsText_guard nofun (findsText_pure _)
  · exact findsText_throw nofun

theorem findsText_newStmt : FindsText (newStmt stmt) := by
  refine (findsText_newExpr findsText_deeperExpr).bind fun e =>
    findsText_peekKind.bind fun kind => ?_
  refine findsText_ite ((findsText_consume _).bind fun _ => findsText_pure _) ?_
  split
  · exact (findsText_block below).bind fun _ => findsText_pure _
  · exact findsText_lastLine.bind fun _ => findsText_throw nofun

omit below in
theorem findsText_jumpStmt (line : Nat) (allowed : Stream → Bool) (what : Misplaced) (s : Stmt) :
    FindsText (jumpStmt line allowed what s) := by
  refine findsText_advance.bind fun _ => findsText_get fun st => findsText_guard nofun ?_
  exact (findsText_consume _).bind fun _ => findsText_pure _

theorem findsText_keywordStmt (t : Token) (word : Keyword) :
    FindsText (keywordStmt stmt t word) := by
  cases word with
  | ifKw =>
    refine (findsText_consume _).bind fun _ => findsText_condition.bind fun _ =>
      below.bind fun _ => ?_
    exact (findsText_accept _).bind fun _ =>
      findsText_ite (below.bind fun _ => findsText_pure _) (findsText_pure _)
  | whileKw =>
    refine (findsText_consume _).bind fun _ => findsText_condition.bind fun _ => ?_
    exact (findsText_insideLoop below).bind fun _ => findsText_pure _
  | forKw => exact findsText_forStmt below
  | withKw =>
    exact (findsText_consume _).bind fun _ => findsText_condition.bind fun _ => below.bind fun _ =>
      findsText_pure _
  | switchKw =>
    refine (findsText_consume _).bind fun _ => findsText_condition.bind fun _ =>
      (findsText_consume _).bind fun _ => ?_
    exact (findsText_insideSwitch (findsText_cases below)).bind fun _ =>
      (findsText_consume _).bind fun _ => findsText_pure _
  | newKw => exact findsText_newStmt below
  | breakKw | continueKw => exact findsText_jumpStmt _ _ _ _
  | returnKw =>
    refine (findsText_consume _).bind fun _ => (findsText_exprUnless _).bind fun _ => ?_
    exact (findsText_consume _).bind fun _ => findsText_pure _
  | varKw =>
    exact findsText_varDecl.bind fun _ => (findsText_consume _).bind fun _ => findsText_pure _
  | constKw =>
    refine (findsText_consume _).bind fun _ => findsText_ident.bind fun _ =>
      (findsText_consume _).bind fun _ => ?_
    exact findsText_expr.bind fun _ => (findsText_consume _).bind fun _ => findsText_pure _
  | functionKw | publicKw | elseKw | caseKw | defaultKw | inKw => exact findsText_throw nofun
  | trueKw | falseKw | nullKw => exact findsText_exprStmt

theorem findsText_anyStmt : FindsText (anyStmt stmt) := by
  refine findsText_peek.bind fun t => ?_
  split
  · exact (findsText_block below).bind fun _ => findsText_pure _
  · exact findsText_advance.bind fun _ => findsText_pure _
  · exact findsText_keywordStmt below t _
  · exact findsText_throw nofun
  · exact findsText_exprStmt

end level

theorem findsText_stmtAt (n : Nat) : FindsText (stmtAt n) := by
  induction n with
  | zero => exact findsText_tooDeep
  | succ n ih => exact findsText_anyStmt (findsText_nested ih)

theorem findsText_stmt : FindsText stmt :=
  findsText_room.bind fun n => findsText_nested (findsText_stmtAt n)

theorem findsText_func : FindsText func := by
  refine (findsText_accept _).bind fun isPublic => (findsText_consume _).bind fun t => ?_
  refine findsText_ident.bind fun first => (findsText_accept _).bind fun dot => ?_
  simp only [pure_bind]
  have rest (object : Option Ident) (name : Ident) : FindsText
      (do
        let _ ← consume .leftParen
        let params ← listed ident .rightParen
        let _ ← consume .rightParen
        let body ← block stmt
        return (⟨t.line, isPublic, object, name, params.items, body⟩ : Func)) := by
    refine (findsText_consume _).bind fun _ => (findsText_listed findsText_ident _).bind fun _ => ?_
    refine (findsText_consume _).bind fun _ => (findsText_block findsText_stmt).bind fun _ =>
      findsText_pure _
  exact findsText_ite (findsText_ident.bind fun name => rest (some first) name) (rest none first)

/-! A text that is not empty is read from its first token on, whatever line was reached before. -/

/-- In front of an item, `p` takes a token or fails before it looks at the line that was reached. -/
def Starts (p : Parser α) : Prop :=
  ∀ (s : Stream) (line : Nat), s.pending ≠ [] →
    (p.run { s with lastLine := line }).1 = (p.run s).1 ∧
    ((p.run s).1.isOk = true → (p.run { s with lastLine := line }).2 = (p.run s).2)

theorem starts_throw (e : ParseError) : Starts (throw e : Parser α) := fun _ _ _ => ⟨rfl, nofun⟩

theorem Starts.bind {f : α → Parser β} (first : Starts p) : Starts (p >>= f) := by
  intro s line some
  obtain ⟨same, next⟩ := first s line some
  rw [run_bind, run_bind]
  rcases here : p.run s with ⟨r, s₁⟩
  rcases there : p.run { s with lastLine := line } with ⟨r', s₂⟩
  rw [here, there] at same next
  subst same
  cases r' with
  | error e => exact ⟨rfl, nofun⟩
  | ok a =>
    obtain rfl : s₂ = s₁ := next rfl
    exact ⟨rfl, fun _ => rfl⟩

theorem starts_peek {f : Token → Parser α} (h : ∀ t, Starts (f t)) : Starts (peek >>= f) := by
  intro s line some
  obtain ⟨pending, size, lastLine, depth, limit, loops, switches⟩ := s
  rcases pending with _ | ⟨e | t, rest⟩
  · exact absurd rfl some
  · exact ⟨rfl, by rintro ⟨⟩⟩
  · exact h t ⟨.ok t :: rest, size, lastLine, depth, limit, loops, switches⟩ line some

theorem starts_peekKind {f : TokenKind → Parser α} (h : ∀ kind, Starts (f kind)) :
    Starts (peekKind >>= f) := by
  rw [peekKind, bind_assoc]
  exact starts_peek fun t => h t.kind

theorem starts_advance : Starts advance := by
  intro s line some
  obtain ⟨pending, size, lastLine, depth, limit, loops, switches⟩ := s
  rcases pending with _ | ⟨e | t, rest⟩
  · exact absurd rfl some
  · exact ⟨rfl, by rintro ⟨⟩⟩
  · exact ⟨rfl, fun _ => rfl⟩

theorem starts_consume (kind : TokenKind) : Starts (consume kind) := by
  intro s line some
  have run (s : Stream) :
      (consume kind).run s = ((s.consume kind).1.mapError ParseError.token, (s.consume kind).2) :=
    rfl
  obtain ⟨pending, size, lastLine, depth, limit, loops, switches⟩ := s
  rcases pending with _ | ⟨e | t, rest⟩
  · exact absurd rfl some
  · exact ⟨rfl, by rintro ⟨⟩⟩
  · by_cases same : t.kind = kind
    · have found (s : Stream) (here : s.pending = .ok t :: rest) : s.consume kind = s.advance := by
        simp [Stream.consume, Stream.peek, here, same]
      rw [run, run, found _ rfl, found _ rfl]
      exact ⟨rfl, fun _ => rfl⟩
    · have missed (s : Stream) (here : s.pending = .ok t :: rest) :
          s.consume kind = (.error (.mismatch kind t.kind t.line), s) := by
        simp [Stream.consume, Stream.peek, here, same]
      rw [run, run, missed _ rfl, missed _ rfl]
      exact ⟨rfl, by rintro ⟨⟩⟩

theorem starts_accept {kind : TokenKind} {f : Bool → Parser α} (h : Starts (f false)) :
    Starts (accept kind >>= f) := by
  intro s line some
  have run (s : Stream) : (accept kind).run s = (.ok (s.accept kind).1, (s.accept kind).2) := rfl
  rcases pending : s.pending with _ | ⟨e | t, rest⟩
  · exact absurd pending some
  · simpa [run_bind, run, Stream.accept, Stream.consume, Stream.peek, pending] using h s line some
  · by_cases same : t.kind = kind
    · simp [run_bind, run, Stream.accept, Stream.consume, Stream.peek, Stream.advance, Stream.next,
        pending, same]
    · simpa [run_bind, run, Stream.accept, Stream.consume, Stream.peek, pending, same]
        using h s line some

theorem starts_room {f : Nat → Parser α} (h : ∀ n, Starts (f n)) : Starts (room >>= f) :=
  fun s => h (s.limit - s.depth) s

theorem faultLine_of_pending {s : Stream} (some : s.pending ≠ []) (line : Nat) :
    Stream.faultLine { s with lastLine := line } = s.faultLine := by
  rcases pending : s.pending with _ | ⟨e | t, rest⟩
  · exact absurd pending some
  all_goals simp [Stream.faultLine, Stream.peek, pending]

theorem starts_tooDeep :
    Starts (do throw (.nestingTooDeep (← get).limit (← get).faultLine) : Parser α) := by
  intro s line some
  refine ⟨?_, nofun⟩
  change Except.error (ParseError.nestingTooDeep _ (Stream.faultLine { s with lastLine := line })) =
    _
  rw [faultLine_of_pending some]
  rfl

theorem starts_nested (h : Starts p) : Starts (nested p) := by
  intro s line some
  obtain ⟨same, next⟩ := h { s with depth := s.depth + 1 } line some
  rw [run_nested, run_nested]
  by_cases room : s.depth < s.limit
  · simp only [Stream.enter, room, if_true]
    exact ⟨same, fun found => congrArg Stream.leave (next found)⟩
  · simp only [Stream.enter, room, if_false, faultLine_of_pending some]
    exact ⟨trivial, nofun⟩

theorem starts_loop {step : α → Parser (α ⊕ β)} {a : α} (h : Starts (step a)) :
    Starts (loop a step) := by
  intro s line some
  have rounds : Starts (iterate step (s.size + 1) a) := h.bind
  exact rounds s line some

section level

variable {deeper : Goal → Parser Expr}

theorem starts_newExpr : Starts (newExpr deeper) := (starts_consume _).bind

theorem starts_primary : Starts (primary deeper) := by
  refine starts_peek fun t => ?_
  split
  iterate 6 exact starts_advance.bind.bind
  · exact (starts_consume _).bind.bind
  · exact starts_newExpr
  · exact starts_advance.bind
  · exact starts_advance.bind
  · exact starts_throw _

theorem starts_unary : Starts (unary deeper) := by
  refine starts_peekKind fun kind => ?_
  split
  · exact starts_advance.bind
  · exact starts_advance.bind
  · exact starts_primary.bind

end level

theorem starts_expr : Starts expr := by
  refine starts_room fun n => starts_nested ?_
  cases n with
  | zero => exact starts_tooDeep
  | succ n => exact starts_unary.bind.bind.bind

theorem starts_exprStmt : Starts exprStmt := starts_expr.bind

theorem starts_block {stmt : Parser Stmt} : Starts (block stmt) := (starts_consume _).bind

theorem starts_keywordStmt {stmt : Parser Stmt} (t : Token) (word : Keyword) :
    Starts (keywordStmt stmt t word) := by
  cases word with
  | newKw => exact starts_newExpr.bind
  | varKw => exact (starts_consume _).bind.bind
  | breakKw | continueKw => exact starts_advance.bind
  | functionKw | publicKw | elseKw | caseKw | defaultKw | inKw => exact starts_throw _
  | trueKw | falseKw | nullKw => exact starts_exprStmt
  | _ => exact (starts_consume _).bind

theorem starts_stmt : Starts stmt := by
  refine starts_room fun n => starts_nested ?_
  cases n with
  | zero => exact starts_tooDeep
  | succ n =>
    refine starts_peek fun t => ?_
    split
    · exact starts_block.bind
    · exact starts_advance.bind
    · exact starts_keywordStmt t _
    · exact starts_throw _
    · exact starts_exprStmt

theorem starts_func : Starts func := starts_accept (starts_consume _).bind

theorem starts_program : Starts program := by
  refine starts_loop (starts_peek fun t => ?_)
  split
  · exact (starts_throw _).bind
  · exact starts_advance.bind
  · exact starts_func.bind
  · exact starts_func.bind
  · exact starts_stmt.bind

/-! Only what begins with the end of the source is empty. -/

def Reading.Fresh (seen : Reading) : Prop := seen.count = 0 ∧ seen.clientside = none

/-- A round that finds no end reads something or fails at it. -/
def FindsItem (p : Parser (Reading ⊕ Program)) : Prop :=
  FindsText p ∧ ∀ s seen, (p.run s).1 = .ok (.inl seen) → ¬seen.Fresh

theorem findsItem_pure {seen : Reading} (new : ¬seen.Fresh) : FindsItem (pure (.inl seen)) :=
  ⟨findsText_pure _, fun _ _ found => Sum.inl.inj (Except.ok.inj found) ▸ new⟩

theorem FindsText.item {f : α → Parser (Reading ⊕ Program)} (first : FindsText p)
    (rest : ∀ a, FindsItem (f a)) : FindsItem (p >>= f) := by
  refine ⟨first.bind fun a => (rest a).1, fun s seen found => ?_⟩
  rw [run_bind] at found
  rcases mid : p.run s with ⟨e | a, s'⟩ <;> rw [mid] at found
  · cases found
  · exact (rest a).2 s' seen found

theorem run_peek (s : Stream) : (∃ e, peek.run s = (.error (.token e), s)) ∨
    ∃ t rest, s.pending = .ok t :: rest ∧ peek.run s = (.ok t, s) := by
  obtain ⟨pending, size, lastLine, depth, limit, loops, switches⟩ := s
  rcases pending with _ | ⟨e | t, rest⟩
  · exact .inl ⟨_, rfl⟩
  · exact .inl ⟨_, rfl⟩
  · exact .inr ⟨t, rest, rfl, rfl⟩

/-- A round fails for an empty source only at the end of it, before anything was read. -/
theorem exists_round :
    ∃ step : Reading → Parser (Reading ⊕ Program), program = loop ⟨[], 0, none⟩ step ∧
    ∀ seen s, (((step seen).run s).1 = .error .emptySource →
        seen.Fresh ∧ ∃ t rest, s.pending = .ok t :: rest ∧ t.kind = .eos) ∧
      ∀ seen', ((step seen).run s).1 = .ok (.inl seen') → ¬seen'.Fresh := by
  refine ⟨itemRound, rfl, fun seen s => ?_⟩
  unfold itemRound
  have of_item {p : Parser (Reading ⊕ Program)} (h : FindsItem p) :
      ((p.run s).1 = .error .emptySource → seen.Fresh ∧ ∃ t rest, s.pending = .ok t :: rest ∧
        t.kind = .eos) ∧
        ∀ seen', (p.run s).1 = .ok (.inl seen') → ¬seen'.Fresh :=
    ⟨fun failed => absurd failed (h.1 s), h.2 s⟩
  rcases run_peek s with ⟨e, run⟩ | ⟨t, rest, pending, run⟩
  · rw [run_bind, run]
    exact ⟨by rintro ⟨⟩, by rintro _ ⟨⟩⟩
  · rw [run_bind, run]
    dsimp only
    split
    next eos =>
      split
      next fresh => exact ⟨fun _ => ⟨fresh, t, rest, pending, eos⟩, by rintro _ ⟨⟩⟩
      next => exact ⟨by rintro ⟨⟩, by rintro _ ⟨⟩⟩
    next =>
      have marked : FindsItem (pure (.inl { seen with clientside := some seen.count })) :=
        findsItem_pure (by rintro ⟨-, ⟨⟩⟩)
      refine of_item (findsText_advance.item fun _ => ?_)
      split
      · have fails : FindsText (throw (.misplaced .secondDirective t.line) : Parser PUnit) :=
          findsText_throw (by rintro ⟨⟩)
        exact fails.item fun _ => marked
      · exact marked
    iterate 2 exact of_item (findsText_func.item fun _ => findsItem_pure (by rintro ⟨⟨⟩, -⟩))
    exact of_item (findsText_stmt.item fun _ => findsItem_pure (by rintro ⟨⟨⟩, -⟩))

theorem eos_of_emptySource {s : Stream} (h : (program.run s).1 = .error .emptySource) :
    ∃ t rest, s.pending = .ok t :: rest ∧ t.kind = .eos := by
  obtain ⟨step, same, round⟩ := exists_round
  have rounds (n : Nat) (seen : Reading) (s : Stream)
      (failed : ((iterate step n seen).run s).1 = .error .emptySource) :
      seen.Fresh ∧ ∃ t rest, s.pending = .ok t :: rest ∧ t.kind = .eos := by
    induction n generalizing seen s with
    | zero => cases failed
    | succ n ih =>
      rw [iterate, run_bind] at failed
      rcases mid : (step seen).run s with ⟨e | r | done, s'⟩ <;> rw [mid] at failed
      · refine (round seen s).1 ?_
        rw [mid]
        exact congrArg Except.error (Except.error.inj failed)
      · have new := (round seen s).2 r (by rw [mid])
        exact absurd (ih r s' failed).1 new
      · cases failed
  rw [same] at h
  exact (rounds (s.size + 1) _ s h).2

end Parser

/-! Lines are only passed on. If all lines that there are can be moved without a change, what is
read does not change either, so no other line occurs in it. -/

def itemLine : Except LexError Token → Nat
  | .ok t => t.line
  | .error e => e.line

/-- Moves one line and leaves the others where they are. -/
def moved (n m : Nat) : Nat := if m = n then n + 1 else m

theorem moved_of_ne {n m : Nat} (h : m ≠ n) : moved n m = m := if_neg h

theorem moved_self_ne (n : Nat) : moved n n ≠ n := by
  simp [moved]

def View.relined (line : Nat → Nat) : View where
  line := line
  token t := { t with span := { t.span with start := { t.span.start with line := line t.line } } }
  loops := id
  switches := id
  kind_token _ := rfl
  line_token _ := rfl
  text_token _ _ := rfl

theorem View.item_moved {n : Nat} {i : Except LexError Token} (h : itemLine i ≠ n) :
    (relined (moved n)).item i = i := by
  cases i with
  | ok t =>
    have same : moved n t.line = t.line := moved_of_ne h
    simp only [item, relined, same]
    rfl
  | error e =>
    have same : moved n e.line = e.line := moved_of_ne h
    simp only [item, relined, LexError.relined, same]

theorem View.stream_moved {n : Nat} {s : Stream} (items : ∀ i ∈ s.pending, itemLine i ≠ n)
    (last : s.lastLine ≠ n) : (relined (moved n)).stream s = s := by
  have pending : s.pending.map (relined (moved n)).item = s.pending := by
    rw [List.map_congr_left fun i inside => item_moved (items i inside), List.map_id']
  have lastLine : moved n s.lastLine = s.lastLine := moved_of_ne last
  rw [stream, pending]
  simp only [relined, lastLine, id]

theorem ParseError.line_relined {e : ParseError} (other : e ≠ .emptySource) (line : Nat → Nat) :
    (e.relined line).line = line e.line := by
  rcases e with (_ | _ | _) | _ | _ | _ | _ | _ | _
  case emptySource => exact absurd rfl other
  all_goals rfl

namespace Parser

variable {n : Nat} {s : Stream} (items : ∀ i ∈ s.pending, itemLine i ≠ n) (last : s.lastLine ≠ n)

include items last

theorem run_program_moved :
    (program.run s).1 = (View.relined (moved n)).result (Program.recast (.lines (moved n)))
      (program.run s).1 := by
  have agrees := agrees_program (v := .relined (moved n)) ⟨rfl, rfl⟩ s
  rw [View.stream_moved items last] at agrees
  exact congrArg Prod.fst agrees

theorem line_ne_of_program {e : ParseError} (run : (program.run s).1 = .error e)
    (other : e ≠ .emptySource) : e.line ≠ n := by
  have same := run_program_moved items last
  rw [run] at same
  have lines := congrArg ParseError.line (Except.error.inj same)
  rw [ParseError.line_relined other] at lines
  rintro rfl
  exact moved_self_ne _ lines.symm

theorem recast_of_program {p : Program} (run : (program.run s).1 = .ok p) :
    p.recast (.lines (moved n)) = p := by
  have same := run_program_moved items last
  rw [run] at same
  exact (Except.ok.inj same).symm

end Parser

theorem tokenize_ne_nil (source : String) : tokenize source ≠ [] := by
  rw [tokenize_eq_upTo]
  unfold Cursor.upTo
  split
  · exact List.cons_ne_nil _ _
  · split <;> exact List.cons_ne_nil _ _

theorem tokenize_of_eos {source : String} {t : Token} {rest : List (Except LexError Token)}
    (h : tokenize source = .ok t :: rest) (eos : t.kind = .eos) : tokenize source = [.ok t] := by
  have items := h
  rw [tokenize_eq_upTo, Cursor.upTo] at items
  split at items
  · cases items
  · split at items
    · rw [h, (List.cons.inj items).2]
    next more => exact absurd eos (by cases (List.cons.inj items).1; exact more)

namespace Program

variable {source : String} {limit : Nat}

theorem parse_eq (line : Nat) :
    parse source limit =
      (Parser.program.run { Stream.ofText source limit with lastLine := line }).1 :=
  (Parser.starts_program (Stream.ofText source limit) line (tokenize_ne_nil source)).1.symm

theorem parse_of_eos {t : Token} (h : tokenize source = [.ok t]) (eos : t.kind = .eos) :
    parse source limit = .error .emptySource := by
  obtain ⟨kind, text, span⟩ := t
  subst eos
  rw [parse, Stream.ofText, h]
  rfl

theorem tokenize_of_emptySource (h : parse source limit = .error .emptySource) :
    ∃ t : Token, t.kind = .eos ∧ tokenize source = [.ok t] := by
  obtain ⟨t, rest, pending, eos⟩ := Parser.eos_of_emptySource h
  exact ⟨t, eos, tokenize_of_eos pending eos⟩

/-- A fault of the text is on the line of one of its items. -/
theorem line_of_parse {e : ParseError} (h : parse source limit = .error e)
    (other : e ≠ .emptySource) : ∃ i ∈ tokenize source, itemLine i = e.line := by
  obtain ⟨first, rest, items⟩ := List.exists_cons_of_ne_nil (tokenize_ne_nil source)
  refine Classical.byContradiction fun none => ?_
  have apart : ∀ i ∈ tokenize source, itemLine i ≠ e.line := fun i inside same =>
    none ⟨i, inside, same⟩
  rw [parse_eq (itemLine first)] at h
  exact Parser.line_ne_of_program apart
    (apart first (by rw [items]; exact List.mem_cons_self)) h other rfl

theorem recast_of_parse_moved {p : Program} (h : parse source limit = .ok p) {n : Nat}
    (items : ∀ i ∈ tokenize source, itemLine i ≠ n) : p.recast (.lines (moved n)) = p := by
  obtain ⟨first, rest, cons⟩ := List.exists_cons_of_ne_nil (tokenize_ne_nil source)
  rw [parse_eq (itemLine first)] at h
  exact Parser.recast_of_program items (items first (by rw [cons]; exact List.mem_cons_self)) h

end Program

end GraalScript
