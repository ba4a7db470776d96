import GraalScript.Compile
import GraalScript.Proofs.Parser.View
import GraalScript.Proofs.Token.Spelled
import GraalScript.Proofs.Tree.Spelled

/-! A tree has no other texts than those of the tokens it is read from: names and numbers are the
texts of tokens, and texts are the values of string literals. -/
namespace GraalScript

/-- The tokens still to come bring only texts that satisfy `P` into a tree. -/
def Stream.Spelled (P : String → Prop) (s : Stream) : Prop := ∀ t, .ok t ∈ s.pending → t.Spelled P

namespace Parser

variable {α β : Type} {P : String → Prop} {p q : Parser α} {Q : α → Prop}

/-- Over spelled tokens, what `p` reads satisfies `Q`, and spelled tokens are left. -/
def Reads (P : String → Prop) (p : Parser α) (Q : α → Prop) : Prop :=
  ∀ s a s', s.Spelled P → p.run s = (.ok a, s') → Q a ∧ s'.Spelled P

theorem reads_pure {a : α} (h : Q a) : Reads P (pure a) Q := by
  rintro s _ _ spelled ⟨⟩
  exact ⟨h, spelled⟩

theorem reads_throw (e : ParseError) : Reads P (throw e) Q := by
  rintro s a s' _ ⟨⟩

theorem Reads.bind {f : α → Parser β} {S : β → Prop} (first : Reads P p Q)
    (second : ∀ a, Q a → Reads P (f a) S) : Reads P (p >>= f) S := by
  intro s b s' spelled run
  rw [run_bind] at run
  rcases mid : p.run s with ⟨e | a, s₁⟩
  · rw [mid] at run
    cases run
  · rw [mid] at run
    obtain ⟨ha, spelled₁⟩ := first s a s₁ spelled mid
    exact second a ha s₁ b s' spelled₁ run

theorem reads_ite {c : Prop} [Decidable c] (yes : Reads P p Q) (no : Reads P q Q) :
    Reads P (if c then p else q) Q := by
  split
  · exact yes
  · exact no

theorem reads_guard {c : Prop} [Decidable c] {e : ParseError} (rest : Reads P p Q) :
    Reads P (if c then (do (throw e : Parser Unit); p) else p) Q :=
  reads_ite (Reads.bind (reads_throw (Q := fun _ => False) e) fun _ h => h.elim) rest

theorem reads_get {f : Stream → Parser α} (h : ∀ s, Reads P (f s) Q) : Reads P (do f (← get)) Q :=
  fun s a s' spelled run => h s s a s' spelled run

theorem reads_nested (h : Reads P p Q) : Reads P (nested p) Q := by
  intro s a s' spelled run
  rw [run_nested] at run
  by_cases room : s.depth < s.limit
  · simp only [Stream.enter, room, if_true] at run
    rcases mid : p.run { s with depth := s.depth + 1 } with ⟨r, s₁⟩
    rw [mid] at run
    cases run
    exact h { s with depth := s.depth + 1 } a s₁ spelled mid
  · simp only [Stream.enter, room] at run
    cases run

theorem reads_insideLoop (h : Reads P p Q) : Reads P (insideLoop p) Q := by
  intro s a s' spelled run
  change ((p.run s.enterLoop).1, (p.run s.enterLoop).2.leaveLoop) = _ at run
  rcases mid : p.run s.enterLoop with ⟨r, s₁⟩
  rw [mid] at run
  cases run
  exact h s.enterLoop a s₁ spelled mid

theorem reads_insideSwitch (h : Reads P p Q) : Reads P (insideSwitch p) Q := by
  intro s a s' spelled run
  change ((p.run s.enterSwitch).1, (p.run s.enterSwitch).2.leaveSwitch) = _ at run
  rcases mid : p.run s.enterSwitch with ⟨r, s₁⟩
  rw [mid] at run
  cases run
  exact h s.enterSwitch a s₁ spelled mid

theorem reads_peek : Reads P peek (Token.Spelled P) := by
  intro s t s' spelled run
  change (s.peek.mapError ParseError.token, s) = _ at run
  rcases pending : s.pending with _ | ⟨e | next, rest⟩ <;>
    simp only [Stream.peek, pending] at run <;> cases run
  exact ⟨spelled t (by rw [pending]; exact List.mem_cons_self), spelled⟩

theorem reads_peekKind : Reads P peekKind fun _ => True :=
  reads_peek.bind fun _ _ => reads_pure trivial

theorem reads_lastLine : Reads P lastLine fun _ => True := reads_get fun _ => reads_pure trivial

theorem reads_advance : Reads P advance (Token.Spelled P) := by
  intro s t s' spelled run
  change (s.advance.1.mapError ParseError.token, s.advance.2) = _ at run
  rcases pending : s.pending with _ | ⟨e | next, rest⟩ <;>
    simp only [Stream.advance, Stream.next, pending] at run <;> cases run
  rw [Stream.Spelled, pending] at spelled
  exact ⟨spelled t List.mem_cons_self, fun u inside => spelled u (List.mem_cons_of_mem _ inside)⟩

theorem reads_consume (kind : TokenKind) :
    Reads P (consume kind) fun t => t.Spelled P ∧ t.kind = kind := by
  intro s t s' spelled run
  have ofKind := kind_of_consume run
  change ((s.consume kind).1.mapError ParseError.token, (s.consume kind).2) = _ at run
  rcases found : s.peek with e | next
  · simp only [Stream.consume, found] at run
    cases run
  · by_cases same : next.kind = kind
    · simp only [Stream.consume, found, same, if_true] at run
      obtain ⟨ht, spelled'⟩ := reads_advance s t s' spelled run
      exact ⟨⟨ht, ofKind⟩, spelled'⟩
    · simp only [Stream.consume, found, same, if_false] at run
      cases run

theorem reads_accept (kind : TokenKind) : Reads P (accept kind) fun _ => True := by
  intro s found s' spelled run
  change (Except.ok (s.accept kind).1, (s.accept kind).2) = _ at run
  rcases step : s.consume kind with ⟨e | t, s₁⟩
  · simp only [Stream.accept, step] at run
    cases run
    exact ⟨trivial, spelled⟩
  · simp only [Stream.accept, step] at run
    cases run
    have consumed : (consume kind).run s = (.ok t, s') := by
      change ((s.consume kind).1.mapError ParseError.token, (s.consume kind).2) = _
      rw [step]
      rfl
    exact ⟨trivial, (reads_consume kind s t s' spelled consumed).2⟩

theorem reads_loop {I : α → Prop} {S : β → Prop} {step : α → Parser (α ⊕ β)} {a : α} (start : I a)
    (h : ∀ a, I a → Reads P (step a) (Sum.elim I S)) : Reads P (loop a step) S := by
  have rounds (n : Nat) (a : α) (ha : I a) : Reads P (iterate step n a) S := by
    induction n generalizing a with
    | zero => exact reads_lastLine.bind fun _ _ => reads_throw _
    | succ n ih =>
      refine (h a ha).bind fun r hr => ?_
      cases r with
      | inl a => exact ih a hr
      | inr b => exact reads_pure hr
  exact reads_get fun s => rounds (s.size + 1) a start

theorem reads_listed (item : Reads P p Q) (close : TokenKind) :
    Reads P (listed p close) fun l => ∀ a ∈ l.items, Q a := by
  refine reads_loop (I := fun seen => ∀ a ∈ seen.items, Q a) (fun _ h => nomatch h)
    fun seen hs => ?_
  refine reads_peekKind.bind fun kind _ => reads_ite (reads_pure ?_) ?_
  · exact fun a inside => hs a (List.mem_reverse.mp inside)
  refine item.bind fun a ha => Reads.bind (Q := fun _ => True) ?_ fun found _ => ?_
  · exact reads_peekKind.bind fun kind _ =>
      reads_ite ((reads_consume _).bind fun _ _ => reads_pure trivial) (reads_pure trivial)
  have items : ∀ b ∈ a :: seen.items, Q b := List.forall_mem_cons.mpr ⟨ha, hs⟩
  cases found with
  | some _ => exact reads_pure items
  | none => exact reads_pure fun b inside => items b (List.mem_reverse.mp inside)

theorem reads_ident : Reads P ident fun id => Text.ZeroFree id.name := by
  refine (reads_consume .ident).bind fun t ⟨spelled, kind⟩ => reads_pure ?_
  exact spelled.plain (by rw [kind]; rfl)

theorem spelled_intLiteral {text : String} (h : Text.ZeroFree text) {value : Literal}
    (read : intLiteral text = some value) : value.Spelled P := by
  unfold intLiteral at read
  split at read
  iterate 2
    obtain ⟨n, -, rfl⟩ := Option.map_eq_some_iff.mp read
    trivial
  · cases read
    cases readWord 10 text.toList with
    | none => exact h
    | some n => trivial

theorem spelled_literalValue {t : Token} (h : t.Spelled P) {value : Literal}
    (read : literalValue t = .ok value) : value.Spelled P := by
  unfold literalValue at read
  split at read
  · rename_i kind
    have plain := h.plain (by rw [kind]; rfl)
    split at read
    · rename_i found
      cases read
      exact spelled_intLiteral plain found
    · cases read
  · rename_i kind
    cases read
    exact h.plain (by rw [kind]; rfl)
  · rename_i kind
    cases read
    exact h.str kind
  all_goals
    cases read
    try trivial

theorem reads_literal : Reads P literal fun l => l.1.Spelled P := by
  refine reads_advance.bind fun t spelled => ?_
  cases read : literalValue t with
  | ok value => exact reads_pure (spelled_literalValue spelled read)
  | error e => exact reads_throw e

section level

variable {deeper : Goal → Parser Expr}

def Goal.Spelled (P : String → Prop) : Goal → Prop
  | .membership value _ _ => value.Spelled P
  | _ => True

variable (below : ∀ g, g.Spelled P → Reads P (deeper g) (Expr.Spelled P))

include below

theorem reads_arguments (close : TokenKind) :
    Reads P (arguments deeper close) (Expr.AllSpelled P) := by
  refine (reads_listed (below .assignment trivial) close).bind fun args spelled => ?_
  exact (reads_consume close).bind fun _ _ => reads_pure ((Expr.allSpelled_iff P).mpr spelled)

omit below in
theorem reads_dimensions : Reads P dimensions fun _ => True := by
  refine reads_loop (I := fun _ => True) trivial fun seen _ =>
    (reads_accept _).bind fun found _ => ?_
  refine reads_ite (reads_pure trivial) (reads_literal.bind fun l _ => ?_)
  obtain ⟨value, line⟩ := l
  cases value with
  | int size => exact (reads_consume _).bind fun _ _ => reads_pure trivial
  | _ => exact reads_throw _

theorem reads_newExpr : Reads P (newExpr deeper) (Expr.Spelled P) := by
  refine (reads_consume _).bind fun t _ => reads_peekKind.bind fun kind _ => reads_ite ?_ ?_
  · exact reads_dimensions.bind fun dims _ => reads_pure trivial
  · refine reads_ident.bind fun cls plain => (reads_consume _).bind fun _ _ => ?_
    exact (reads_arguments below _).bind fun args spelled => reads_pure ⟨plain, spelled⟩

theorem reads_nameExpr : Reads P (nameExpr deeper) (Expr.Spelled P) := by
  refine reads_ident.bind fun id plain => reads_peekKind.bind fun kind _ => ?_
  have name : Reads P (pure (Expr.name id.line id.name .unresolved)) (Expr.Spelled P) :=
    reads_pure ⟨plain, trivial⟩
  cases CastKind.ofName? id.name with
  | none => exact name
  | some cast =>
    refine reads_ite (reads_advance.bind fun _ _ => ?_) name
    refine (below .assignment trivial).bind fun operand spelled => ?_
    exact (reads_consume _).bind fun _ _ => reads_pure spelled

theorem reads_primary : Reads P (primary deeper) (Expr.Spelled P) := by
  have literal : Reads P literalExpr (Expr.Spelled P) :=
    reads_literal.bind fun l spelled => reads_pure spelled
  refine reads_peek.bind fun t _ => ?_
  split
  iterate 6 exact literal
  · exact reads_nameExpr below
  · exact reads_newExpr below
  · refine reads_advance.bind fun _ _ => (below .assignment trivial).bind fun e spelled => ?_
    exact (reads_consume _).bind fun _ _ => reads_pure spelled
  · exact reads_advance.bind fun _ _ => (reads_arguments below _).bind fun args spelled =>
      reads_pure spelled
  · exact reads_throw _

theorem reads_suffix {e : Expr} (h : e.Spelled P) :
    Reads P (suffix deeper e) (Sum.elim (Expr.Spelled P) (Expr.Spelled P)) := by
  refine reads_peekKind.bind fun kind _ => ?_
  split
  · refine reads_advance.bind fun _ _ => (reads_arguments below _).bind fun args spelled => ?_
    exact reads_pure ⟨h, spelled⟩
  · exact reads_advance.bind fun _ _ => reads_ident.bind fun id plain => reads_pure ⟨h, plain⟩
  · refine reads_advance.bind fun _ _ => (below .assignment trivial).bind fun i spelled => ?_
    exact (reads_consume _).bind fun _ _ => reads_pure ⟨h, spelled⟩
  · split
    · exact reads_advance.bind fun _ _ => reads_guard (reads_pure h)
    · exact reads_pure h

theorem reads_unary : Reads P (unary deeper) (Expr.Spelled P) := by
  refine reads_peekKind.bind fun kind _ => ?_
  split
  · refine reads_advance.bind fun _ _ => (below .unary trivial).bind fun operand spelled => ?_
    exact reads_pure spelled
  · refine reads_advance.bind fun _ _ => (below .unary trivial).bind fun target spelled => ?_
    exact reads_guard (reads_pure spelled)
  · exact (reads_primary below).bind fun e spelled => reads_loop spelled fun _ => reads_suffix below

theorem reads_connected (least : Nat) {lhs : Expr} (h : lhs.Spelled P) :
    Reads P (connected deeper least lhs) (Sum.elim (Expr.Spelled P) (Expr.Spelled P)) := by
  refine reads_peekKind.bind fun kind _ => ?_
  split
  · exact reads_pure h
  · refine reads_ite (reads_pure h) (reads_advance.bind fun t _ => ?_)
    dsimp only
    split
    · exact (below (.membership lhs _ _) h).bind fun e spelled => reads_pure spelled
    · exact (below (.binary _) trivial).bind fun rhs spelled => reads_pure ⟨h, spelled⟩
    · exact (below (.binary _) trivial).bind fun rhs spelled => reads_pure ⟨h, spelled⟩

theorem reads_binary (least : Nat) : Reads P (binary deeper least) (Expr.Spelled P) :=
  (reads_unary below).bind fun _ spelled => reads_loop spelled fun _ => reads_connected below least

theorem reads_membership {value : Expr} (h : value.Spelled P) (line power : Nat) :
    Reads P (membership deeper value line power) (Expr.Spelled P) := by
  refine (reads_accept _).bind fun found _ => reads_ite ?_ ?_
  · exact (reads_binary below power).bind fun object spelled => reads_pure ⟨h, spelled⟩
  · refine (below .assignment trivial).bind fun lower hl => (reads_consume _).bind fun _ _ => ?_
    refine (below .assignment trivial).bind fun upper hu => (reads_consume _).bind fun _ _ => ?_
    exact reads_pure ⟨h, hl, hu⟩

theorem reads_ternary : Reads P (ternary deeper) (Expr.Spelled P) := by
  refine (reads_binary below 1).bind fun cond hc => (reads_accept _).bind fun found _ => ?_
  refine reads_ite (reads_pure hc) (reads_lastLine.bind fun line _ => ?_)
  refine (below .assignment trivial).bind fun yes hy => (reads_consume _).bind fun _ _ => ?_
  exact (below .assignment trivial).bind fun no hn => reads_pure ⟨hc, hy, hn⟩

theorem reads_assignment : Reads P (assignment deeper) (Expr.Spelled P) := by
  refine (reads_ternary below).bind fun target ht => reads_peekKind.bind fun kind _ => ?_
  split
  · exact reads_pure ht
  · refine reads_advance.bind fun t _ => reads_guard ?_
    exact (below .assignment trivial).bind fun value hv => reads_pure ⟨ht, hv⟩

theorem reads_goal {g : Goal} (h : g.Spelled P) : Reads P (goal deeper g) (Expr.Spelled P) := by
  cases g with
  | assignment => exact reads_assignment below
  | binary power => exact reads_binary below power
  | membership value line power => exact reads_membership below h line power
  | unary => exact reads_unary below

end level

theorem reads_exprAt (n : Nat) {g : Goal} (h : g.Spelled P) :
    Reads P (exprAt n g) (Expr.Spelled P) := by
  induction n generalizing g with
  | zero => exact reads_get fun _ => reads_get fun _ => reads_throw _
  | succ n ih => exact reads_goal (fun g hg => reads_nested (ih hg)) h

theorem reads_room : Reads P room fun _ => True :=
  reads_get fun _ => reads_get fun _ => reads_pure trivial

theorem reads_deeperExpr {g : Goal} (h : g.Spelled P) : Reads P (deeperExpr g) (Expr.Spelled P) :=
  reads_room.bind fun n _ => reads_nested (reads_exprAt n h)

theorem reads_expr : Reads P expr (Expr.Spelled P) := reads_deeperExpr trivial

theorem reads_condition : Reads P condition (Expr.Spelled P) := by
  refine (reads_consume _).bind fun _ _ => reads_expr.bind fun e spelled => ?_
  exact (reads_consume _).bind fun _ _ => reads_pure spelled

theorem reads_exprUnless (close : TokenKind) :
    Reads P (exprUnless close) fun e? => ∀ e ∈ e?, e.Spelled P := by
  refine reads_peekKind.bind fun kind _ => reads_ite (reads_pure nofun) ?_
  refine reads_expr.bind fun e spelled => reads_pure ?_
  rintro _ ⟨⟩
  exact spelled

theorem reads_exprStmt : Reads P exprStmt (Stmt.Spelled P) := by
  refine reads_expr.bind fun e spelled => ?_
  exact (reads_consume _).bind fun _ _ => reads_pure spelled

theorem reads_varDef : Reads P varDef (VarDef.Spelled P) := by
  refine reads_ident.bind fun name plain => (reads_accept _).bind fun found _ => reads_ite ?_ ?_
  · refine reads_expr.bind fun e spelled => reads_pure ⟨plain, ?_⟩
    rintro _ ⟨⟩
    exact spelled
  · exact reads_pure ⟨plain, nofun⟩

theorem reads_varDecl : Reads P varDecl (VarDecl.Spelled P) := by
  refine (reads_consume _).bind fun t _ => ?_
  refine reads_loop (I := fun seen => ∀ d ∈ seen, d.Spelled P) (fun _ h => nomatch h)
    fun seen hs => ?_
  refine reads_varDef.bind fun d hd => (reads_accept _).bind fun found _ => ?_
  have defs : ∀ d' ∈ d :: seen, d'.Spelled P := List.forall_mem_cons.mpr ⟨hd, hs⟩
  exact reads_ite (reads_pure defs)
    (reads_pure fun d' inside => defs d' (List.mem_reverse.mp inside))

theorem reads_forInit : Reads P forInit fun init => ∀ i ∈ init, i.Spelled P := by
  refine reads_peekKind.bind fun kind _ => ?_
  split
  · exact reads_pure nofun
  · refine reads_varDecl.bind fun decl spelled => reads_pure ?_
    rintro _ ⟨⟩
    exact spelled
  · refine reads_expr.bind fun e spelled => reads_pure ?_
    rintro _ ⟨⟩
    exact spelled

theorem reads_caseLabels :
    Reads P caseLabels fun labels => ∀ label ∈ labels, ∀ e ∈ label, e.Spelled P := by
  refine reads_loop (I := fun seen => ∀ label ∈ seen, ∀ e ∈ label, e.Spelled P)
    (fun _ h => nomatch h)
    fun seen hs => reads_peekKind.bind fun kind _ => ?_
  split
  · refine reads_advance.bind fun _ _ => reads_expr.bind fun e spelled => ?_
    refine (reads_consume _).bind fun _ _ => reads_pure (List.forall_mem_cons.mpr ⟨?_, hs⟩)
    rintro _ ⟨⟩
    exact spelled
  · refine reads_advance.bind fun _ _ => (reads_consume _).bind fun _ _ => ?_
    exact reads_pure (List.forall_mem_cons.mpr ⟨nofun, hs⟩)
  · exact reads_pure fun label inside => hs label (List.mem_reverse.mp inside)

theorem spelled_reverse {seen : List Stmt} (h : ∀ s ∈ seen, s.Spelled P) :
    Stmt.AllSpelled P seen.reverse :=
  (Stmt.allSpelled_iff P).mpr fun s inside => h s (List.mem_reverse.mp inside)

section level

variable {stmt : Parser Stmt} (below : Reads P stmt (Stmt.Spelled P))

include below

theorem reads_block : Reads P (block stmt) fun b => Stmt.AllSpelled P b.body := by
  refine (reads_consume _).bind fun t _ => Reads.bind (Q := Stmt.AllSpelled P) ?_ fun body hb => ?_
  · refine reads_loop (I := fun seen => ∀ s ∈ seen, s.Spelled P)
      (fun _ h => nomatch h) fun seen hs => ?_
    refine reads_peekKind.bind fun kind _ => ?_
    split
    · exact reads_pure (spelled_reverse hs)
    · exact (reads_consume _).bind fun _ _ => reads_pure hs
    · exact below.bind fun s h => reads_pure (List.forall_mem_cons.mpr ⟨h, hs⟩)
  · exact (reads_consume _).bind fun _ _ => reads_pure hb

theorem reads_ifStmt : Reads P (ifStmt stmt) (Stmt.Spelled P) := by
  refine (reads_consume _).bind fun t _ => reads_condition.bind fun cond hc => ?_
  refine below.bind fun yes hy => (reads_accept _).bind fun found _ => ?_
  exact reads_ite (below.bind fun no hn => reads_pure ⟨hc, hy, hn⟩) (reads_pure ⟨hc, hy⟩)

theorem reads_whileStmt : Reads P (whileStmt stmt) (Stmt.Spelled P) := by
  refine (reads_consume _).bind fun t _ => reads_condition.bind fun cond hc => ?_
  exact (reads_insideLoop below).bind fun body hb => reads_pure ⟨hc, hb⟩

theorem reads_withStmt : Reads P (withStmt stmt) (Stmt.Spelled P) := by
  refine (reads_consume _).bind fun t _ => reads_condition.bind fun object ho => ?_
  exact below.bind fun body hb => reads_pure ⟨ho, hb⟩

theorem reads_forStmt : Reads P (forStmt stmt) (Stmt.Spelled P) := by
  refine (reads_consume _).bind fun t _ => (reads_consume _).bind fun _ _ => reads_get fun s => ?_
  refine reads_ite ?_ ?_
  · refine (reads_accept _).bind fun declared _ => reads_ident.bind fun item plain => ?_
    refine (reads_consume _).bind fun _ _ => reads_expr.bind fun iterable hi => ?_
    refine (reads_consume _).bind fun _ _ => (reads_insideLoop below).bind fun body hb => ?_
    exact reads_pure ⟨plain, trivial, hi, hb⟩
  · refine reads_forInit.bind fun init hi => (reads_consume _).bind fun _ _ => ?_
    refine (reads_exprUnless _).bind fun cond hc => (reads_consume _).bind fun _ _ => ?_
    refine (reads_exprUnless _).bind fun step hs => (reads_consume _).bind fun _ _ => ?_
    exact (reads_insideLoop below).bind fun body hb => reads_pure ⟨hi, hc, hs, hb⟩

theorem reads_caseBody : Reads P (caseBody stmt) (Stmt.AllSpelled P) := by
  refine reads_loop (I := fun seen => ∀ s ∈ seen, s.Spelled P) (fun _ h => nomatch h)
    fun seen hs => ?_
  refine reads_peekKind.bind fun kind _ => ?_
  split
  iterate 3 exact reads_pure (spelled_reverse hs)
  · exact (reads_consume _).bind fun _ _ => reads_pure hs
  · exact below.bind fun s h => reads_pure (List.forall_mem_cons.mpr ⟨h, hs⟩)

theorem reads_cases : Reads P (cases stmt) (Case.AllSpelled P) := by
  refine reads_loop (I := fun seen => ∀ c ∈ seen, c.Spelled P) (fun _ h => nomatch h)
    fun seen hs => ?_
  refine reads_peek.bind fun t _ => ?_
  split
  · refine reads_pure ((Case.allSpelled_iff P).mpr fun c inside => ?_)
    exact hs c (List.mem_reverse.mp inside)
  iterate 2
    refine reads_caseLabels.bind fun labels hl => (reads_caseBody below).bind fun body hb => ?_
    exact reads_guard (reads_pure (List.forall_mem_cons.mpr ⟨⟨hl, hb⟩, hs⟩))
  · exact reads_throw _

theorem reads_switchStmt : Reads P (switchStmt stmt) (Stmt.Spelled P) := by
  refine (reads_consume _).bind fun t _ => reads_condition.bind fun value hv => ?_
  refine (reads_consume _).bind fun _ _ =>
    (reads_insideSwitch (reads_cases below)).bind fun cs hcs => ?_
  exact (reads_consume _).bind fun _ _ => reads_pure ⟨hv, hcs⟩

theorem reads_newStmt : Reads P (newStmt stmt) (Stmt.Spelled P) := by
  refine (reads_newExpr fun g => reads_deeperExpr).bind fun e spelled => ?_
  refine reads_peekKind.bind fun kind _ => reads_ite ?_ ?_
  · exact (reads_consume _).bind fun _ _ => reads_pure spelled
  · split
    · obtain ⟨plain, hname, -⟩ := spelled
      exact (reads_block below).bind fun b hb => reads_pure ⟨plain, hname, hb⟩
    · exact reads_lastLine.bind fun line _ => reads_throw _

omit below in
theorem reads_jumpStmt (line : Nat) (allowed : Stream → Bool) (what : Misplaced) {s : Stmt}
    (h : s.Spelled P) : Reads P (jumpStmt line allowed what s) (Stmt.Spelled P) := by
  refine reads_advance.bind fun _ _ => reads_get fun st => reads_guard ?_
  exact (reads_consume _).bind fun _ _ => reads_pure h

theorem reads_keywordStmt (t : Token) (word : Keyword) :
    Reads P (keywordStmt stmt t word) (Stmt.Spelled P) := by
  cases word with
  | ifKw => exact reads_ifStmt below
  | whileKw => exact reads_whileStmt below
  | forKw => exact reads_forStmt below
  | withKw => exact reads_withStmt below
  | switchKw => exact reads_switchStmt below
  | newKw => exact reads_newStmt below
  | breakKw | continueKw => exact reads_jumpStmt _ _ _ trivial
  | returnKw =>
    refine (reads_consume _).bind fun t _ => (reads_exprUnless _).bind fun value hv => ?_
    exact (reads_consume _).bind fun _ _ => reads_pure hv
  | varKw => exact reads_varDecl.bind fun decl hd => (reads_consume _).bind fun _ _ => reads_pure hd
  | constKw =>
    refine (reads_consume _).bind fun t _ => reads_ident.bind fun name _ => ?_
    refine (reads_consume _).bind fun _ _ => reads_expr.bind fun value hv => ?_
    exact (reads_consume _).bind fun _ _ => reads_pure hv
  | functionKw | publicKw | elseKw | caseKw | defaultKw | inKw => exact reads_throw _
  | trueKw | falseKw | nullKw => exact reads_exprStmt

theorem reads_anyStmt : Reads P (anyStmt stmt) (Stmt.Spelled P) := by
  refine reads_peek.bind fun t _ => ?_
  split
  · exact (reads_block below).bind fun b hb => reads_pure hb
  · exact reads_advance.bind fun _ _ => reads_pure trivial
  · exact reads_keywordStmt below t _
  · exact reads_throw _
  · exact reads_exprStmt

end level

theorem reads_stmtAt (n : Nat) : Reads P (stmtAt n) (Stmt.Spelled P) := by
  induction n with
  | zero => exact reads_get fun _ => reads_get fun _ => reads_throw _
  | succ n ih => exact reads_anyStmt (reads_nested ih)

theorem reads_stmt : Reads P stmt (Stmt.Spelled P) :=
  reads_room.bind fun n _ => reads_nested (reads_stmtAt n)

theorem zeroFree_tableName {f : Func} (object : ∀ id ∈ f.object, Text.ZeroFree id.name)
    (name : Text.ZeroFree f.name.name) : Text.ZeroFree f.tableName := by
  have visibility : Text.ZeroFree (if f.isPublic then "public." else "") := by
    split <;> decide
  have owner : Text.ZeroFree (f.object.elim "" (·.name ++ ".")) := by
    cases found : f.object with
    | none => decide
    | some id => exact Text.zeroFree_append (object id found) (by decide)
  exact Text.zeroFree_append (Text.zeroFree_append visibility owner) name

theorem reads_func : Reads P func (Func.Spelled P) := by
  refine (reads_accept _).bind fun isPublic _ => (reads_consume _).bind fun t _ => ?_
  refine reads_ident.bind fun first plain => (reads_accept _).bind fun dot _ => ?_
  simp only [pure_bind]
  have rest (object : Option Ident) (name : Ident) (ho : ∀ id ∈ object, Text.ZeroFree id.name)
      (hn : Text.ZeroFree name.name) : Reads P
      (do
        let _ ← consume .leftParen
        let params ← listed ident .rightParen
        let _ ← consume .rightParen
        let body ← block stmt
        return (⟨t.line, isPublic, object, name, params.items, body⟩ : Func)) (Func.Spelled P) := by
    refine (reads_consume _).bind fun _ _ => (reads_listed reads_ident _).bind fun params hp => ?_
    refine (reads_consume _).bind fun _ _ => (reads_block reads_stmt).bind fun b hb => reads_pure ?_
    exact ⟨zeroFree_tableName ho hn, hp, hb⟩
  refine reads_ite (reads_ident.bind fun name hn => rest (some first) name ?_ hn)
    (rest none first nofun plain)
  rintro _ ⟨⟩
  exact plain

theorem reads_program : Reads P program fun p => ∀ i ∈ p.items, i.Spelled P := by
  refine reads_loop (I := fun seen => ∀ i ∈ seen.items, i.Spelled P) (fun _ h => nomatch h)
    fun seen hs => reads_peek.bind fun t _ => ?_
  split
  · exact reads_guard (reads_pure fun i inside => hs i (List.mem_reverse.mp inside))
  · exact reads_advance.bind fun _ _ => reads_guard (reads_pure hs)
  iterate 2 exact reads_func.bind fun f h => reads_pure (List.forall_mem_cons.mpr ⟨h, hs⟩)
  · exact reads_stmt.bind fun s h => reads_pure (List.forall_mem_cons.mpr ⟨h, hs⟩)

end Parser

/-- The texts of a tree come from the string literals of its source. -/
theorem Program.spelled_of_parse {P : String → Prop} {source : String} {limit : Nat} {p : Program}
    (strings : ∀ t, .ok t ∈ tokenize source → t.kind = .str → P (Text.unescape t.text))
    (h : parse source limit = .ok p) : ∀ i ∈ p.items, i.Spelled P := by
  have spelled : (Stream.ofText source limit).Spelled P :=
    fun t inside => ⟨zeroFree_of_mem_tokenize inside, strings t inside⟩
  rcases run : Parser.program.run (Stream.ofText source limit) with ⟨r, s⟩
  rw [parse, run] at h
  cases h
  exact (Parser.reads_program _ _ _ spelled run).1

end GraalScript
