import GraalScript.Compile
import GraalScript.Proofs.Parser.View
import GraalScript.Proofs.Tree.Formed

/-! What is read is formed, with the levels that were left. Besides what a parser returns, the kind
of the next token counts: it decides whether an else belongs to a statement and where the labels of
a case end. -/
namespace GraalScript

open Lexer

/-- The place of a stream: its depth under the limit, and tokens to come as they are cut from a
text. -/
structure Stream.Stands (depth limit : Nat) (s : Stream) : Prop where
  depth : s.depth = depth
  limit : s.limit = limit
  written : ∀ t, .ok t ∈ s.pending → t.Written

def TokenKind.isLabel : TokenKind → Bool
  | .keyword .caseKw | .keyword .defaultKw => true
  | _ => false

namespace Parser

variable {α β : Type} {d l n : Nat} {k : TokenKind} {p q : Parser α} {Q R : α → TokenKind → Prop}

/-- Before a token of kind `k`, what `p` reads and the kind of the token it leaves satisfy `Q`. -/
def Finds (d l : Nat) (k : TokenKind) (p : Parser α) (Q : α → TokenKind → Prop) : Prop :=
  ∀ s a s', s.Stands d l → s.kindAt 0 = k → p.run s = (.ok a, s') →
    Q a (s'.kindAt 0) ∧ s'.Stands d l

theorem finds_pure {a : α} (h : Q a k) : Finds d l k (pure a) Q := by
  rintro s _ _ stands rfl ⟨⟩
  exact ⟨h, stands⟩

theorem finds_throw (e : ParseError) : Finds d l k (throw e) Q := by
  rintro s a s' _ _ ⟨⟩

theorem Finds.bind {f : α → Parser β} {S : β → TokenKind → Prop} (first : Finds d l k p Q)
    (second : ∀ a k', Q a k' → Finds d l k' (f a) S) : Finds d l k (p >>= f) S := by
  intro s b s' stands kind run
  rw [run_bind] at run
  rcases mid : p.run s with ⟨e | a, s₁⟩
  · rw [mid] at run
    cases run
  · rw [mid] at run
    obtain ⟨ha, stands₁⟩ := first s a s₁ stands kind mid
    exact second a _ ha s₁ b s' stands₁ rfl run

theorem Finds.mono (h : Finds d l k p Q) (imp : ∀ a k', Q a k' → R a k') : Finds d l k p R :=
  fun s a s' stands kind run => (h s a s' stands kind run).imp_left (imp a _)

theorem finds_ite {c : Prop} [Decidable c] (yes : c → Finds d l k p Q) (no : ¬c → Finds d l k q Q) :
    Finds d l k (if c then p else q) Q := by
  split
  next h => exact yes h
  next h => exact no h

theorem finds_guard {c : Prop} [Decidable c] {e : ParseError} (rest : ¬c → Finds d l k p Q) :
    Finds d l k (if c then (do (throw e : Parser Unit); p) else p) Q :=
  finds_ite (fun _ => Finds.bind (finds_throw (Q := fun _ _ => False) e) fun _ _ h => h.elim) rest

theorem finds_get {f : Stream → Parser α} (h : ∀ s : Stream, s.Stands d l → Finds d l k (f s) Q) :
    Finds d l k (do f (← get)) Q :=
  fun s a s' stands kind run => h s stands s a s' stands kind run

theorem finds_nested (h : d < l → Finds (d + 1) l k p Q) : Finds d l k (nested p) Q := by
  intro s a s' stands kind run
  rw [run_nested] at run
  by_cases room : s.depth < s.limit
  · simp only [Stream.enter, room, if_true] at run
    rcases mid : p.run { s with depth := s.depth + 1 } with ⟨r, s₁⟩
    rw [mid] at run
    cases run
    rw [stands.depth, stands.limit] at room
    have inside : ({ s with depth := s.depth + 1 } : Stream).Stands (d + 1) l :=
      ⟨congrArg (· + 1) stands.depth, stands.limit, stands.written⟩
    obtain ⟨ha, stands₁⟩ := h room _ a s₁ inside kind mid
    exact ⟨ha, congrArg (· - 1) stands₁.depth, stands₁.limit, stands₁.written⟩
  · simp only [Stream.enter, room] at run
    cases run

theorem finds_insideLoop (h : Finds d l k p Q) : Finds d l k (insideLoop p) Q := by
  intro s a s' stands kind run
  change ((p.run s.enterLoop).1, (p.run s.enterLoop).2.leaveLoop) = _ at run
  rcases mid : p.run s.enterLoop with ⟨r, s₁⟩
  rw [mid] at run
  cases run
  obtain ⟨ha, stands₁⟩ := h s.enterLoop a s₁ ⟨stands.depth, stands.limit, stands.written⟩ kind mid
  exact ⟨ha, stands₁.depth, stands₁.limit, stands₁.written⟩

theorem finds_insideSwitch (h : Finds d l k p Q) : Finds d l k (insideSwitch p) Q := by
  intro s a s' stands kind run
  change ((p.run s.enterSwitch).1, (p.run s.enterSwitch).2.leaveSwitch) = _ at run
  rcases mid : p.run s.enterSwitch with ⟨r, s₁⟩
  rw [mid] at run
  cases run
  obtain ⟨ha, stands₁⟩ := h s.enterSwitch a s₁ ⟨stands.depth, stands.limit, stands.written⟩ kind mid
  exact ⟨ha, stands₁.depth, stands₁.limit, stands₁.written⟩

theorem finds_peek : Finds d l k peek fun t k' => t.Written ∧ t.kind = k ∧ k' = k := by
  rintro s t s' stands rfl run
  change (s.peek.mapError ParseError.token, s) = _ at run
  rcases pending : s.pending with _ | ⟨e | next, rest⟩ <;>
    simp only [Stream.peek, pending] at run <;> cases run
  exact ⟨⟨stands.written t (by rw [pending]; exact List.mem_cons_self),
    by simp [Stream.kindAt, pending], rfl⟩, stands⟩

theorem finds_peekKind : Finds d l k peekKind fun kind k' => kind = k ∧ k' = k :=
  finds_peek.bind fun _ _ ⟨_, kind, same⟩ => finds_pure ⟨kind, same⟩

theorem finds_lastLine : Finds d l k lastLine fun _ k' => k' = k :=
  finds_get fun _ _ => finds_pure rfl

theorem finds_advance : Finds d l k advance fun t _ => t.Written ∧ t.kind = k := by
  rintro s t s' stands rfl run
  change (s.advance.1.mapError ParseError.token, s.advance.2) = _ at run
  rcases pending : s.pending with _ | ⟨e | next, rest⟩ <;>
    simp only [Stream.advance, Stream.next, pending] at run <;> cases run
  have written := stands.written
  rw [pending] at written
  exact ⟨⟨written t List.mem_cons_self, by simp [Stream.kindAt, pending]⟩, stands.depth,
    stands.limit, fun u inside => written u (List.mem_cons_of_mem _ inside)⟩

theorem finds_consume (kind : TokenKind) :
    Finds d l k (consume kind) fun t _ => t.Written ∧ t.kind = kind ∧ k = kind := by
  intro s t s' stands here run
  have ofKind := kind_of_consume run
  change ((s.consume kind).1.mapError ParseError.token, (s.consume kind).2) = _ at run
  rcases found : s.peek with e | next
  · simp only [Stream.consume, found] at run
    cases run
  · by_cases same : next.kind = kind
    · simp only [Stream.consume, found, same, if_true] at run
      obtain ⟨⟨written, kind'⟩, stands'⟩ := finds_advance s t s' stands here run
      exact ⟨⟨written, ofKind, kind'.symm.trans ofKind⟩, stands'⟩
    · simp only [Stream.consume, found, same, if_false] at run
      cases run

theorem finds_accept (kind : TokenKind) (h : kind ≠ .eos) :
    Finds d l k (accept kind) fun found k' =>
      (found = true ∧ k = kind) ∨ (found = false ∧ k' = k ∧ k ≠ kind) := by
  rintro s found s' stands rfl run
  change (Except.ok (s.accept kind).1, (s.accept kind).2) = _ at run
  rcases step : s.consume kind with ⟨e | t, s₁⟩
  · simp only [Stream.accept, step] at run
    cases run
    refine ⟨.inr ⟨rfl, rfl, fun same => ?_⟩, stands⟩
    rcases pending : s.pending with _ | ⟨e | next, rest⟩ <;>
      simp only [Stream.kindAt, pending, List.getElem?_nil, List.getElem?_cons_zero] at same
    · exact h same.symm
    · exact h same.symm
    · simp [Stream.consume, Stream.peek, Stream.advance, Stream.next, pending, same] at step
  · simp only [Stream.accept, step] at run
    cases run
    have consumed : (consume kind).run s = (.ok t, s') := by
      change ((s.consume kind).1.mapError ParseError.token, (s.consume kind).2) = _
      rw [step]
      rfl
    obtain ⟨⟨_, _, same⟩, stands'⟩ := finds_consume kind s t s' stands rfl consumed
    exact ⟨.inl ⟨rfl, same⟩, stands'⟩

theorem finds_loop {I : α → TokenKind → Prop} {S : β → TokenKind → Prop} {step : α → Parser (α ⊕ β)}
    {a : α} (start : I a k)
    (h : ∀ a k, I a k → Finds d l k (step a) fun r k' => Sum.elim (I · k') (S · k') r) :
    Finds d l k (loop a step) S := by
  have rounds (n : Nat) (a : α) (k : TokenKind) (ha : I a k) :
      Finds d l k (iterate step n a) S := by
    induction n generalizing a k with
    | zero => exact finds_lastLine.bind fun _ _ _ => finds_throw _
    | succ n ih =>
      refine (h a k ha).bind fun r k' hr => ?_
      cases r with
      | inl a => exact ih a k' hr
      | inr b => exact finds_pure hr
  exact finds_get fun s _ => rounds (s.size + 1) a k start

theorem finds_listed {P : α → Prop} (item : ∀ k, Finds d l k p fun a _ => P a) (close : TokenKind) :
    Finds d l k (listed p close) fun found _ => ∀ a ∈ found.items, P a := by
  refine finds_loop (I := fun seen _ => ∀ a ∈ seen.items, P a)
    (fun _ h => nomatch h) fun seen k hs => ?_
  refine finds_peekKind.bind fun kind k' _ => finds_ite (fun _ => finds_pure ?_) fun _ => ?_
  · exact fun a inside => hs a (List.mem_reverse.mp inside)
  refine (item _).bind fun a _ ha => Finds.bind (Q := fun _ _ => True) ?_ fun found _ _ => ?_
  · refine finds_peekKind.bind fun kind _ _ => finds_ite (fun _ => ?_) fun _ => finds_pure trivial
    exact (finds_consume _).bind fun _ _ _ => finds_pure trivial
  have items : ∀ b ∈ a :: seen.items, P b := List.forall_mem_cons.mpr ⟨ha, hs⟩
  cases found with
  | some _ => exact finds_pure items
  | none => exact finds_pure fun b inside => items b (List.mem_reverse.mp inside)

theorem finds_ident : Finds d l k ident fun id _ => IsName id.name :=
  (finds_consume .ident).bind fun _ _ ⟨written, kind, _⟩ => finds_pure (written.name kind)

theorem finds_literal : Finds d l k literal fun found _ => found.1.Written := by
  refine finds_advance.bind fun t _ ⟨written, _⟩ => ?_
  cases read : literalValue t with
  | ok value => exact finds_pure (written_literalValue written read)
  | error e => exact finds_throw e

def Goal.Held (n : Nat) : Goal → Prop
  | .membership value _ _ => value.Formed n
  | _ => True

/-- What is read for a goal below a place with `n` levels left. A membership takes up what stands
there. -/
def Goal.Read (n : Nat) : Goal → Expr → Prop
  | .membership .. => Expr.Formed n
  | _ => Expr.Deeper n

section level

variable {deeper : Goal → Parser Expr}
  (below : ∀ g k, g.Held n → Finds d l k (deeper g) fun e _ => g.Read n e)

include below

theorem finds_arguments (close : TokenKind) :
    Finds d l k (arguments deeper close) fun args _ => ∀ a ∈ args, a.Deeper n := by
  refine (finds_listed (fun k => below .assignment k trivial) close).bind fun args _ formed => ?_
  exact (finds_consume close).bind fun _ _ _ => finds_pure formed

omit below in
theorem finds_dimensions : Finds d l .leftBracket dimensions fun dims _ => dims ≠ [] := by
  refine finds_loop (I := fun seen k => seen = [] →
    k = .leftBracket) (fun _ => rfl) fun seen k hs => ?_
  refine (finds_accept .leftBracket nofun).bind fun found k' after => ?_
  rcases after with ⟨rfl, _⟩ | ⟨rfl, rfl, other⟩
  · refine finds_literal.bind fun value _ _ => ?_
    obtain ⟨value, line⟩ := value
    cases value with
    | int size => exact (finds_consume _).bind fun _ _ _ => finds_pure nofun
    | _ => exact finds_throw _
  · refine finds_pure fun none => other (hs ?_)
    simpa using none

theorem finds_newExpr : Finds d l k (newExpr deeper) fun e _ => e.Formed n := by
  refine (finds_consume _).bind fun t _ _ => finds_peekKind.bind fun kind k' ⟨here, same⟩ => ?_
  refine finds_ite (fun bracket => ?_) fun _ => ?_
  · have start : k' = .leftBracket := by rw [same, ← here, bracket]
    subst start
    exact finds_dimensions.bind fun dims _ nonempty => finds_pure (.newArray nonempty)
  · refine finds_ident.bind fun cls _ isName => (finds_consume _).bind fun _ _ _ => ?_
    refine (finds_arguments below _).bind fun args _ formed => finds_pure ?_
    obtain ⟨m, inside, less⟩ := Expr.exists_level formed
    exact .new isName inside less

theorem finds_nameExpr : Finds d l k (nameExpr deeper) fun e _ => e.Formed n := by
  refine finds_ident.bind fun id _ isName => finds_peekKind.bind fun kind k' _ => ?_
  have name : Finds d l k' (pure (Expr.name id.line id.name .unresolved)) fun e _ => e.Formed n :=
    finds_pure (.name isName)
  cases CastKind.ofName? id.name with
  | none => exact name
  | some cast =>
    refine finds_ite (fun _ => finds_advance.bind fun _ _ _ => ?_) fun _ => name
    refine (below .assignment _ trivial).bind fun operand _ ⟨m, less, formed⟩ => ?_
    exact (finds_consume _).bind fun _ _ _ => finds_pure (.cast formed less)

theorem finds_primary : Finds d l k (primary deeper) fun e _ => e.Formed n := by
  have literal (k : TokenKind) : Finds d l k literalExpr fun e _ => e.Formed n :=
    finds_literal.bind fun found _ written => finds_pure (.literal written)
  refine finds_peek.bind fun t k' _ => ?_
  split
  iterate 6 exact literal k'
  · exact finds_nameExpr below
  · exact finds_newExpr below
  · refine finds_advance.bind fun _ _ _ => (below .assignment _ trivial).bind fun e _ formed => ?_
    exact (finds_consume _).bind fun _ _ _ => finds_pure (Expr.Deeper.formed formed)
  · refine finds_advance.bind fun _ _ _ => (finds_arguments below _).bind fun args _ formed =>
      finds_pure ?_
    obtain ⟨m, inside, less⟩ := Expr.exists_level formed
    exact .array inside less
  · exact finds_throw _

theorem finds_suffix {e : Expr} (h : e.Formed n) :
    Finds d l k (suffix deeper e) fun r _ => Sum.elim (Expr.Formed n) (Expr.Formed n) r := by
  refine finds_peekKind.bind fun kind k' _ => ?_
  split
  · refine finds_advance.bind fun _ _ _ => (finds_arguments below _).bind fun args _ formed =>
      finds_pure ?_
    obtain ⟨m, inside, less⟩ := Expr.exists_level formed
    exact .call h inside less
  · exact finds_advance.bind fun _ _ _ => finds_ident.bind fun id _ isName =>
      finds_pure (.member h isName)
  · refine finds_advance.bind fun _ _ _ =>
      (below .assignment _ trivial).bind fun i _ ⟨m, less, formed⟩ => ?_
    exact (finds_consume _).bind fun _ _ _ => finds_pure (.index h formed less)
  · split
    · refine finds_advance.bind fun _ _ _ => finds_guard fun assignable =>
        finds_pure (.stepAfter h ?_)
      simpa using assignable
    · exact finds_pure h

theorem finds_unary : Finds d l k (unary deeper) fun e _ => e.Formed n := by
  refine finds_peekKind.bind fun kind k' _ => ?_
  split
  · refine finds_advance.bind fun _ _ _ =>
      (below .unary _ trivial).bind fun operand _ ⟨m, less, formed⟩ => ?_
    exact finds_pure (.unary formed less)
  · refine finds_advance.bind fun _ _ _ =>
      (below .unary _ trivial).bind fun target _ ⟨m, less, formed⟩ => ?_
    refine finds_guard fun assignable => finds_pure (.stepBefore formed less ?_)
    simpa using assignable
  · refine (finds_primary below).bind fun e _ formed => ?_
    exact finds_loop (I := fun e _ => e.Formed n) formed fun e _ h =>
      (finds_suffix below h).mono fun r _ hr => by
      cases r <;> exact hr

theorem finds_connected (least : Nat) {lhs : Expr} (h : lhs.Formed n) :
    Finds d l k (connected deeper least lhs) fun r _ =>
      Sum.elim (Expr.Formed n) (Expr.Formed n) r := by
  refine finds_peekKind.bind fun kind k' _ => ?_
  split
  · exact finds_pure h
  · refine finds_ite (fun _ => finds_pure h) fun _ => finds_advance.bind fun t _ _ => ?_
    dsimp only
    split
    · exact (below (.membership lhs _ _) _ h).bind fun e _ formed => finds_pure formed
    · exact (below (.binary _) _ trivial).bind fun rhs _ ⟨m, less, formed⟩ =>
        finds_pure (.binary h formed less)
    · exact (below (.binary _) _ trivial).bind fun rhs _ ⟨m, less, formed⟩ =>
        finds_pure (.logical h formed less)

theorem finds_binary (least : Nat) : Finds d l k (binary deeper least) fun e _ => e.Formed n := by
  refine (finds_unary below).bind fun e _ formed => ?_
  exact finds_loop (I := fun e _ => e.Formed n) formed fun e _ h =>
    (finds_connected below least h).mono fun r _ hr => by cases r <;> exact hr

theorem finds_membership {value : Expr} (h : value.Formed (n + 1)) (line power : Nat) :
    Finds d l k (membership deeper value line power) fun e _ => e.Formed (n + 1) := by
  refine (finds_accept .pipe nofun).bind fun found _ _ => finds_ite (fun _ => ?_) fun _ => ?_
  · exact (finds_binary below power).bind fun object _ formed =>
      finds_pure (.inObject h formed (Nat.lt_succ_self n))
  · refine (below .assignment _ trivial).bind fun lower _ hl =>
      (finds_consume _).bind fun _ _ _ => ?_
    refine (below .assignment _ trivial).bind fun upper _ hu =>
      (finds_consume _).bind fun _ _ _ => ?_
    obtain ⟨less, lowerFormed⟩ := Expr.Deeper.pred hl
    exact finds_pure (.inRange h lowerFormed (Expr.Deeper.pred hu).2 (Nat.succ_lt_succ less))

theorem finds_ternary : Finds d l k (ternary deeper) fun e _ => e.Formed n := by
  refine (finds_binary below 1).bind fun cond _ hc =>
    (finds_accept .question nofun).bind fun found _ _ => ?_
  refine finds_ite (fun _ => finds_pure hc) fun _ => finds_lastLine.bind fun line _ _ => ?_
  refine (below .assignment _ trivial).bind fun yes _ hy => (finds_consume _).bind fun _ _ _ => ?_
  refine (below .assignment _ trivial).bind fun no _ hn => finds_pure ?_
  obtain ⟨less, yesFormed⟩ := Expr.Deeper.pred hy
  exact .ternary hc yesFormed (Expr.Deeper.pred hn).2 less

theorem finds_assignment : Finds d l k (assignment deeper) fun e _ => e.Formed n := by
  refine (finds_ternary below).bind fun target _ ht => finds_peekKind.bind fun kind _ _ => ?_
  split
  · exact finds_pure ht
  next op operator =>
    refine finds_advance.bind fun t _ _ => finds_guard fun assignable => ?_
    refine (below .assignment _ trivial).bind fun value _ inner => finds_pure ?_
    obtain ⟨m, less, formed⟩ := inner
    exact .assign operator ht (by simpa using assignable) formed less

end level

theorem finds_exprAt (n : Nat) {g : Goal} (k : TokenKind) (h : g.Held n) :
    Finds d l k (exprAt n g) fun e _ => g.Read n e := by
  induction n generalizing g k d with
  | zero => exact finds_get fun _ _ => finds_get fun _ _ => finds_throw _
  | succ n ih =>
    have below (g : Goal) (k : TokenKind) (hg : g.Held n) :
        Finds d l k (nested (exprAt n g)) fun e _ => g.Read n e := finds_nested fun _ => ih k hg
    cases g with
    | assignment =>
      exact (finds_assignment below).mono fun e _ formed => ⟨n, Nat.lt_succ_self n, formed⟩
    | binary power =>
      exact (finds_binary below power).mono fun e _ formed => ⟨n, Nat.lt_succ_self n, formed⟩
    | membership value line power => exact finds_membership below h line power
    | unary => exact (finds_unary below).mono fun e _ formed => ⟨n, Nat.lt_succ_self n, formed⟩

theorem finds_room : Finds d l k room fun n k' => n = l - d ∧ k' = k := by
  refine finds_get fun s hs => finds_get fun s' hs' => finds_pure ⟨?_, rfl⟩
  rw [hs.limit, hs'.depth]

theorem finds_deeperExpr {g : Goal} (k : TokenKind) (h : g.Held (l - d)) :
    Finds d l k (deeperExpr g) fun e _ => g.Read (l - d) e := by
  refine finds_room.bind fun n k' ⟨levels, _⟩ => finds_nested fun _ => ?_
  subst levels
  exact finds_exprAt _ _ h

theorem finds_expr : Finds d l k expr fun e _ => e.Deeper (l - d) := finds_deeperExpr k trivial

theorem finds_condition : Finds d l k condition fun e _ => e.Deeper (l - d) := by
  refine (finds_consume _).bind fun _ _ _ => finds_expr.bind fun e _ formed => ?_
  exact (finds_consume _).bind fun _ _ _ => finds_pure formed

theorem finds_exprUnless (close : TokenKind) :
    Finds d l k (exprUnless close) fun e? _ => ∀ e ∈ e?, e.Deeper (l - d) := by
  refine finds_peekKind.bind fun kind _ _ => finds_ite (fun _ => finds_pure nofun) fun _ => ?_
  refine finds_expr.bind fun e _ formed => finds_pure ?_
  rintro _ ⟨⟩
  exact formed

theorem finds_varDef :
    Finds d l k varDef fun v _ => IsName v.name.name ∧ ∀ e ∈ v.value, e.Deeper (l - d) := by
  refine finds_ident.bind fun name _ isName => (finds_accept .eq nofun).bind fun found _ _ => ?_
  refine finds_ite (fun _ => ?_) fun _ => finds_pure ⟨isName, nofun⟩
  refine finds_expr.bind fun e _ formed => finds_pure ⟨isName, ?_⟩
  rintro _ ⟨⟩
  exact formed

theorem finds_varDecl : Finds d l k varDecl fun decl _ => decl.Formed (l - d) := by
  refine (finds_consume _).bind fun t _ _ => ?_
  refine finds_loop (I := fun seen _ => ∀ v ∈ seen, IsName v.name.name ∧ ∀ e ∈ v.value,
    e.Deeper (l - d))
    (fun _ h => nomatch h) fun seen _ hs => ?_
  refine finds_varDef.bind fun v _ hv => (finds_accept .comma nofun).bind fun found _ _ => ?_
  have defs : ∀ w ∈ v :: seen, IsName w.name.name ∧ ∀ e ∈ w.value, e.Deeper (l - d) :=
    List.forall_mem_cons.mpr ⟨hv, hs⟩
  refine finds_ite (fun _ => finds_pure defs) fun _ => finds_pure ⟨by simp, ?_, ?_⟩
  · exact fun w inside => (defs w (List.mem_reverse.mp inside)).1
  · exact fun w inside => (defs w (List.mem_reverse.mp inside)).2

theorem finds_forInit : Finds d l k forInit fun init _ => ∀ i ∈ init, i.Formed (l - d) := by
  refine finds_peekKind.bind fun kind _ _ => ?_
  split
  · exact finds_pure nofun
  · refine finds_varDecl.bind fun decl _ formed => finds_pure ?_
    rintro _ ⟨⟩
    exact formed
  · refine finds_expr.bind fun e _ formed => finds_pure ?_
    rintro _ ⟨⟩
    exact formed

theorem finds_caseLabels :
    Finds d l k caseLabels fun labels k' => (k.isLabel = true → labels ≠ []) ∧
      (∀ label ∈ labels, ∀ e ∈ label, e.Deeper (l - d)) ∧ k'.isLabel = false := by
  refine finds_loop (I := fun seen k' => (seen = [] → k' = k) ∧ ∀ label ∈ seen, ∀ e ∈ label,
    e.Deeper (l - d))
    ⟨fun _ => rfl, fun _ h => nomatch h⟩ fun seen k' ⟨start, hs⟩ => ?_
  refine finds_peekKind.bind fun kind k'' ⟨here, same⟩ => ?_
  split
  · refine finds_advance.bind fun _ _ _ => finds_expr.bind fun e _ formed => ?_
    refine (finds_consume _).bind fun _ _ _ => finds_pure ⟨nofun, List.forall_mem_cons.mpr ⟨?_, hs⟩⟩
    rintro _ ⟨⟩
    exact formed
  · refine finds_advance.bind fun _ _ _ => (finds_consume _).bind fun _ _ _ => ?_
    exact finds_pure ⟨nofun, List.forall_mem_cons.mpr ⟨nofun, hs⟩⟩
  next notCase notDefault =>
    have plain : kind.isLabel = false := by
      unfold TokenKind.isLabel
      split
      · exact absurd rfl notCase
      · exact absurd rfl notDefault
      · rfl
    refine finds_pure ⟨fun label none => ?_, fun e inside => hs e (List.mem_reverse.mp inside), ?_⟩
    · rw [← start (by simpa using none), ← here, plain] at label
      cases label
    · rw [same, ← here]
      exact plain

/-- What holds of a statement that is read: an else behind it is not its own. -/
def StmtRead (P : Stmt → Prop) (s : Stmt) (k : TokenKind) : Prop :=
  P s ∧ (s.isOpen = true → k ≠ .keyword .elseKw)

theorem stmtRead_of_closed {P : Stmt → Prop} {s : Stmt} (h : P s) (closed : s.isOpen = false) :
    StmtRead P s k := by
  refine ⟨h, fun isOpen => ?_⟩
  rw [closed] at isOpen
  cases isOpen

theorem finds_exprStmt : Finds d l k exprStmt (StmtRead (Stmt.Formed (l - d))) := by
  refine finds_expr.bind fun e _ formed => (finds_consume _).bind fun _ _ _ => finds_pure ?_
  exact stmtRead_of_closed (.expr formed.formed) rfl

section level

variable {stmt : Parser Stmt} (below : ∀ k, Finds d l k stmt (StmtRead (Stmt.Deeper (l - d))))

include below

theorem finds_block : Finds d l k (block stmt) fun b _ => ∀ s ∈ b.body, s.Deeper (l - d) := by
  refine (finds_consume _).bind fun t _ _ => ?_
  refine Finds.bind (Q := fun body _ => ∀ s ∈ body, s.Deeper (l - d)) ?_ fun body _ hb => ?_
  · refine finds_loop (I := fun seen _ => ∀ s ∈ seen, s.Deeper (l - d))
      (fun _ h => nomatch h) fun seen _ hs => ?_
    refine finds_peekKind.bind fun kind _ _ => ?_
    split
    · exact finds_pure fun s inside => hs s (List.mem_reverse.mp inside)
    · exact (finds_consume _).bind fun _ _ _ => finds_pure hs
    · exact (below _).bind fun s _ h => finds_pure (List.forall_mem_cons.mpr ⟨h.1, hs⟩)
  · exact (finds_consume _).bind fun _ _ _ => finds_pure hb

/-- An else behind the first branch is taken, so a first branch with an else behind it is closed. -/
theorem finds_ifStmt : Finds d l k (ifStmt stmt) (StmtRead (Stmt.Formed (l - d))) := by
  refine (finds_consume _).bind fun t _ _ => finds_condition.bind fun cond _ hc => ?_
  refine (below _).bind fun yes k' hy =>
    (finds_accept (.keyword .elseKw) nofun).bind fun found k'' after => ?_
  obtain ⟨less, formed⟩ := Stmt.Deeper.pred hy.1
  rcases after with ⟨rfl, isElse⟩ | ⟨rfl, rfl, other⟩
  · refine (below _).bind fun no _ hn => finds_pure ⟨?_, hn.2⟩
    have closed : yes.isOpen = false := by
      cases isOpen : yes.isOpen with
      | false => rfl
      | true => exact absurd isElse (hy.2 isOpen)
    exact .ifElse hc formed closed (Stmt.Deeper.pred hn.1).2 less
  · exact finds_pure ⟨.ifThen hc formed less, fun _ => other⟩

theorem finds_whileStmt : Finds d l k (whileStmt stmt) (StmtRead (Stmt.Formed (l - d))) := by
  refine (finds_consume _).bind fun t _ _ => finds_condition.bind fun cond _ hc => ?_
  refine (finds_insideLoop (below _)).bind fun body _ ⟨⟨m, less, formed⟩, after⟩ => ?_
  exact finds_pure ⟨.whileLoop hc formed less, after⟩

theorem finds_withStmt : Finds d l k (withStmt stmt) (StmtRead (Stmt.Formed (l - d))) := by
  refine (finds_consume _).bind fun t _ _ => finds_condition.bind fun object _ ho => ?_
  refine (below _).bind fun body _ ⟨⟨m, less, formed⟩, after⟩ => ?_
  exact finds_pure ⟨.withObject ho formed less, after⟩

theorem finds_forStmt : Finds d l k (forStmt stmt) (StmtRead (Stmt.Formed (l - d))) := by
  refine (finds_consume _).bind fun t _ _ => (finds_consume _).bind fun _ _ _ =>
    finds_get fun s _ => ?_
  refine finds_ite (fun _ => ?_) fun _ => ?_
  · refine (finds_accept (.keyword .varKw) nofun).bind fun declared _ _ =>
      finds_ident.bind fun item _ isName => ?_
    refine (finds_consume _).bind fun _ _ _ => finds_expr.bind fun iterable _ hi => ?_
    refine (finds_consume _).bind fun _ _ _ => ?_
    refine (finds_insideLoop (below _)).bind fun body _ ⟨⟨m, less, formed⟩, after⟩ => ?_
    exact finds_pure ⟨.forEach isName hi formed less, after⟩
  · refine finds_forInit.bind fun init _ hi => (finds_consume _).bind fun _ _ _ => ?_
    refine (finds_exprUnless _).bind fun cond _ hc => (finds_consume _).bind fun _ _ _ => ?_
    refine (finds_exprUnless _).bind fun step _ hs => (finds_consume _).bind fun _ _ _ => ?_
    refine (finds_insideLoop (below _)).bind fun body _ ⟨⟨m, less, formed⟩, after⟩ => ?_
    exact finds_pure ⟨.forLoop hi hc hs formed less, after⟩

theorem finds_caseBody :
    Finds d l k (caseBody stmt) fun body k' => (∀ s ∈ body, s.Deeper (l - d)) ∧
      (body = [] → k' = k ∧ (k = .rightBrace ∨ k.isLabel = true)) := by
  refine finds_loop (I := fun seen k' => (seen = [] → k' = k) ∧ ∀ s ∈ seen, s.Deeper (l - d))
    ⟨fun _ => rfl, fun _ h => nomatch h⟩ fun seen k' ⟨start, hs⟩ => ?_
  refine finds_peekKind.bind fun kind k'' ⟨here, same⟩ => ?_
  have ended (h : kind = .rightBrace ∨ kind.isLabel = true) :
      Finds d l k'' (pure (Sum.inr seen.reverse : List Stmt ⊕ List Stmt)) fun r k₁ =>
        Sum.elim (fun seen => (seen = [] → k₁ = k) ∧ ∀ s ∈ seen, s.Deeper (l - d))
          (fun body => (∀ s ∈ body, s.Deeper (l - d)) ∧
            (body = [] → k₁ = k ∧ (k = .rightBrace ∨ k.isLabel = true)))
          r := by
    refine finds_pure ⟨fun s inside => hs s (List.mem_reverse.mp inside), fun none => ?_⟩
    have unmoved := start (by simpa using none)
    rw [← unmoved, same]
    exact ⟨rfl, by rwa [← here]⟩
  split
  · exact ended (.inl rfl)
  · exact ended (.inr rfl)
  · exact ended (.inr rfl)
  · exact (finds_consume _).bind fun _ _ ⟨_, _, brace⟩ => nomatch (here.trans same.symm).trans brace
  · exact (below _).bind fun s _ h => finds_pure ⟨nofun, List.forall_mem_cons.mpr ⟨h.1, hs⟩⟩

/-- The cases read so far, the last one first: only that one can have no statements, and then the
switch ends. -/
structure CasesRead (n : Nat) (seen : List Case) (k : TokenKind) : Prop where
  heads : ∀ c ∈ seen, c.HeadFormed n
  inside : ∀ c ∈ seen, ∀ s ∈ c.body, s.Deeper n
  bodies : ∀ c ∈ seen.tail, c.body ≠ []
  last : ∀ c ∈ seen.head?, c.body = [] → k = .rightBrace
  default : seen.countP Case.isDefault ≤ 1

omit below in
theorem CasesRead.grouped {seen : List Case} (h : CasesRead n seen k) :
    Case.Grouped seen.reverse := by
  refine ⟨fun c inside => h.bodies c ?_, ?_⟩
  · rwa [List.dropLast_reverse, List.mem_reverse] at inside
  · rw [List.countP_reverse]
    exact h.default

omit below in
theorem CasesRead.cons {seen : List Case} {k' : TokenKind} {c : Case} (h : CasesRead n seen k)
    (more : k ≠ .rightBrace) (head : c.HeadFormed n) (inside : ∀ s ∈ c.body, s.Deeper n)
    (last : c.body = [] → k' = .rightBrace)
    (single : ¬(c.isDefault && seen.any Case.isDefault) = true) : CasesRead n (c :: seen) k' where
  heads := List.forall_mem_cons.mpr ⟨head, h.heads⟩
  inside := List.forall_mem_cons.mpr ⟨inside, h.inside⟩
  bodies b hb := by
    cases seen with
    | nil => cases hb
    | cons first rest =>
      rcases List.mem_cons.mp hb with rfl | later
      · exact fun none => more (h.last b rfl none)
      · exact h.bodies b later
  last := by
    rintro _ ⟨⟩
    exact last
  default := by
    by_cases isDefault : c.isDefault = true
    · have others : seen.countP Case.isDefault = 0 := by
        rw [List.countP_eq_zero]
        intro b hb other
        exact single (by simpa [isDefault] using ⟨b, hb, other⟩)
      have counted := List.countP_cons_of_pos (l := seen) isDefault
      omega
    · rw [List.countP_cons_of_neg isDefault]
      exact h.default

theorem finds_cases :
    Finds d l k (cases stmt) fun cs _ => (∀ c ∈ cs, c.HeadFormed (l - d)) ∧ Case.Grouped cs ∧
      ∀ c ∈ cs, ∀ s ∈ c.body, s.Deeper (l - d) := by
  refine finds_loop (I := CasesRead (l - d)) ⟨nofun, nofun, nofun, nofun,
    Nat.zero_le _⟩ fun seen k hs => ?_
  refine finds_peek.bind fun t k' ⟨_, here, same⟩ => ?_
  rw [same]
  have case (start : k.isLabel = true) : Finds d l k
      (do
        let labels ← caseLabels
        let c := Case.mk t.line labels (← caseBody stmt)
        if c.isDefault && seen.any Case.isDefault then throw (.misplaced .secondDefault c.line)
        return (.inl (c :: seen) : List Case ⊕ List Case))
      fun r k₁ => Sum.elim (CasesRead (l - d) · k₁)
        (fun cs => (∀ c ∈ cs, c.HeadFormed (l - d)) ∧ Case.Grouped cs ∧ ∀ c ∈ cs, ∀ s ∈ c.body,
          s.Deeper (l - d)) r := by
    have more : k ≠ .rightBrace := by
      rintro rfl
      cases start
    refine finds_caseLabels.bind fun labels k₁ ⟨nonempty, formed, ended⟩ => ?_
    refine (finds_caseBody below).bind fun body k₂ ⟨inside, empty⟩ => finds_guard fun single =>
      finds_pure ?_
    refine hs.cons more ⟨nonempty start, formed⟩ inside (fun none => ?_) single
    obtain ⟨unmoved, brace | label⟩ := empty none
    · rw [unmoved, brace]
    · rw [ended] at label
      cases label
  split
  · refine finds_pure ⟨fun c inside => hs.heads c (List.mem_reverse.mp inside), hs.grouped,
      fun c inside => ?_⟩
    exact hs.inside c (List.mem_reverse.mp inside)
  next found => exact case (by rw [← here, found]; rfl)
  next found => exact case (by rw [← here, found]; rfl)
  · exact finds_throw _

theorem finds_switchStmt : Finds d l k (switchStmt stmt) (StmtRead (Stmt.Formed (l - d))) := by
  refine (finds_consume _).bind fun t _ _ => finds_condition.bind fun value _ hv => ?_
  refine (finds_consume _).bind fun _ _ _ => ?_
  refine (finds_insideSwitch (finds_cases below)).bind fun cs _ ⟨heads, grouped, inside⟩ => ?_
  refine (finds_consume _).bind fun _ _ _ => finds_pure (stmtRead_of_closed ?_ rfl)
  exact .switch hv heads grouped (fun c hc s hs => (inside c hc s hs).pred.2)
    fun c hc s hs => (inside c hc s hs).pred.1

theorem finds_newStmt : Finds d l k (newStmt stmt) (StmtRead (Stmt.Formed (l - d))) := by
  refine (finds_newExpr fun g k => finds_deeperExpr k).bind fun e _ formed => ?_
  refine finds_peekKind.bind fun kind _ _ => finds_ite (fun _ => ?_) fun _ => ?_
  · exact (finds_consume _).bind fun _ _ _ => finds_pure (stmtRead_of_closed (.expr formed) rfl)
  · split
    · cases formed with
      | new isName inside less =>
        refine (finds_block below).bind fun b _ hb => finds_pure (stmtRead_of_closed ?_ rfl)
        obtain ⟨m, body, lessBody⟩ := Stmt.exists_level hb
        exact .new isName ⟨_, less _ List.mem_cons_self, inside _ List.mem_cons_self⟩ body lessBody
    · exact finds_lastLine.bind fun line _ _ => finds_throw _

omit below in
theorem finds_jumpStmt (line : Nat) (allowed : Stream → Bool) (what : Misplaced) {s : Stmt}
    (h : s.Formed (l - d)) (closed : s.isOpen = false) :
    Finds d l k (jumpStmt line allowed what s) (StmtRead (Stmt.Formed (l - d))) := by
  refine finds_advance.bind fun _ _ _ => finds_get fun st _ => finds_guard fun _ => ?_
  exact (finds_consume _).bind fun _ _ _ => finds_pure (stmtRead_of_closed h closed)

theorem finds_keywordStmt (t : Token) (word : Keyword) :
    Finds d l k (keywordStmt stmt t word) (StmtRead (Stmt.Formed (l - d))) := by
  cases word with
  | ifKw => exact finds_ifStmt below
  | whileKw => exact finds_whileStmt below
  | forKw => exact finds_forStmt below
  | withKw => exact finds_withStmt below
  | switchKw => exact finds_switchStmt below
  | newKw => exact finds_newStmt below
  | breakKw => exact finds_jumpStmt _ _ _ .breakOut rfl
  | continueKw => exact finds_jumpStmt _ _ _ .continueLoop rfl
  | returnKw =>
    refine (finds_consume _).bind fun t _ _ => (finds_exprUnless _).bind fun value _ hv => ?_
    exact (finds_consume _).bind fun _ _ _ => finds_pure (stmtRead_of_closed (.ret hv) rfl)
  | varKw =>
    refine finds_varDecl.bind fun decl _ hd => (finds_consume _).bind fun _ _ _ => ?_
    exact finds_pure (stmtRead_of_closed (.vars hd) rfl)
  | constKw =>
    refine (finds_consume _).bind fun t _ _ => finds_ident.bind fun name _ isName => ?_
    refine (finds_consume _).bind fun _ _ _ => finds_expr.bind fun value _ hv => ?_
    exact (finds_consume _).bind fun _ _ _ => finds_pure (stmtRead_of_closed (.const isName hv) rfl)
  | functionKw | publicKw | elseKw | caseKw | defaultKw | inKw => exact finds_throw _
  | trueKw | falseKw | nullKw => exact finds_exprStmt

theorem finds_anyStmt : Finds d l k (anyStmt stmt) (StmtRead (Stmt.Formed (l - d))) := by
  refine finds_peek.bind fun t _ _ => ?_
  split
  · refine (finds_block below).bind fun b _ hb => finds_pure (stmtRead_of_closed ?_ rfl)
    obtain ⟨m, body, less⟩ := Stmt.exists_level hb
    exact .block body less
  · exact finds_advance.bind fun _ _ _ => finds_pure (stmtRead_of_closed .empty rfl)
  · exact finds_keywordStmt below t _
  · exact finds_throw _
  · exact finds_exprStmt

end level

theorem finds_stmtAt {n : Nat} (k : TokenKind) (h : n = l - d + 1) :
    Finds d l k (stmtAt n) (StmtRead (Stmt.Formed (l - d))) := by
  induction n generalizing d k with
  | zero => cases h
  | succ n ih =>
    refine finds_anyStmt fun k => finds_nested fun less => (ih k (by omega)).mono fun s k' hs => ?_
    exact ⟨⟨l - (d + 1), by omega, hs.1⟩, hs.2⟩

theorem finds_stmt : Finds d l k stmt (StmtRead (Stmt.Deeper (l - d))) := by
  refine finds_room.bind fun n k' ⟨levels, same⟩ => finds_nested fun less => ?_
  refine (finds_stmtAt k' (by omega)).mono fun s _ hs => ?_
  exact ⟨⟨l - (d + 1), by omega, hs.1⟩, hs.2⟩

theorem finds_func : Finds d l k func fun f _ => f.Formed (l - d) := by
  refine (finds_accept (.keyword .publicKw) nofun).bind fun isPublic _ _ =>
    (finds_consume _).bind fun t _ _ => ?_
  refine finds_ident.bind fun first _ firstName => (finds_accept .dot nofun).bind fun dot k' _ => ?_
  simp only [pure_bind]
  have rest (object : Option Ident) (name : Ident) (k : TokenKind)
      (ho : ∀ id ∈ object, IsName id.name)
      (hn : IsName name.name) : Finds d l k
      (do
        let _ ← consume .leftParen
        let params ← listed ident .rightParen
        let _ ← consume .rightParen
        let body ← block stmt
        return (⟨t.line, isPublic, object, name, params.items, body⟩ : Func)) fun f _ =>
          f.Formed (l - d) := by
    refine (finds_consume _).bind fun _ _ _ =>
      (finds_listed (fun _ => finds_ident) _).bind fun params _ hp => ?_
    refine (finds_consume _).bind fun _ _ _ =>
      (finds_block fun _ => finds_stmt).bind fun b _ hb => ?_
    exact finds_pure ⟨ho, hn, hp, hb⟩
  refine finds_ite
    (fun _ => finds_ident.bind fun name k₁ hn => rest (some first) name k₁ ?_ hn) fun _ =>
    rest none first k' nofun firstName
  rintro _ ⟨⟩
  exact firstName

/-- What has been read of a program is formed, and the mark stands between the items. -/
structure Reading.Formed (n : Nat) (seen : Reading) : Prop where
  items : ∀ i ∈ seen.items, i.Formed n
  count : seen.count = seen.items.length
  clientside : ∀ k ∈ seen.clientside, k ≤ seen.count

theorem Reading.Formed.cons {seen : Reading} {i : Item} (h : seen.Formed n) (hi : i.Formed n) :
    Reading.Formed n { seen with items := i :: seen.items, count := seen.count + 1 } where
  items := List.forall_mem_cons.mpr ⟨hi, h.items⟩
  count := congrArg (· + 1) h.count
  clientside k hk := Nat.le_succ_of_le (h.clientside k hk)

theorem finds_program : Finds d l k program fun p _ => p.Formed (l - d) := by
  refine finds_loop (I := fun seen _ => seen.Formed (l - d)) ⟨nofun, rfl, nofun⟩ fun seen _ hs => ?_
  refine finds_peek.bind fun t _ _ => ?_
  split
  · refine finds_guard fun some =>
      finds_pure ⟨fun i inside => hs.items i (List.mem_reverse.mp inside), ?_, ?_⟩
    · intro none
      have empty : seen.count = 0 := by
        rw [hs.count, List.reverse_eq_nil_iff.mp none]
        rfl
      exact fun unmarked => some ⟨empty, unmarked⟩
    · intro k hk
      rw [List.length_reverse, ← hs.count]
      exact hs.clientside k hk
  · refine finds_advance.bind fun _ _ _ => finds_guard fun _ => finds_pure ⟨hs.items, hs.count, ?_⟩
    rintro _ ⟨⟩
    exact Nat.le_refl _
  iterate 2 exact finds_func.bind fun f _ h => finds_pure (hs.cons h)
  · exact finds_stmt.bind fun s _ h => finds_pure (hs.cons h.1)

end Parser

/-- A tree that is read is formed, with as many levels as the limit allows. -/
theorem Program.formed_of_parse {source : String} {limit : Nat} {p : Program}
    (h : parse source limit = .ok p) : p.Formed limit := by
  have stands : (Stream.ofText source limit).Stands 0 limit :=
    ⟨rfl, rfl, fun t => written_of_mem_tokenize⟩
  rcases run : Parser.program.run (Stream.ofText source limit) with ⟨r, s⟩
  rw [parse, run] at h
  cases h
  exact (Parser.finds_program _ _ _ stands rfl run).1

end GraalScript
