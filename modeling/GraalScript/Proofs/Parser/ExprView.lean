import GraalScript.Proofs.Parser.View
import GraalScript.Tree.Parser.Expr

/-! Reading expressions agrees with every view. -/
namespace GraalScript.Parser

variable {v : View}

def Goal.seen (v : View) : Goal → Goal
  | assignment => assignment
  | binary power => binary power
  | membership value line power => membership (value.recast v.tree) (v.line line) power
  | unary => unary

theorem agrees_dimensions : Agrees v id dimensions dimensions := by
  refine agrees_loop (f := id) rfl fun seen => (agrees_accept _).bind fun found => agrees_ite ?_ ?_
  · exact agrees_pure rfl
  · refine agrees_literal.bind fun l => ?_
    obtain ⟨value, line⟩ := l
    cases value with
    | int size => exact (agrees_consume _).bind fun _ => agrees_pure rfl
    | _ => exact agrees_throw rfl

section level

variable {deeper : Goal → Parser Expr}
  (below : ∀ g, Agrees v (Expr.recast v.tree) (deeper g) (deeper (g.seen v)))

include below

theorem agrees_arguments (close : TokenKind) :
    Agrees v (Expr.recastAll v.tree) (arguments deeper close) (arguments deeper close) := by
  refine (agrees_listed (below .assignment) close).bind fun args =>
    (agrees_consume close).bind fun _ => ?_
  exact agrees_pure (Expr.recastAll_eq v.tree args.items).symm

theorem agrees_newExpr : Agrees v (Expr.recast v.tree) (newExpr deeper) (newExpr deeper) := by
  refine (agrees_consume _).bind fun t => agrees_peekKind.bind fun kind => agrees_ite ?_ ?_
  · exact agrees_dimensions.bind fun dims => agrees_pure (by rw [v.line_token]; rfl)
  · refine agrees_ident.bind fun cls => (agrees_consume _).bind fun _ => ?_
    exact (agrees_arguments below _).bind fun args => agrees_pure (by rw [v.line_token]; rfl)

theorem agrees_nameExpr : Agrees v (Expr.recast v.tree) (nameExpr deeper) (nameExpr deeper) := by
  refine agrees_ident.bind fun name => agrees_peekKind.bind fun kind => ?_
  simp only [Ident.relined]
  cases CastKind.ofName? name.name with
  | none => exact agrees_pure rfl
  | some kind =>
    refine agrees_ite ?_ (agrees_pure rfl)
    refine agrees_advance.bind fun _ => (below .assignment).bind fun operand => ?_
    exact (agrees_consume _).bind fun _ => agrees_pure rfl

omit below in
theorem agrees_literalExpr : Agrees v (Expr.recast v.tree) literalExpr literalExpr :=
  agrees_literal.bind fun _ => agrees_pure rfl

theorem agrees_primary : Agrees v (Expr.recast v.tree) (primary deeper) (primary deeper) := by
  refine agrees_peek.bind fun t => ?_
  rw [v.kind_token, v.line_token]
  split
  iterate 6 exact agrees_literalExpr
  · exact agrees_nameExpr below
  · exact agrees_newExpr below
  · refine agrees_advance.bind fun _ => (below .assignment).bind fun e => ?_
    exact (agrees_consume _).bind fun _ => agrees_pure rfl
  · exact agrees_advance.bind fun _ => (agrees_arguments below _).bind fun items => agrees_pure rfl
  · exact agrees_throw rfl

theorem agrees_suffix (e : Expr) :
    Agrees v (Sum.map (Expr.recast v.tree) (Expr.recast v.tree)) (suffix deeper e)
      (suffix deeper (e.recast v.tree)) := by
  refine agrees_peekKind.bind fun kind => ?_
  simp only [Expr.line_recast, Expr.isAssignable_recast, id]
  split
  · exact agrees_advance.bind fun _ => (agrees_arguments below _).bind fun args => agrees_pure rfl
  · exact agrees_advance.bind fun _ => agrees_ident.bind fun field => agrees_pure rfl
  · refine agrees_advance.bind fun _ => (below .assignment).bind fun i => ?_
    exact (agrees_consume _).bind fun _ => agrees_pure rfl
  · split
    · exact agrees_advance.bind fun t => agrees_guard (by rw [v.line_token]; rfl) (agrees_pure rfl)
    · exact agrees_pure rfl

theorem agrees_suffixed : Agrees v (Expr.recast v.tree) (suffixed deeper) (suffixed deeper) :=
  (agrees_primary below).bind fun _ => agrees_loop rfl (agrees_suffix below)

theorem agrees_unary : Agrees v (Expr.recast v.tree) (unary deeper) (unary deeper) := by
  refine agrees_peekKind.bind fun kind => ?_
  simp only [id]
  split
  · refine agrees_advance.bind fun t => (below .unary).bind fun operand => ?_
    exact agrees_pure (by rw [v.line_token]; rfl)
  · refine agrees_advance.bind fun t => (below .unary).bind fun target => ?_
    rw [Expr.isAssignable_recast, v.line_token]
    exact agrees_guard rfl (agrees_pure rfl)
  · exact agrees_suffixed below

theorem agrees_connected (least : Nat) (lhs : Expr) :
    Agrees v (Sum.map (Expr.recast v.tree) (Expr.recast v.tree)) (connected deeper least lhs)
      (connected deeper least (lhs.recast v.tree)) := by
  refine agrees_peekKind.bind fun kind => ?_
  simp only [id]
  split
  · exact agrees_pure rfl
  next c power _ =>
    refine agrees_ite (agrees_pure rfl) (agrees_advance.bind fun t => ?_)
    rw [v.line_token]
    cases c with
    | membership => exact (below (.membership lhs t.line _)).bind fun e => agrees_pure rfl
    | binary op => exact (below (.binary _)).bind fun rhs => agrees_pure rfl
    | logical op => exact (below (.binary _)).bind fun rhs => agrees_pure rfl

theorem agrees_binary (least : Nat) :
    Agrees v (Expr.recast v.tree) (binary deeper least) (binary deeper least) :=
  (agrees_unary below).bind fun _ => agrees_loop rfl (agrees_connected below least)

theorem agrees_membership (value : Expr) (line power : Nat) :
    Agrees v (Expr.recast v.tree) (membership deeper value line power)
      (membership deeper (value.recast v.tree) (v.line line) power) := by
  refine (agrees_accept _).bind fun found => agrees_ite ?_ ?_
  · exact (agrees_binary below power).bind fun object => agrees_pure rfl
  · refine (below .assignment).bind fun lower => (agrees_consume _).bind fun _ => ?_
    refine (below .assignment).bind fun upper => (agrees_consume _).bind fun _ => ?_
    exact agrees_pure rfl

theorem agrees_ternary : Agrees v (Expr.recast v.tree) (ternary deeper) (ternary deeper) := by
  refine (agrees_binary below 1).bind fun cond => (agrees_accept _).bind fun found => ?_
  refine agrees_ite (agrees_pure rfl) (agrees_lastLine.bind fun line => ?_)
  refine (below .assignment).bind fun yes => (agrees_consume _).bind fun _ => ?_
  exact (below .assignment).bind fun no => agrees_pure rfl

theorem agrees_assignment :
    Agrees v (Expr.recast v.tree) (assignment deeper) (assignment deeper) := by
  refine (agrees_ternary below).bind fun target => agrees_peekKind.bind fun kind => ?_
  simp only [id, Expr.isAssignable_recast]
  split
  · exact agrees_pure rfl
  · refine agrees_advance.bind fun t => ?_
    rw [v.line_token]
    exact agrees_guard rfl ((below .assignment).bind fun value => agrees_pure rfl)

theorem agrees_goal (g : Goal) :
    Agrees v (Expr.recast v.tree) (goal deeper g) (goal deeper (g.seen v)) := by
  cases g with
  | assignment => exact agrees_assignment below
  | binary power => exact agrees_binary below power
  | membership value line power => exact agrees_membership below value line power
  | unary => exact agrees_unary below

end level

theorem agrees_exprAt (n : Nat) (g : Goal) :
    Agrees v (Expr.recast v.tree) (exprAt n g) (exprAt n (g.seen v)) := by
  induction n generalizing g with
  | zero => exact agrees_tooDeep
  | succ n ih => exact agrees_goal (fun g => agrees_nested (ih g)) g

theorem agrees_deeperExpr (g : Goal) :
    Agrees v (Expr.recast v.tree) (deeperExpr g) (deeperExpr (g.seen v)) :=
  agrees_room.bind fun n => agrees_nested (agrees_exprAt n g)

theorem agrees_expr : Agrees v (Expr.recast v.tree) expr expr := agrees_deeperExpr .assignment

end GraalScript.Parser
