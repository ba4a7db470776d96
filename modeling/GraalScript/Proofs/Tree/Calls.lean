import GraalScript.Proofs.Tree.Parts
import GraalScript.Tree.Calls

/-! What the scan for calls finds: it answers yes exactly where a call or a statement `new` stands
somewhere in the tree, the values of constants and the arguments that `new` drops included. -/
namespace GraalScript

namespace Expr

/-- The expressions directly inside an expression, with all the arguments of `new`. -/
def operands : Expr → List Expr
  | new _ _ args => args
  | e => e.children

def Within : Expr → Expr → Prop := Relation.ReflTransGen fun child e => child ∈ e.operands

def isCall : Expr → Bool
  | call .. => true
  | _ => false

/-- Somewhere in the expression there is a call. -/
def Calls (e : Expr) : Prop := ∃ part : Expr, part.Within e ∧ part.isCall = true

theorem calls_iff {e : Expr} : e.Calls ↔ e.isCall = true ∨ ∃ child ∈ e.operands, child.Calls :=
  exists_part_iff

end Expr

namespace Stmt

/-- The statement that makes an object and runs a body on it. -/
def isNew : Stmt → Bool
  | new .. => true
  | _ => false

/-- Somewhere in the statement there is a call or a statement `new`. -/
def Calls (s : Stmt) : Prop :=
  ∃ part : Stmt, part.Part s ∧ (part.isNew = true ∨ ∃ e ∈ part.exprs, e.Calls)

theorem calls_iff {s : Stmt} :
    s.Calls ↔ (s.isNew = true ∨ ∃ e ∈ s.exprs, e.Calls) ∨ ∃ child ∈ s.children, child.Calls :=
  exists_part_iff

end Stmt

def Block.Calls (b : Block) : Prop := ∃ s ∈ b.body, s.Calls

mutual

theorem Expr.hasCall_iff (e : Expr) : e.hasCall = true ↔ e.Calls := by
  rw [Expr.calls_iff]
  cases e with
  | literal | name | newArray => simp [Expr.hasCall, Expr.isCall, Expr.operands, Expr.children]
  | call => simp [Expr.hasCall, Expr.isCall]
  | member _ object _ =>
    simp [Expr.hasCall, Expr.isCall, Expr.operands, Expr.children, object.hasCall_iff]
  | index _ object i =>
    simp [Expr.hasCall, Expr.isCall, Expr.operands, Expr.children, object.hasCall_iff,
      i.hasCall_iff]
  | array _ items =>
    simp [Expr.hasCall, Expr.isCall, Expr.operands, Expr.children, Expr.anyHasCall_iff items]
  | unary _ _ operand | cast _ _ operand =>
    simp [Expr.hasCall, Expr.isCall, Expr.operands, Expr.children, operand.hasCall_iff]
  | step _ _ _ target =>
    simp [Expr.hasCall, Expr.isCall, Expr.operands, Expr.children, target.hasCall_iff]
  | binary _ _ lhs rhs | logical _ _ lhs rhs =>
    simp [Expr.hasCall, Expr.isCall, Expr.operands, Expr.children, lhs.hasCall_iff, rhs.hasCall_iff]
  | assign _ _ target value =>
    simp [Expr.hasCall, Expr.isCall, Expr.operands, Expr.children, target.hasCall_iff,
      value.hasCall_iff]
  | ternary _ cond yes no =>
    simp [Expr.hasCall, Expr.isCall, Expr.operands, Expr.children, cond.hasCall_iff,
      yes.hasCall_iff, no.hasCall_iff, or_assoc]
  | inRange _ value lower upper =>
    simp [Expr.hasCall, Expr.isCall, Expr.operands, Expr.children, value.hasCall_iff,
      lower.hasCall_iff, upper.hasCall_iff, or_assoc]
  | inObject _ value object =>
    simp [Expr.hasCall, Expr.isCall, Expr.operands, Expr.children, value.hasCall_iff,
      object.hasCall_iff]
  | new _ _ args => simp [Expr.hasCall, Expr.isCall, Expr.operands, Expr.anyHasCall_iff args]

theorem Expr.anyHasCall_iff (es : List Expr) : Expr.anyHasCall es = true ↔ ∃ e ∈ es, e.Calls := by
  cases es with
  | nil => simp [Expr.anyHasCall]
  | cons e es => simp [Expr.anyHasCall, e.hasCall_iff, Expr.anyHasCall_iff es]

end

theorem Expr.any_hasCall_iff (e : Option Expr) :
    e.any Expr.hasCall = true ↔ ∃ x ∈ e.toList, x.Calls := by
  cases e with
  | none => simp
  | some e => simp [e.hasCall_iff]

theorem VarDecl.hasCall_iff (decl : VarDecl) : decl.hasCall = true ↔ ∃ e ∈ decl.exprs, e.Calls := by
  simp only [VarDecl.hasCall, VarDecl.exprs, List.any_eq_true, Expr.any_hasCall_iff,
    List.mem_filterMap, Option.mem_toList]
  constructor
  · rintro ⟨d, inside, e, given, calls⟩
    exact ⟨e, ⟨d, inside, given⟩, calls⟩
  · rintro ⟨e, ⟨d, inside, given⟩, calls⟩
    exact ⟨d, inside, e, given, calls⟩

theorem ForInit.any_hasCall_iff (init : Option ForInit) :
    init.any ForInit.hasCall = true ↔ ∃ e ∈ init.elim [] ForInit.exprs, e.Calls := by
  match init with
  | none => simp
  | some (.vars decl) => exact decl.hasCall_iff
  | some (.expr e) => simp [ForInit.hasCall, ForInit.exprs, e.hasCall_iff]

theorem Case.any_labels_iff (labels : List (Option Expr)) :
    labels.any (·.any Expr.hasCall) = true ↔ ∃ e ∈ labels.reduceOption, e.Calls := by
  simp only [List.any_eq_true, Expr.any_hasCall_iff, List.reduceOption_mem_iff, Option.mem_toList]
  constructor
  · rintro ⟨_, inside, e, rfl, calls⟩
    exact ⟨e, inside, calls⟩
  · rintro ⟨e, inside, calls⟩
    exact ⟨some e, inside, e, rfl, calls⟩

mutual

theorem Stmt.hasCall_iff (s : Stmt) : s.hasCall = true ↔ s.Calls := by
  rw [Stmt.calls_iff]
  cases s with
  | block _ body =>
    simp [Stmt.hasCall, Stmt.isNew, Stmt.exprs, Stmt.children, Stmt.anyHasCall_iff body]
  | ifThen _ cond yes =>
    simp [Stmt.hasCall, Stmt.isNew, Stmt.exprs, Stmt.children, cond.hasCall_iff, yes.hasCall_iff]
  | ifElse _ cond yes no =>
    simp [Stmt.hasCall, Stmt.isNew, Stmt.exprs, Stmt.children, cond.hasCall_iff, yes.hasCall_iff,
      no.hasCall_iff, or_assoc]
  | whileLoop _ cond body =>
    simp [Stmt.hasCall, Stmt.isNew, Stmt.exprs, Stmt.children, cond.hasCall_iff, body.hasCall_iff]
  | forLoop _ init cond step body =>
    simp only [Stmt.hasCall, Stmt.isNew, Stmt.exprs, Stmt.children, Bool.or_eq_true,
      ForInit.any_hasCall_iff, Expr.any_hasCall_iff, body.hasCall_iff, List.mem_append,
      or_and_right, exists_or, List.mem_singleton, exists_eq_left, Bool.false_eq_true, false_or]
  | forEach _ _ _ _ iterable body =>
    simp [Stmt.hasCall, Stmt.isNew, Stmt.exprs, Stmt.children, iterable.hasCall_iff,
      body.hasCall_iff]
  | withObject _ object body =>
    simp [Stmt.hasCall, Stmt.isNew, Stmt.exprs, Stmt.children, object.hasCall_iff, body.hasCall_iff]
  | switch _ value cases =>
    simp only [Stmt.hasCall, Stmt.isNew, Stmt.exprs, Stmt.children, Bool.or_eq_true,
      value.hasCall_iff, Case.anyHasCall_iff cases, List.mem_cons, or_and_right, exists_or,
      exists_eq_left, Bool.false_eq_true, false_or, or_assoc]
  | new => simp [Stmt.hasCall, Stmt.isNew]
  | ret _ value => simp [Stmt.hasCall, Stmt.isNew, Stmt.exprs, Stmt.children, Expr.any_hasCall_iff]
  | vars decl => simp [Stmt.hasCall, Stmt.isNew, Stmt.exprs, Stmt.children, decl.hasCall_iff]
  | const _ _ value => simp [Stmt.hasCall, Stmt.isNew, Stmt.exprs, Stmt.children, value.hasCall_iff]
  | expr e => simp [Stmt.hasCall, Stmt.isNew, Stmt.exprs, Stmt.children, e.hasCall_iff]
  | breakOut | continueLoop | empty => simp [Stmt.hasCall, Stmt.isNew, Stmt.exprs, Stmt.children]

theorem Stmt.anyHasCall_iff (ss : List Stmt) : Stmt.anyHasCall ss = true ↔ ∃ s ∈ ss, s.Calls := by
  cases ss with
  | nil => simp [Stmt.anyHasCall]
  | cons s ss => simp [Stmt.anyHasCall, s.hasCall_iff, Stmt.anyHasCall_iff ss]

theorem Case.hasCall_iff (c : Case) :
    c.hasCall = true ↔ (∃ e ∈ c.labels.reduceOption, e.Calls) ∨ ∃ s ∈ c.body, s.Calls := by
  cases c with
  | mk _ labels body =>
    rw [Case.hasCall, Bool.or_eq_true, Case.any_labels_iff, Stmt.anyHasCall_iff body]
    rfl

theorem Case.anyHasCall_iff (cs : List Case) : Case.anyHasCall cs = true ↔
    (∃ e ∈ cs.flatMap fun c => c.labels.reduceOption, e.Calls) ∨
      ∃ s ∈ cs.flatMap Case.body, s.Calls := by
  cases cs with
  | nil => simp [Case.anyHasCall]
  | cons c cs =>
    simp only [Case.anyHasCall, Bool.or_eq_true, c.hasCall_iff, Case.anyHasCall_iff cs,
      List.flatMap_cons, List.mem_append, or_and_right, exists_or]
    exact or_or_or_comm

end

theorem Block.hasCall_iff (b : Block) : b.hasCall = true ↔ b.Calls := Stmt.anyHasCall_iff b.body

end GraalScript
