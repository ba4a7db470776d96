import GraalScript.Generate.Expr
import Mathlib.Data.List.ReduceOption
import Mathlib.Logic.Relation

/-! The parts of trees: the expressions inside an expression, without the arguments that `new`
drops, the statements inside a statement, and the classes that calls among them join. -/
namespace GraalScript

open Relation in
theorem exists_part_iff {α : Type} {inside : α → α → Prop} {Q : α → Prop} {a : α} :
    (∃ part, ReflTransGen inside part a ∧ Q part) ↔
      Q a ∨ ∃ child, inside child a ∧ ∃ part, ReflTransGen inside part child ∧ Q part := by
  constructor
  · rintro ⟨part, within, found⟩
    rcases (ReflTransGen.cases_tail_iff _ _ _).mp within with rfl | ⟨child, rest, here⟩
    · exact .inl found
    · exact .inr ⟨child, here, part, rest, found⟩
  · rintro (found | ⟨child, here, part, rest, found⟩)
    · exact ⟨a, .refl, found⟩
    · exact ⟨part, rest.tail here, found⟩

open Relation in
theorem forall_part_iff {α : Type} {inside : α → α → Prop} {Q : α → Prop} {a : α} :
    (∀ part, ReflTransGen inside part a → Q part) ↔
      Q a ∧ ∀ child, inside child a → ∀ part, ReflTransGen inside part child → Q part := by
  constructor
  · exact fun h => ⟨h a .refl, fun child here part rest => h part (rest.tail here)⟩
  · rintro ⟨whole, rest⟩ part within
    rcases (ReflTransGen.cases_tail_iff _ _ _).mp within with rfl | ⟨child, deeper, here⟩
    · exact whole
    · exact rest child here part deeper

namespace Expr

/-- The expressions directly inside an expression. Of its arguments `new` keeps an only one. -/
def children : Expr → List Expr
  | literal .. | name .. | newArray .. => []
  | member _ object _ => [object]
  | index _ object i => [object, i]
  | call _ callee args => callee :: args
  | array _ items => items
  | unary _ _ operand | cast _ _ operand => [operand]
  | step _ _ _ target => [target]
  | binary _ _ lhs rhs | logical _ _ lhs rhs => [lhs, rhs]
  | assign _ _ target value => [target, value]
  | ternary _ cond yes no => [cond, yes, no]
  | inRange _ value lower upper => [value, lower, upper]
  | inObject _ value object => [value, object]
  | new _ _ args => if args.length = 1 then args else []

def Part : Expr → Expr → Prop := Relation.ReflTransGen fun child e => child ∈ e.children

/-- `join("cls")`, with the runtime's function. -/
def IsJoinOf (cls : String) (e : Expr) : Prop :=
  ∃ line nameLine textLine, e = .call line (.name nameLine "join" .builtin)
    [.literal textLine (.str cls)]

/-- Somewhere in the expression a class is joined. -/
def Joins (e : Expr) (cls : String) : Prop := ∃ part : Expr, part.Part e ∧ part.IsJoinOf cls

theorem joins_iff {e : Expr} {cls : String} :
    e.Joins cls ↔ e.IsJoinOf cls ∨ ∃ child ∈ e.children, child.Joins cls := exists_part_iff

theorem isJoinOf_call {cls : String} {line : Nat} {callee : Expr} {args : List Expr} :
    (Expr.call line callee args).IsJoinOf cls ↔ callee.joinedClass? args = some cls := by
  constructor
  · rintro ⟨_, _, _, same⟩
    cases same
    rfl
  · intro h
    unfold joinedClass? at h
    split at h
    next nameLine textLine text =>
      cases h
      exact ⟨line, nameLine, textLine, rfl⟩
    next => cases h

end Expr

def VarDecl.exprs (decl : VarDecl) : List Expr := decl.defs.filterMap VarDef.value

def ForInit.exprs : ForInit → List Expr
  | vars decl => decl.exprs
  | expr e => [e]

namespace Stmt

def exprs : Stmt → List Expr
  | ifThen _ cond _ | ifElse _ cond _ _ | whileLoop _ cond _ => [cond]
  | forLoop _ init cond step _ => init.elim [] ForInit.exprs ++ cond.toList ++ step.toList
  | forEach _ _ _ _ iterable _ => [iterable]
  | withObject _ object _ => [object]
  | switch _ value cases => value :: cases.flatMap fun c => c.labels.reduceOption
  | new _ _ name _ _ => [name]
  | ret _ value => value.toList
  | vars decl => decl.exprs
  | const _ _ value => [value]
  | expr e => [e]
  | block .. | breakOut _ | continueLoop _ | empty _ => []

def children : Stmt → List Stmt
  | block _ body | new _ _ _ _ body => body
  | ifThen _ _ yes => [yes]
  | ifElse _ _ yes no => [yes, no]
  | whileLoop _ _ body | forLoop _ _ _ _ body | forEach _ _ _ _ _ body | withObject _ _ body =>
    [body]
  | switch _ _ cases => cases.flatMap Case.body
  | ret .. | vars _ | const .. | expr _ | breakOut _ | continueLoop _ | empty _ => []

def Part : Stmt → Stmt → Prop := Relation.ReflTransGen fun child s => child ∈ s.children

def isConst : Stmt → Bool
  | const .. => true
  | _ => false

/-- Somewhere in the statement code is written that joins a class. -/
def Joins (s : Stmt) (cls : String) : Prop :=
  ∃ part : Stmt, part.Part s ∧ part.isConst = false ∧ ∃ e ∈ part.exprs, e.Joins cls

theorem joins_iff {s : Stmt} {cls : String} : s.Joins cls ↔
    (s.isConst = false ∧ ∃ e ∈ s.exprs, e.Joins cls) ∨ ∃ child ∈ s.children, child.Joins cls :=
  exists_part_iff

/-- No value of a constant joins a class. -/
def Plain (s : Stmt) : Prop :=
  ∀ part : Stmt, part.Part s → part.isConst = true → ∀ e ∈ part.exprs, ∀ cls, ¬e.Joins cls

theorem plain_iff {s : Stmt} : s.Plain ↔
    (s.isConst = true → ∀ e ∈ s.exprs, ∀ cls, ¬e.Joins cls) ∧ ∀ child ∈ s.children, child.Plain :=
  forall_part_iff

/-- Where no value of a constant joins a class, classes are joined wherever a call to join one
stands. -/
theorem Plain.joins_iff {s : Stmt} (plain : s.Plain) {cls : String} :
    s.Joins cls ↔ ∃ part : Stmt, part.Part s ∧ ∃ e ∈ part.exprs, e.Joins cls := by
  constructor
  · rintro ⟨part, inside, -, join⟩
    exact ⟨part, inside, join⟩
  · rintro ⟨part, inside, e, he, join⟩
    refine ⟨part, inside, ?_, e, he, join⟩
    cases const : part.isConst with
    | false => rfl
    | true => exact (plain part inside const e he cls join).elim

end Stmt

def Item.stmts : Item → List Stmt
  | func f => f.body.body
  | stmt s => [s]

def Program.stmts (p : Program) : List Stmt := p.items.flatMap Item.stmts

end GraalScript
