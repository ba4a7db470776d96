import GraalScript.Proofs.Tree.Recast
import GraalScript.Scope.ObjectVars

/-! The variables that a program makes do not depend on lines: with other lines the same variables
are found, each at its new line. -/
namespace GraalScript

namespace ObjectVars

variable (line : Nat → Nat)

def relined (v : ObjectVars) : ObjectVars :=
  ⟨v.declared, v.seen, v.found.map fun found => (found.1, line found.2)⟩

theorem assign_relined (v : ObjectVars) (name : String) (l : Nat) :
    (v.relined line).assign name (line l) = (v.assign name l).relined line := by
  by_cases known : (v.declared.any (·.contains name) || v.seen.contains name) = true
  · simp only [assign, relined, known, if_true]
  · simp only [assign, relined, known, Bool.false_eq_true, if_false, Array.map_push]

theorem assignTo_relined (v : ObjectVars) (e : Expr) :
    (v.relined line).assignTo (e.recast (.lines line)) = (v.assignTo e).relined line := by
  cases e with
  | name l name _ => exact v.assign_relined line name l
  | _ => rfl

theorem opened_relined (v : ObjectVars) (names : List String) :
    (v.relined line).opened names = (v.opened names).relined line := rfl

theorem closed_relined (v : ObjectVars) : (v.relined line).closed = v.closed.relined line := rfl

theorem declare_relined (v : ObjectVars) (name : String) :
    (v.relined line).declare name = (v.declare name).relined line := by
  obtain ⟨declared, seen, found⟩ := v
  cases declared <;> rfl

mutual

theorem expr_relined (v : ObjectVars) (e : Expr) :
    (v.relined line).expr (e.recast (.lines line)) = (v.expr e).relined line := by
  cases e with
  | literal | name | newArray => rfl
  | call _ callee args => simp only [Expr.recast, expr, expr_relined _ callee, exprs_relined _ args]
  | array _ items => exact exprs_relined v items
  | new _ _ args => exact exprs_relined v args
  | _ => simp only [Expr.recast, expr, assignTo_relined, expr_relined]

theorem exprs_relined (v : ObjectVars) (es : List Expr) :
    (v.relined line).exprs (Expr.recastAll (.lines line) es) = (v.exprs es).relined line := by
  cases es with
  | nil => rfl
  | cons e es => simp only [Expr.recastAll, exprs, expr_relined _ e, exprs_relined _ es]

end

theorem expr?_relined (v : ObjectVars) (e : Option Expr) :
    (v.relined line).expr? (e.map (Expr.recast (.lines line))) = (v.expr? e).relined line := by
  cases e with
  | none => rfl
  | some e => exact v.expr_relined line e

theorem foldl_relined {α : Type} {f : α → α} {step : ObjectVars → α → ObjectVars}
    (same : ∀ v a, step (v.relined line) (f a) = (step v a).relined line) (xs : List α)
    (v : ObjectVars) : (xs.map f).foldl step (v.relined line) = (xs.foldl step v).relined line := by
  induction xs generalizing v with
  | nil => rfl
  | cons x xs ih => rw [List.map_cons, List.foldl_cons, same, ih, List.foldl_cons]

theorem initializers_relined (v : ObjectVars) (defs : List VarDef) :
    (v.relined line).initializers (defs.map (VarDef.recast (.lines line))) =
      (v.initializers defs).relined line :=
  foldl_relined line (fun v d => v.expr?_relined line d.value) defs v

theorem forInit_relined (v : ObjectVars) (init : Option ForInit) :
    (v.relined line).forInit (init.map (ForInit.recast (.lines line))) =
      (v.forInit init).relined line := by
  rcases init with _ | ⟨decl⟩ | ⟨e⟩
  · rfl
  · have declare (v : ObjectVars) (d : VarDef) :
        (v.relined line).declare (d.recast (.lines line)).name.name =
          (v.declare d.name.name).relined line :=
      v.declare_relined line d.name.name
    simp only [Option.map_some, ForInit.recast, VarDecl.recast, forInit]
    rw [foldl_relined line declare, initializers_relined]
  · exact v.expr_relined line e

mutual

theorem stmt_relined (v : ObjectVars) (s : Stmt) :
    (v.relined line).stmt (s.recast (.lines line)) = (v.stmt s).relined line := by
  cases s with
  | block _ body =>
    simp only [Stmt.recast, stmt, opened_relined, stmts_relined _ body, closed_relined]
  | forLoop _ init cond step body =>
    simp only [Stmt.recast, stmt, opened_relined, forInit_relined, expr?_relined,
      stmt_relined _ body, closed_relined]
  | forEach l declared item _ iterable body =>
    cases declared <;>
      simp only [Stmt.recast, stmt, expr_relined, opened_relined, declare_relined, assign_relined,
        Recast.line_lines, if_true, Bool.false_eq_true, if_false, stmt_relined _ body,
          closed_relined]
  | switch _ value cases =>
    simp only [Stmt.recast, stmt, opened_relined, expr_relined, caseList_relined _ cases,
      closed_relined]
  | new _ _ name _ body =>
    simp only [Stmt.recast, stmt, opened_relined, expr_relined, stmts_relined _ body,
      closed_relined]
  | ret _ value => exact v.expr?_relined line value
  | vars decl =>
    have step (v : ObjectVars) (d : VarDef) :
        ((v.relined line).expr? (d.recast (.lines line)).value).declare
          (d.recast (.lines line)).name.name =
          ((v.expr? d.value).declare d.name.name).relined line := by
      simp only [VarDef.recast, Ident.relined, expr?_relined, declare_relined]
    exact foldl_relined line step decl.defs v
  | const _ name value =>
    simp only [Stmt.recast, stmt, Ident.relined, Recast.line_lines, expr_relined, declare_relined]
  | expr e => exact v.expr_relined line e
  | breakOut | continueLoop | empty => rfl
  | _ => simp only [Stmt.recast, stmt, expr_relined, stmt_relined]

theorem stmts_relined (v : ObjectVars) (ss : List Stmt) :
    (v.relined line).stmts (Stmt.recastAll (.lines line) ss) = (v.stmts ss).relined line := by
  cases ss with
  | nil => rfl
  | cons s ss => simp only [Stmt.recastAll, stmts, stmt_relined _ s, stmts_relined _ ss]

theorem caseList_relined (v : ObjectVars) (cs : List Case) :
    (v.relined line).caseList (Case.recastAll (.lines line) cs) = (v.caseList cs).relined line := by
  cases cs with
  | nil => rfl
  | cons c cs => simp only [Case.recastAll, caseList, oneCase_relined _ c, caseList_relined _ cs]

theorem oneCase_relined (v : ObjectVars) (c : Case) :
    (v.relined line).oneCase (c.recast (.lines line)) = (v.oneCase c).relined line := by
  cases c with
  | mk _ labels body =>
    have labels := foldl_relined line (expr?_relined line) labels v
    simp only [Case.recast, oneCase, labels, stmts_relined _ body]

end

theorem item_relined (v : ObjectVars) (i : Item) :
    (v.relined line).item (i.recast (.lines line)) = (v.item i).relined line := by
  cases i with
  | stmt s => exact v.stmt_relined line s
  | func f =>
    have params : (f.recast (.lines line)).params.map (·.name) = f.params.map (·.name) := by
      simp [Func.recast, Ident.relined, Function.comp_def]
    simp only [Item.recast, item, func, params, opened_relined]
    simp only [Func.recast, Block.recast, stmts_relined, closed_relined]

end ObjectVars

theorem Program.objectVars_recast (line : Nat → Nat) (p : Program) :
    (p.recast (.lines line)).objectVars = p.objectVars.map fun found =>
      (found.1, line found.2) := by
  have start : ObjectVars.initial.relined line = .initial := by
    simp [ObjectVars.relined, ObjectVars.initial]
  have found := ObjectVars.foldl_relined line (ObjectVars.item_relined line) p.items .initial
  rw [start] at found
  simp only [objectVars, recast]
  rw [← Array.toList_map]
  exact congrArg (·.found.toList) found

end GraalScript
