import GraalScript.Tree.Basic

/-! Trees with other lines and other bindings. Values of constants keep their bindings, which
nothing reads. -/
namespace GraalScript

structure Recast where
  line : Nat → Nat
  /-- The new binding of a name. -/
  binding : String → Binding → Binding

namespace Recast

def lines (line : Nat → Nat) : Recast := ⟨line, fun _ b => b⟩

@[simp] theorem line_lines (line : Nat → Nat) : (lines line).line = line := rfl

end Recast

variable (r : Recast)

def Ident.relined (line : Nat → Nat) (i : Ident) : Ident := ⟨i.name, line i.line⟩

mutual

def Expr.recast : Expr → Expr
  | .literal line value => .literal (r.line line) value
  | .name line text b => .name (r.line line) text (r.binding text b)
  | .member line object field => .member (r.line line) object.recast (field.relined r.line)
  | .index line object i => .index (r.line line) object.recast i.recast
  | .call line callee args => .call (r.line line) callee.recast (Expr.recastAll args)
  | .array line items => .array (r.line line) (Expr.recastAll items)
  | .unary line op operand => .unary (r.line line) op operand.recast
  | .step line op before target => .step (r.line line) op before target.recast
  | .binary line op lhs rhs => .binary (r.line line) op lhs.recast rhs.recast
  | .logical line op lhs rhs => .logical (r.line line) op lhs.recast rhs.recast
  | .assign line op target value => .assign (r.line line) op target.recast value.recast
  | .ternary line cond yes no => .ternary (r.line line) cond.recast yes.recast no.recast
  | .cast line kind operand => .cast (r.line line) kind operand.recast
  | .inRange line value lower upper => .inRange (r.line line) value.recast lower.recast upper.recast
  | .inObject line value object => .inObject (r.line line) value.recast object.recast
  | .new line cls args => .new (r.line line) (cls.relined r.line) (Expr.recastAll args)
  | .newArray line dims => .newArray (r.line line) dims

def Expr.recastAll : List Expr → List Expr
  | [] => []
  | e :: es => e.recast :: Expr.recastAll es

end

def VarDef.recast (d : VarDef) : VarDef := ⟨d.name.relined r.line, d.value.map (Expr.recast r)⟩

def VarDecl.recast (decl : VarDecl) : VarDecl := ⟨r.line decl.line, decl.defs.map (VarDef.recast r)⟩

def ForInit.recast : ForInit → ForInit
  | vars decl => vars (decl.recast r)
  | expr e => expr (e.recast r)

mutual

def Stmt.recast : Stmt → Stmt
  | .block line body => .block (r.line line) (Stmt.recastAll body)
  | .ifThen line cond yes => .ifThen (r.line line) (cond.recast r) yes.recast
  | .ifElse line cond yes no => .ifElse (r.line line) (cond.recast r) yes.recast no.recast
  | .whileLoop line cond body => .whileLoop (r.line line) (cond.recast r) body.recast
  | .forLoop line init cond step body =>
    .forLoop (r.line line) (init.map (ForInit.recast r)) (cond.map (Expr.recast r))
      (step.map (Expr.recast r)) body.recast
  | .forEach line declared item b iterable body =>
    .forEach (r.line line) declared item (r.binding item b) (iterable.recast r) body.recast
  | .withObject line object body => .withObject (r.line line) (object.recast r) body.recast
  | .switch line value cases => .switch (r.line line) (value.recast r) (Case.recastAll cases)
  | .new line cls name bodyLine body =>
    .new (r.line line) (cls.relined r.line) (name.recast r) (r.line bodyLine) (Stmt.recastAll body)
  | .ret line value => .ret (r.line line) (value.map (Expr.recast r))
  | .breakOut line => .breakOut (r.line line)
  | .continueLoop line => .continueLoop (r.line line)
  | .vars decl => .vars (decl.recast r)
  | .const line name value =>
    .const (r.line line) (name.relined r.line) (value.recast (.lines r.line))
  | .expr e => .expr (e.recast r)
  | .empty line => .empty (r.line line)

def Stmt.recastAll : List Stmt → List Stmt
  | [] => []
  | s :: ss => s.recast :: Stmt.recastAll ss

def Case.recast : Case → Case
  | .mk line labels body =>
    .mk (r.line line) (labels.map (Option.map (Expr.recast r))) (Stmt.recastAll body)

def Case.recastAll : List Case → List Case
  | [] => []
  | c :: cs => c.recast :: Case.recastAll cs

end

def Block.recast (b : Block) : Block := ⟨r.line b.line, Stmt.recastAll r b.body⟩

def Func.recast (f : Func) : Func where
  line := r.line f.line
  isPublic := f.isPublic
  object := f.object.map (Ident.relined r.line)
  name := f.name.relined r.line
  params := f.params.map (Ident.relined r.line)
  body := f.body.recast r

def Item.recast : Item → Item
  | func f => func (f.recast r)
  | stmt s => stmt (s.recast r)

def Program.recast (p : Program) : Program := ⟨p.items.map (Item.recast r), p.clientside⟩

theorem Expr.recastAll_eq (es : List Expr) : Expr.recastAll r es = es.map (Expr.recast r) := by
  induction es with
  | nil => rfl
  | cons e es ih => rw [Expr.recastAll, ih, List.map_cons]

theorem Stmt.recastAll_eq (ss : List Stmt) : Stmt.recastAll r ss = ss.map (Stmt.recast r) := by
  induction ss with
  | nil => rfl
  | cons s ss ih => rw [Stmt.recastAll, ih, List.map_cons]

theorem Case.recastAll_eq (cs : List Case) : Case.recastAll r cs = cs.map (Case.recast r) := by
  induction cs with
  | nil => rfl
  | cons c cs ih => rw [Case.recastAll, ih, List.map_cons]

@[simp] theorem Expr.line_recast (e : Expr) : (e.recast r).line = r.line e.line := by
  cases e <;> rfl

@[simp] theorem Expr.isAssignable_recast (e : Expr) :
    (e.recast r).isAssignable = e.isAssignable := by
  cases e <;> rfl

@[simp] theorem Case.line_recast (c : Case) : (c.recast r).line = r.line c.line := by
  cases c; rfl

@[simp] theorem Case.isDefault_recast (c : Case) : (c.recast r).isDefault = c.isDefault := by
  obtain ⟨line, labels, body⟩ := c
  simp [Case.recast, Case.isDefault, Case.labels, Function.comp_def]

@[simp] theorem Func.tableName_recast (f : Func) : (f.recast r).tableName = f.tableName := by
  cases h : f.object <;> simp [Func.recast, Func.tableName, h, Ident.relined]

end GraalScript
