import GraalScript.Proofs.Code.Texts
import GraalScript.Tree.Basic

/-! The texts of a tree: names and numbers have no zero character, and the values of string literals
and of constants that are texts satisfy a given condition. -/
namespace GraalScript

/-- Conditions on texts that joining keeps and that hold without a zero character. -/
structure Text.Admits (P : String → Prop) : Prop where
  of_zeroFree : ∀ s, ZeroFree s → P s
  append : ∀ s t, P s → P t → P (s ++ t)

theorem Text.admits_zeroFree : Admits ZeroFree := ⟨fun _ h => h, fun _ _ => zeroFree_append⟩

theorem Text.admits_any : Admits fun _ => True := ⟨fun _ _ => trivial, fun _ _ _ _ => trivial⟩

variable (P : String → Prop)

def Literal.Spelled : Literal → Prop
  | float digits => Text.ZeroFree digits
  | str value => P value
  | _ => True

def Constant.Spelled : Constant → Prop
  | text value => P value
  | number _ => True

def Binding.Spelled : Binding → Prop
  | constant value => value.Spelled P
  | _ => True

mutual

def Expr.Spelled : Expr → Prop
  | .literal _ value => value.Spelled P
  | .name _ text binding => Text.ZeroFree text ∧ binding.Spelled P
  | .member _ object id => object.Spelled ∧ Text.ZeroFree id.name
  | .index _ object i => object.Spelled ∧ i.Spelled
  | .call _ callee args => callee.Spelled ∧ Expr.AllSpelled args
  | .array _ items => Expr.AllSpelled items
  | .unary _ _ operand => operand.Spelled
  | .step _ _ _ target => target.Spelled
  | .binary _ _ lhs rhs => lhs.Spelled ∧ rhs.Spelled
  | .logical _ _ lhs rhs => lhs.Spelled ∧ rhs.Spelled
  | .assign _ _ target value => target.Spelled ∧ value.Spelled
  | .ternary _ cond yes no => cond.Spelled ∧ yes.Spelled ∧ no.Spelled
  | .cast _ _ operand => operand.Spelled
  | .inRange _ value lower upper => value.Spelled ∧ lower.Spelled ∧ upper.Spelled
  | .inObject _ value object => value.Spelled ∧ object.Spelled
  | .new _ cls args => Text.ZeroFree cls.name ∧ Expr.AllSpelled args
  | .newArray .. => True

def Expr.AllSpelled : List Expr → Prop
  | [] => True
  | e :: es => e.Spelled ∧ Expr.AllSpelled es

end

theorem Expr.allSpelled_iff {es : List Expr} : AllSpelled P es ↔ ∀ e ∈ es, e.Spelled P := by
  induction es with
  | nil => simp [AllSpelled]
  | cons e es ih => rw [AllSpelled, ih, List.forall_mem_cons]

def VarDef.Spelled (d : VarDef) : Prop := Text.ZeroFree d.name.name ∧ ∀ e ∈ d.value, e.Spelled P

def VarDecl.Spelled (decl : VarDecl) : Prop := ∀ d ∈ decl.defs, d.Spelled P

def ForInit.Spelled : ForInit → Prop
  | vars decl => decl.Spelled P
  | expr e => e.Spelled P

mutual

def Stmt.Spelled : Stmt → Prop
  | .block _ body => Stmt.AllSpelled body
  | .ifThen _ cond yes => cond.Spelled P ∧ yes.Spelled
  | .ifElse _ cond yes no => cond.Spelled P ∧ yes.Spelled ∧ no.Spelled
  | .whileLoop _ cond body => cond.Spelled P ∧ body.Spelled
  | .forLoop _ init cond step body =>
    (∀ i ∈ init, i.Spelled P) ∧ (∀ e ∈ cond, e.Spelled P) ∧ (∀ e ∈ step, e.Spelled P) ∧ body.Spelled
  | .forEach _ _ item binding iterable body =>
    Text.ZeroFree item ∧ binding.Spelled P ∧ iterable.Spelled P ∧ body.Spelled
  | .withObject _ object body => object.Spelled P ∧ body.Spelled
  | .switch _ value cases => value.Spelled P ∧ Case.AllSpelled cases
  | .new _ cls name _ body => Text.ZeroFree cls.name ∧ name.Spelled P ∧ Stmt.AllSpelled body
  | .ret _ value => ∀ e ∈ value, e.Spelled P
  | .vars decl => decl.Spelled P
  | .const _ _ value => value.Spelled P
  | .expr e => e.Spelled P
  | .breakOut _ | .continueLoop _ | .empty _ => True

def Stmt.AllSpelled : List Stmt → Prop
  | [] => True
  | s :: ss => s.Spelled ∧ Stmt.AllSpelled ss

def Case.Spelled : Case → Prop
  | .mk _ labels body => (∀ label ∈ labels, ∀ e ∈ label, e.Spelled P) ∧ Stmt.AllSpelled body

def Case.AllSpelled : List Case → Prop
  | [] => True
  | c :: cs => c.Spelled ∧ Case.AllSpelled cs

end

theorem Stmt.allSpelled_iff {ss : List Stmt} : AllSpelled P ss ↔ ∀ s ∈ ss, s.Spelled P := by
  induction ss with
  | nil => simp [AllSpelled]
  | cons s ss ih => rw [AllSpelled, ih, List.forall_mem_cons]

theorem Case.allSpelled_iff {cs : List Case} : AllSpelled P cs ↔ ∀ c ∈ cs, c.Spelled P := by
  induction cs with
  | nil => simp [AllSpelled]
  | cons c cs ih => rw [AllSpelled, ih, List.forall_mem_cons]

structure Func.Spelled (f : Func) : Prop where
  tableName : Text.ZeroFree f.tableName
  params : ∀ p ∈ f.params, Text.ZeroFree p.name
  body : Stmt.AllSpelled P f.body.body

def Item.Spelled : Item → Prop
  | func f => f.Spelled P
  | stmt s => s.Spelled P

end GraalScript
