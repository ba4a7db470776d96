import GraalScript.Generate.Stmt

/-! Trees with literals in the place of the names that are bound to constants. -/
namespace GraalScript

mutual

def Expr.inlined : Expr → Expr
  | .name line _ (.constant value) => .literal line value.literal
  | .name line text binding => .name line text binding
  | .literal line value => .literal line value
  | .member line object field => .member line object.inlined field
  | .index line object i => .index line object.inlined i.inlined
  | .call line callee args => .call line callee.inlined (Expr.inlinedAll args)
  | .array line items => .array line (Expr.inlinedAll items)
  | .unary line op operand => .unary line op operand.inlined
  | .step line op before target => .step line op before target.inlined
  | .binary line op lhs rhs => .binary line op lhs.inlined rhs.inlined
  | .logical line op lhs rhs => .logical line op lhs.inlined rhs.inlined
  | .assign line op target value => .assign line op target.inlined value.inlined
  | .ternary line cond yes no => .ternary line cond.inlined yes.inlined no.inlined
  | .cast line kind operand => .cast line kind operand.inlined
  | .inRange line value lower upper => .inRange line value.inlined lower.inlined upper.inlined
  | .inObject line value object => .inObject line value.inlined object.inlined
  | .new line cls args => .new line cls (Expr.inlinedAll args)
  | .newArray line dims => .newArray line dims

def Expr.inlinedAll : List Expr → List Expr
  | [] => []
  | e :: es => e.inlined :: Expr.inlinedAll es

end

def VarDef.inlined (d : VarDef) : VarDef := ⟨d.name, d.value.map Expr.inlined⟩

def VarDecl.inlined (decl : VarDecl) : VarDecl := ⟨decl.line, decl.defs.map VarDef.inlined⟩

def ForInit.inlined : ForInit → ForInit
  | vars decl => vars decl.inlined
  | expr e => expr e.inlined

mutual

def Stmt.inlined : Stmt → Stmt
  | .block line body => .block line (Stmt.inlinedAll body)
  | .ifThen line cond yes => .ifThen line cond.inlined yes.inlined
  | .ifElse line cond yes no => .ifElse line cond.inlined yes.inlined no.inlined
  | .whileLoop line cond body => .whileLoop line cond.inlined body.inlined
  | .forLoop line init cond step body =>
    .forLoop line (init.map ForInit.inlined) (cond.map Expr.inlined)
      (step.map Expr.inlined) body.inlined
  | .forEach line declared item binding iterable body =>
    .forEach line declared item binding iterable.inlined body.inlined
  | .withObject line object body => .withObject line object.inlined body.inlined
  | .switch line value cases => .switch line value.inlined (Case.inlinedAll cases)
  | .new line cls name bodyLine body => .new line cls name.inlined bodyLine (Stmt.inlinedAll body)
  | .ret line value => .ret line (value.map Expr.inlined)
  | .vars decl => .vars decl.inlined
  | .const line name value => .const line name value.inlined
  | .expr e => .expr e.inlined
  | .breakOut line => .breakOut line
  | .continueLoop line => .continueLoop line
  | .empty line => .empty line

def Stmt.inlinedAll : List Stmt → List Stmt
  | [] => []
  | s :: ss => s.inlined :: Stmt.inlinedAll ss

def Case.inlined : Case → Case
  | .mk line labels body => .mk line (labels.map (Option.map Expr.inlined)) (Stmt.inlinedAll body)

def Case.inlinedAll : List Case → List Case
  | [] => []
  | c :: cs => c.inlined :: Case.inlinedAll cs

end

def Block.inlined (b : Block) : Block := ⟨b.line, Stmt.inlinedAll b.body⟩

def Func.inlined (f : Func) : Func := { f with body := f.body.inlined }

def Item.inlined : Item → Item
  | func f => func f.inlined
  | stmt s => stmt s.inlined

def Program.inlined (p : Program) : Program := { p with items := p.items.map Item.inlined }

theorem Expr.inlinedAll_eq (es : List Expr) : Expr.inlinedAll es = es.map Expr.inlined := by
  induction es with
  | nil => rfl
  | cons e es ih => rw [Expr.inlinedAll, ih, List.map_cons]

theorem Stmt.inlinedAll_eq (ss : List Stmt) : Stmt.inlinedAll ss = ss.map Stmt.inlined := by
  induction ss with
  | nil => rfl
  | cons s ss ih => rw [Stmt.inlinedAll, ih, List.map_cons]

theorem Case.inlinedAll_eq (cs : List Case) : Case.inlinedAll cs = cs.map Case.inlined := by
  induction cs with
  | nil => rfl
  | cons c cs ih => rw [Case.inlinedAll, ih, List.map_cons]

namespace Expr

/-- A literal is of the kind that a name bound to its constant is. -/
theorem valueType_inlined (e : Expr) : e.inlined.valueType = e.valueType := by
  cases e with
  | name _ _ binding =>
    cases binding with
    | constant value =>
      cases value with
      | number x =>
        change ValueType.ofLiteral (Constant.number x).literal = .number
        obtain ⟨-, int⟩ | ⟨-, float⟩ := Constant.literal_number x
        · rw [int]
          rfl
        · rw [float]
          rfl
      | text s => rfl
    | _ => rfl
  | unary _ op _ => cases op <;> rfl
  | _ => rfl

theorem command_inlined (e : Expr) : e.inlined.command = e.command := by
  cases e with
  | name _ _ binding => cases binding <;> rfl
  | _ => rfl

theorem memberName?_inlined (e : Expr) : e.inlined.memberName? = e.memberName? := by
  cases e with
  | name _ _ binding => cases binding <;> rfl
  | _ => rfl

end Expr

mutual

theorem Expr.hasCall_inlined (e : Expr) : e.inlined.hasCall = e.hasCall := by
  cases e with
  | name _ _ binding => cases binding <;> rfl
  | literal | call | newArray => rfl
  | array _ items => exact Expr.anyHasCall_inlined items
  | new _ _ args => exact Expr.anyHasCall_inlined args
  | _ => simp only [Expr.inlined, Expr.hasCall, Expr.hasCall_inlined]

theorem Expr.anyHasCall_inlined (es : List Expr) :
    Expr.anyHasCall (Expr.inlinedAll es) = Expr.anyHasCall es := by
  cases es with
  | nil => rfl
  | cons e es =>
    simp only [Expr.inlinedAll, Expr.anyHasCall, Expr.hasCall_inlined e, Expr.anyHasCall_inlined es]

end

theorem VarDecl.hasCall_inlined (decl : VarDecl) : decl.inlined.hasCall = decl.hasCall := by
  simp only [VarDecl.inlined, VarDecl.hasCall, VarDef.inlined, List.any_map, Function.comp_def,
    Option.any_map, Expr.hasCall_inlined]

theorem ForInit.hasCall_inlined (init : ForInit) : init.inlined.hasCall = init.hasCall := by
  cases init with
  | vars decl => exact decl.hasCall_inlined
  | expr e => exact e.hasCall_inlined

mutual

theorem Stmt.hasCall_inlined (s : Stmt) : s.inlined.hasCall = s.hasCall := by
  cases s with
  | block _ body => exact Stmt.anyHasCall_inlined body
  | switch _ value cases =>
    simp only [Stmt.inlined, Stmt.hasCall, Expr.hasCall_inlined, Case.anyHasCall_inlined cases]
  | vars decl => exact decl.hasCall_inlined
  | breakOut | continueLoop | empty | new => rfl
  | _ =>
    simp only [Stmt.inlined, Stmt.hasCall, Option.any_map, Expr.hasCall_inlined,
      ForInit.hasCall_inlined, Stmt.hasCall_inlined]

theorem Stmt.anyHasCall_inlined (ss : List Stmt) :
    Stmt.anyHasCall (Stmt.inlinedAll ss) = Stmt.anyHasCall ss := by
  cases ss with
  | nil => rfl
  | cons s ss =>
    simp only [Stmt.inlinedAll, Stmt.anyHasCall, Stmt.hasCall_inlined s, Stmt.anyHasCall_inlined ss]

theorem Case.hasCall_inlined (c : Case) : c.inlined.hasCall = c.hasCall := by
  cases c with
  | mk _ labels body =>
    simp only [Case.inlined, Case.hasCall, List.any_map, Function.comp_def, Option.any_map,
      Expr.hasCall_inlined, Stmt.anyHasCall_inlined body]

theorem Case.anyHasCall_inlined (cs : List Case) :
    Case.anyHasCall (Case.inlinedAll cs) = Case.anyHasCall cs := by
  cases cs with
  | nil => rfl
  | cons c cs =>
    simp only [Case.inlinedAll, Case.anyHasCall, Case.hasCall_inlined c, Case.anyHasCall_inlined cs]

end

theorem Gen.endsWithReturn_inlined (body : List Stmt) :
    endsWithReturn (Stmt.inlinedAll body) = endsWithReturn body := by
  rw [Stmt.inlinedAll_eq, endsWithReturn, endsWithReturn, List.getLast?_map]
  cases body.getLast? with
  | none => rfl
  | some s => cases s <;> rfl

end GraalScript
