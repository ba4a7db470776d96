import GraalScript.Tree.Basic

/-! Whether a piece of a script makes a call. A statement that builds an object with a body makes
one, because the new object is added with a call. -/
namespace GraalScript

mutual

def Expr.hasCall : Expr → Bool
  | .literal .. | .name .. | .newArray .. => false
  | .call .. => true
  | .member _ object _ => object.hasCall
  | .index _ object i => object.hasCall || i.hasCall
  | .array _ items => Expr.anyHasCall items
  | .unary _ _ operand => operand.hasCall
  | .step _ _ _ target => target.hasCall
  | .binary _ _ lhs rhs => lhs.hasCall || rhs.hasCall
  | .logical _ _ lhs rhs => lhs.hasCall || rhs.hasCall
  | .assign _ _ target value => target.hasCall || value.hasCall
  | .ternary _ cond yes no => cond.hasCall || yes.hasCall || no.hasCall
  | .cast _ _ operand => operand.hasCall
  | .inRange _ value lower upper => value.hasCall || lower.hasCall || upper.hasCall
  | .inObject _ value object => value.hasCall || object.hasCall
  | .new _ _ args => Expr.anyHasCall args

def Expr.anyHasCall : List Expr → Bool
  | [] => false
  | e :: es => e.hasCall || Expr.anyHasCall es

end

def VarDecl.hasCall (decl : VarDecl) : Bool := decl.defs.any fun d => d.value.any Expr.hasCall

def ForInit.hasCall : ForInit → Bool
  | vars decl => decl.hasCall
  | expr e => e.hasCall

mutual

def Stmt.hasCall : Stmt → Bool
  | .block _ body => Stmt.anyHasCall body
  | .ifThen _ cond yes => cond.hasCall || yes.hasCall
  | .ifElse _ cond yes no => cond.hasCall || yes.hasCall || no.hasCall
  | .whileLoop _ cond body => cond.hasCall || body.hasCall
  | .forLoop _ init cond step body =>
    init.any ForInit.hasCall || cond.any Expr.hasCall || step.any Expr.hasCall || body.hasCall
  | .forEach _ _ _ _ iterable body => iterable.hasCall || body.hasCall
  | .withObject _ object body => object.hasCall || body.hasCall
  | .switch _ value cases => value.hasCall || Case.anyHasCall cases
  | .new .. => true
  | .ret _ value => value.any Expr.hasCall
  | .vars decl => decl.hasCall
  | .const _ _ value => value.hasCall
  | .expr e => e.hasCall
  | .breakOut _ | .continueLoop _ | .empty _ => false

def Stmt.anyHasCall : List Stmt → Bool
  | [] => false
  | s :: ss => s.hasCall || Stmt.anyHasCall ss

def Case.hasCall : Case → Bool
  | .mk _ labels body => labels.any (·.any Expr.hasCall) || Stmt.anyHasCall body

def Case.anyHasCall : List Case → Bool
  | [] => false
  | c :: cs => c.hasCall || Case.anyHasCall cs

end

def Block.hasCall (b : Block) : Bool := Stmt.anyHasCall b.body

end GraalScript
