import Std.Data.TreeSet
import GraalScript.Tree.Basic

/-! The variables that a program makes by assigning to them: the names that are assigned, stepped or
iterated over while no declaration of them is in scope, each with the line of its first use. -/
namespace GraalScript

structure ObjectVars where
  /-- The names declared in each open scope, from the inside out. -/
  declared : List (List String)
  seen : Std.TreeSet String
  /-- The variables found, in the order of the text. -/
  found : Array (String × Nat)

namespace ObjectVars

def initial : ObjectVars := ⟨[[]], ∅, #[]⟩

def opened (v : ObjectVars) (names : List String) : ObjectVars :=
  { v with declared := names :: v.declared }

def closed (v : ObjectVars) : ObjectVars := { v with declared := v.declared.tail }

def declare (v : ObjectVars) (name : String) : ObjectVars :=
  match v.declared with
  | [] => v
  | names :: rest => { v with declared := (name :: names) :: rest }

def assign (v : ObjectVars) (name : String) (line : Nat) : ObjectVars :=
  if v.declared.any (·.contains name) || v.seen.contains name then v
  else { v with seen := v.seen.insert name, found := v.found.push (name, line) }

def assignTo (v : ObjectVars) : Expr → ObjectVars
  | .name line name _ => v.assign name line
  | _ => v

mutual

/-- The variables made in an expression. A target counts before what stands inside it. -/
def expr (v : ObjectVars) : Expr → ObjectVars
  | .literal .. | .name .. | .newArray .. => v
  | .member _ object _ => v.expr object
  | .index _ object index => (v.expr object).expr index
  | .call _ callee args => (v.expr callee).exprs args
  | .array _ items => v.exprs items
  | .unary _ _ operand => v.expr operand
  | .step _ _ _ target => (v.assignTo target).expr target
  | .binary _ _ lhs rhs => (v.expr lhs).expr rhs
  | .logical _ _ lhs rhs => (v.expr lhs).expr rhs
  | .assign _ _ target value => ((v.assignTo target).expr target).expr value
  | .ternary _ cond yes no => ((v.expr cond).expr yes).expr no
  | .cast _ _ operand => v.expr operand
  | .inRange _ value lower upper => ((v.expr value).expr lower).expr upper
  | .inObject _ value object => (v.expr value).expr object
  | .new _ _ args => v.exprs args

def exprs (v : ObjectVars) : List Expr → ObjectVars
  | [] => v
  | e :: es => (v.expr e).exprs es

end

def expr? (v : ObjectVars) (e : Option Expr) : ObjectVars := e.elim v v.expr

def initializers (v : ObjectVars) (defs : List VarDef) : ObjectVars :=
  defs.foldl (fun v d => v.expr? d.value) v

/-- The head of a `for`: its variables are in scope from the start. -/
def forInit (v : ObjectVars) : Option ForInit → ObjectVars
  | none => v
  | some (.vars decl) =>
    (decl.defs.foldl (fun v d => v.declare d.name.name) v).initializers decl.defs
  | some (.expr e) => v.expr e

mutual

def stmt (v : ObjectVars) : Stmt → ObjectVars
  | .block _ body => ((v.opened []).stmts body).closed
  | .ifThen _ cond yes => (v.expr cond).stmt yes
  | .ifElse _ cond yes no => ((v.expr cond).stmt yes).stmt no
  | .whileLoop _ cond body => (v.expr cond).stmt body
  | .forLoop _ init cond step body =>
    (((((v.opened []).forInit init).expr? cond).expr? step).stmt body).closed
  | .forEach line declared item _ iterable body =>
    let inside := (v.expr iterable).opened []
    ((if declared then inside.declare item else inside.assign item line).stmt body).closed
  | .withObject _ object body => (v.expr object).stmt body
  | .switch _ value cases => (((v.opened []).expr value).caseList cases).closed
  | .new _ _ name _ body => (((v.expr name).opened []).stmts body).closed
  | .ret _ value => v.expr? value
  | .vars decl => decl.defs.foldl (fun v d => (v.expr? d.value).declare d.name.name) v
  | .const _ name value => (v.expr value).declare name.name
  | .expr e => v.expr e
  | .breakOut _ | .continueLoop _ | .empty _ => v

def stmts (v : ObjectVars) : List Stmt → ObjectVars
  | [] => v
  | s :: ss => (v.stmt s).stmts ss

def caseList (v : ObjectVars) : List Case → ObjectVars
  | [] => v
  | c :: cs => (v.oneCase c).caseList cs

def oneCase (v : ObjectVars) : Case → ObjectVars
  | .mk _ labels body => (labels.foldl expr? v).stmts body

end

def func (v : ObjectVars) (f : Func) : ObjectVars :=
  let inside := (v.opened (f.params.map (·.name))).opened []
  (inside.stmts f.body.body).closed.closed

def item (v : ObjectVars) : Item → ObjectVars
  | .func f => v.func f
  | .stmt s => v.stmt s

end ObjectVars

def Program.objectVars (p : Program) : List (String × Nat) :=
  (p.items.foldl ObjectVars.item .initial).found.toList

end GraalScript
