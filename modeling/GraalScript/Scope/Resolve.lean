import GraalScript.Builtin
import GraalScript.Header
import GraalScript.Scope.Fold
import GraalScript.Scope.ObjectVars

/-! Binding every name of a program to what it refers to. Functions and object variables are
declared first, so they are seen from everywhere; all other names are declared where they stand.
Names that no scope has may come from the script's environment or from the runtime. -/
namespace GraalScript

inductive Use where
  | read | call | assign
  deriving DecidableEq, Repr

abbrev Resolve := StateT Scopes (Except ResolveError)

namespace Resolve

def declare (name : String) (kind : SymbolKind) (line : Nat) : Resolve Unit := do
  set (← (← get).declare name kind line)

def inScope {α : Type} (kind : ScopeKind) (inside : Resolve α) : Resolve α := do
  modify (·.enter kind)
  let a ← inside
  modify Scopes.leave
  return a

section environment

variable (env : Environment)

def isBuiltinValue (name : String) : Bool :=
  env.hasVariable name || env.hasFunction name || Command.isCoreName name
    || Command.isCoreFunction name

def isBuiltinFunction (name : String) : Bool :=
  env.hasFunction name || env.hasVariable name || Command.isCoreFunction name

/-- What a name refers to. A constant cannot be assigned, and assigning a name that nothing has
makes an object variable. -/
def bindName (use : Use) (name : String) (line : Nat) : Resolve Binding := do
  match use, (← get).lookup? name with
  | .assign, some symbol =>
    match symbol.kind with
    | .constant _ => throw (.duplicate name line)
    | kind => return kind.binding
  | .assign, none =>
    if isBuiltinValue env name then return .builtin
    modify (·.declareObjectVar name line)
    return .objectVar
  | _, some symbol => return symbol.kind.binding
  | .read, none =>
    if isBuiltinValue env name then return .builtin else throw (.unresolved name line)
  | .call, none =>
    if isBuiltinFunction env name then return .builtin else throw (.unresolved name line)

mutual

/-- Binds the names of an expression; `use` is how the expression itself is used. Names behind a dot
and names of classes are left to the runtime. -/
def expr (use : Use) : Expr → Resolve Expr
  | .literal line value => return .literal line value
  | .name line name _ => return .name line name (← bindName env use name line)
  | .member line object member => return .member line (← expr .read object) member
  | .index line object index => do
    let object ← expr .read object
    return .index line object (← expr .read index)
  | .call line callee args => do
    let callee ← expr .call callee
    return .call line callee (← exprs [] args)
  | .array line items => return .array line (← exprs [] items)
  | .unary line op operand => return .unary line op (← expr .read operand)
  | .step line op before target => return .step line op before (← expr .assign target)
  | .binary line op lhs rhs => do
    let lhs ← expr .read lhs
    return .binary line op lhs (← expr .read rhs)
  | .logical line op lhs rhs => do
    let lhs ← expr .read lhs
    return .logical line op lhs (← expr .read rhs)
  | .assign line op target value => do
    let value ← expr .read value
    return .assign line op (← expr .assign target) value
  | .ternary line cond yes no => do
    let cond ← expr .read cond
    let yes ← expr .read yes
    return .ternary line cond yes (← expr .read no)
  | .cast line kind operand => return .cast line kind (← expr .read operand)
  | .inRange line value lower upper => do
    let value ← expr .read value
    let lower ← expr .read lower
    return .inRange line value lower (← expr .read upper)
  | .inObject line value object => do
    let value ← expr .read value
    return .inObject line value (← expr .read object)
  | .new line cls args => return .new line cls (← exprs [] args)
  | .newArray line dims => return .newArray line dims

def exprs (done : List Expr) : List Expr → Resolve (List Expr)
  | [] => return done.reverse
  | e :: es => do exprs ((← expr .read e) :: done) es

end

def readExpr? (e : Option Expr) : Resolve (Option Expr) :=
  match e with
  | none => return none
  | some e => return some (← expr env .read e)

def varDef (d : VarDef) : Resolve VarDef := do
  let value ← readExpr? env d.value
  declare d.name.name .localVar d.name.line
  return ⟨d.name, value⟩

def varDecl (decl : VarDecl) : Resolve VarDecl :=
  return ⟨decl.line, ← decl.defs.mapM (varDef env)⟩

def forInit : Option ForInit → Resolve (Option ForInit)
  | none => return none
  | some (.vars decl) => return some (.vars (← varDecl env decl))
  | some (.expr e) => return some (.expr (← expr env .read e))

def constDef (line : Nat) (name : Ident) (value : Expr) : Resolve Unit := do
  if ((← get).local? name.name).isSome then throw (.duplicate name.name line)
  let folded ← Constant.fold (← get).lookup? (.notConstant name.name line) value
  declare name.name (.constant folded) line

def loopItem (declared : Bool) (item : String) (line : Nat) : Resolve Binding := do
  if declared then
    declare item .localVar line
    return .localVar
  else bindName env .assign item line

mutual

def stmt : Stmt → Resolve Stmt
  | .block line body => return .block line (← inScope .block (stmts [] body))
  | .ifThen line cond yes => do
    let cond ← expr env .read cond
    return .ifThen line cond (← stmt yes)
  | .ifElse line cond yes no => do
    let cond ← expr env .read cond
    let yes ← stmt yes
    return .ifElse line cond yes (← stmt no)
  | .whileLoop line cond body => do
    let cond ← expr env .read cond
    return .whileLoop line cond (← stmt body)
  | .forLoop line init cond step body => inScope .block do
    let init ← forInit env init
    let cond ← readExpr? env cond
    let step ← readExpr? env step
    return .forLoop line init cond step (← stmt body)
  | .forEach line declared item _ iterable body => do
    let iterable ← expr env .read iterable
    inScope .block do
      let binding ← loopItem env declared item line
      return .forEach line declared item binding iterable (← stmt body)
  | .withObject line object body => do
    let object ← expr env .read object
    return .withObject line object (← stmt body)
  | .switch line value cases => do
    let value ← expr env .read value
    return .switch line value (← inScope .block (caseList [] cases))
  | .new line cls name bodyLine body => do
    let name ← expr env .read name
    return .new line cls name bodyLine (← inScope .block (stmts [] body))
  | .ret line value => return .ret line (← readExpr? env value)
  | .vars decl => return .vars (← varDecl env decl)
  | .const line name value => do
    constDef line name value
    return .const line name value
  | .expr e => return .expr (← expr env .read e)
  | .breakOut line => return .breakOut line
  | .continueLoop line => return .continueLoop line
  | .empty line => return .empty line

def stmts (done : List Stmt) : List Stmt → Resolve (List Stmt)
  | [] => return done.reverse
  | s :: ss => do stmts ((← stmt s) :: done) ss

def caseList (done : List Case) : List Case → Resolve (List Case)
  | [] => return done.reverse
  | c :: cs => do caseList ((← oneCase c) :: done) cs

def oneCase : Case → Resolve Case
  | .mk line labels body => do
    let labels ← labels.mapM (readExpr? env)
    return .mk line labels (← stmts [] body)

end

def func (f : Func) : Resolve Func := inScope .function do
  f.params.forM fun p => declare p.name .param p.line
  let body ← stmts env [] f.body.body
  return { f with body := ⟨f.body.line, body⟩ }

def item : Item → Resolve Item
  | .func f => return .func (← func env f)
  | .stmt s => return .stmt (← stmt env s)

/-- Declares the functions of a program. No two may have one name in the function table, and methods
are not seen by their bare name. -/
def declareFuncs (seen : List String) : List Func → Resolve Unit
  | [] => return
  | f :: fs => do
    if seen.contains f.tableName then throw (.duplicate f.name.name f.name.line)
    if !f.isMethod then declare f.name.name .func f.name.line
    declareFuncs (f.tableName :: seen) fs

def declareObjectVar (v : String × Nat) : Resolve Unit := do
  if ((← get).local? v.1).isNone && !isBuiltinValue env v.1 then
    modify (·.declareObjectVar v.1 v.2)

def program (p : Program) : Resolve Program := do
  declareFuncs [] p.funcs
  p.objectVars.forM (declareObjectVar env)
  return { p with items := ← p.items.mapM (item env) }

end environment

end Resolve

def Program.resolve (p : Program) (env : Environment) :
    Except ResolveError (Program × SymbolTable) := do
  let (bound, scopes) ← (Resolve.program env p).run .initial
  return (bound, scopes.table)

end GraalScript
