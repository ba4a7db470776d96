/-! Syntax trees of scripts. Every node keeps the line of the token it stems from, and every name
keeps what it is bound to. -/
namespace GraalScript

inductive Constant where
  | number (value : Float)
  | text (value : String)
  deriving DecidableEq

/-- What a name refers to. -/
inductive Binding where
  | unresolved
  /-- A variable of the object that runs the script, made by an assignment. -/
  | objectVar
  /-- Declared with `var`; lives in the object `temp`. -/
  | localVar
  | param
  | func
  | constant (value : Constant)
  /-- Known to the runtime or to the environment of the script's type. -/
  | builtin
  deriving DecidableEq

structure Ident where
  name : String
  line : Nat
  deriving DecidableEq, Repr

inductive Literal where
  | int (value : UInt32)
  /-- A number kept as the text that writes it. -/
  | float (text : String)
  | str (value : String)
  | bool (value : Bool)
  | null
  deriving DecidableEq, Repr

inductive CastKind where
  | int | float | string
  deriving DecidableEq, Repr

namespace CastKind

def ofName? (name : String) : Option CastKind :=
  if name = "int" then some int
  else if name = "float" then some float
  else if name = "string" then some string
  else none

end CastKind

inductive UnaryOp where
  | neg | not
  deriving DecidableEq, Repr

inductive StepOp where
  | inc | dec
  deriving DecidableEq, Repr

inductive BinaryOp where
  | add | sub | mul | div | mod | pow | concat
  | eq | notEq | less | greater | lessEq | greaterEq
  deriving DecidableEq, Repr

inductive LogicalOp where
  | and | or
  deriving DecidableEq, Repr

inductive Expr where
  | literal (line : Nat) (value : Literal)
  | name (line : Nat) (name : String) (binding : Binding)
  | member (line : Nat) (object : Expr) (member : Ident)
  | index (line : Nat) (object index : Expr)
  | call (line : Nat) (callee : Expr) (args : List Expr)
  | array (line : Nat) (items : List Expr)
  | unary (line : Nat) (op : UnaryOp) (operand : Expr)
  /-- `++x` when `before`, otherwise `x++`. -/
  | step (line : Nat) (op : StepOp) (before : Bool) (target : Expr)
  | binary (line : Nat) (op : BinaryOp) (lhs rhs : Expr)
  | logical (line : Nat) (op : LogicalOp) (lhs rhs : Expr)
  /-- Plain without an operator, otherwise compound. -/
  | assign (line : Nat) (op : Option BinaryOp) (target value : Expr)
  | ternary (line : Nat) (cond yes no : Expr)
  | cast (line : Nat) (kind : CastKind) (operand : Expr)
  /-- `value in |lower, upper|`. -/
  | inRange (line : Nat) (value lower upper : Expr)
  /-- `value in object`. -/
  | inObject (line : Nat) (value object : Expr)
  /-- `new Class(args)`. -/
  | new (line : Nat) (cls : Ident) (args : List Expr)
  /-- `new[3][4]`. -/
  | newArray (line : Nat) (dims : List UInt32)

namespace Expr

def line : Expr → Nat
  | literal line _ | name line _ _ | member line _ _ | index line _ _ | call line _ _ | array line _
  | unary line _ _ | step line _ _ _ | binary line _ _ _ | logical line _ _ _ | assign line _ _ _
  | ternary line _ _ _ | cast line _ _ | inRange line _ _ _ | inObject line _ _ | new line _ _
  | newArray line _ => line

def isAssignable : Expr → Bool
  | name .. | member .. | index .. => true
  | _ => false

end Expr

structure VarDef where
  name : Ident
  value : Option Expr

structure VarDecl where
  line : Nat
  defs : List VarDef

inductive ForInit where
  | vars (decl : VarDecl)
  | expr (value : Expr)

mutual

inductive Stmt where
  | block (line : Nat) (body : List Stmt)
  | ifThen (line : Nat) (cond : Expr) (yes : Stmt)
  | ifElse (line : Nat) (cond : Expr) (yes no : Stmt)
  | whileLoop (line : Nat) (cond : Expr) (body : Stmt)
  | forLoop (line : Nat) (init : Option ForInit) (cond step : Option Expr) (body : Stmt)
  /-- `for (var? item : iterable) body`. -/
  | forEach (line : Nat) (declared : Bool) (item : String) (binding : Binding) (iterable : Expr)
      (body : Stmt)
  | withObject (line : Nat) (object : Expr) (body : Stmt)
  | switch (line : Nat) (value : Expr) (cases : List Case)
  /-- `new Class(name) { … }`, the body running on the new object. -/
  | new (line : Nat) (cls : Ident) (name : Expr) (bodyLine : Nat) (body : List Stmt)
  | ret (line : Nat) (value : Option Expr)
  | breakOut (line : Nat)
  | continueLoop (line : Nat)
  | vars (decl : VarDecl)
  | const (line : Nat) (name : Ident) (value : Expr)
  | expr (value : Expr)
  | empty (line : Nat)

/-- Labels that share one body; the label without an expression is the default one. -/
inductive Case where
  | mk (line : Nat) (labels : List (Option Expr)) (body : List Stmt)

end

namespace Case

def line : Case → Nat
  | mk line _ _ => line

def labels : Case → List (Option Expr)
  | mk _ labels _ => labels

def body : Case → List Stmt
  | mk _ _ body => body

def isDefault (c : Case) : Bool := c.labels.any Option.isNone

end Case

namespace Stmt

def line : Stmt → Nat
  | block line _ | ifThen line _ _ | ifElse line _ _ _ | whileLoop line _ _ | forLoop line _ _ _ _
  | forEach line _ _ _ _ _ | withObject line _ _ | switch line _ _ | new line _ _ _ _ | ret line _
  | breakOut line | continueLoop line | const line _ _ | empty line => line
  | vars decl => decl.line
  | expr e => e.line

end Stmt

structure Block where
  line : Nat
  body : List Stmt

structure Func where
  line : Nat
  isPublic : Bool
  /-- The object of `function object.name()`. -/
  object : Option Ident
  name : Ident
  params : List Ident
  body : Block

namespace Func

def isMethod (f : Func) : Bool := f.object.isSome

def tableName (f : Func) : String :=
  (if f.isPublic then "public." else "") ++ f.object.elim "" (·.name ++ ".") ++ f.name.name

end Func

inductive Item where
  | func (f : Func)
  | stmt (s : Stmt)

structure Program where
  items : List Item
  /-- Number of items before the mark where the client side begins. -/
  clientside : Option Nat

namespace Program

def funcs (p : Program) : List Func :=
  p.items.filterMap fun
    | .func f => some f
    | .stmt _ => none

end Program

end GraalScript
