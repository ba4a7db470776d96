import GraalScript.Number.Shortest
import GraalScript.Scope.Basic

/-! Values of constant expressions. Truth values are one and zero, and a number that is not finite
is no constant. -/
namespace GraalScript.Constant

def render : Constant → String
  | number x => Number.render x
  | text s => s

def ofBool (b : Bool) : Constant := .number (if b then 1 else 0)

/-- Numbers compare as numbers, texts as texts, and a number differs from every text. -/
def same : Constant → Constant → Bool
  | number x, number y => x == y
  | text s, text t => s == t
  | _, _ => false

def number? : Constant → Option Float
  | number x => some x
  | text _ => none

def finite? (x : Float) : Option Constant := if x.isFinite then some (.number x) else none

def ofLiteral? : Literal → Option Constant
  | .int n => some (.number (.ofNat n.toNat))
  | .float digits => finite? (Number.read digits)
  | .str s => some (.text s)
  | .bool b => some (ofBool b)
  | .null => none

def unary? (op : UnaryOp) (x : Float) : Option Constant :=
  match op with
  | .neg => finite? (-x)
  | .not => some (ofBool (x == 0))

def arithmetic? (op : BinaryOp) (x y : Float) : Option Constant :=
  match op with
  | .add => finite? (x + y)
  | .sub => finite? (x - y)
  | .mul => finite? (x * y)
  | .div => if y == 0 then none else finite? (x / y)
  | .mod => if y == 0 then none else finite? (Number.remainder x y)
  | .pow => finite? (x.pow y)
  | .less => some (ofBool (x < y))
  | .greater => some (ofBool (x > y))
  | .lessEq => some (ofBool (x ≤ y))
  | .greaterEq => some (ofBool (x ≥ y))
  | .concat | .eq | .notEq => none

section fold

-- How the symbol of a name is found, and the fault of everything that has no value.
variable (symbol? : String → Option Symbol) (notConstant : ResolveError)

def require {α : Type} : Option α → Except ResolveError α
  | some a => .ok a
  | none => .error notConstant

def fold : Expr → Except ResolveError Constant
  | .literal _ value => require notConstant (ofLiteral? value)
  | .name line name _ =>
    match symbol? name with
    | none => .error (.unresolved name line)
    | some symbol =>
      match symbol.kind with
      | .constant value => .ok value
      | _ => .error notConstant
  | .unary _ op operand => do
    let x ← require notConstant (← fold operand).number?
    require notConstant (unary? op x)
  | .binary _ op lhs rhs => do
    let a ← fold lhs
    match op with
    | .concat => return .text (a.render ++ (← fold rhs).render)
    | .eq => return ofBool (a.same (← fold rhs))
    | .notEq => return ofBool (!a.same (← fold rhs))
    | _ =>
      let x ← require notConstant a.number?
      let y ← require notConstant (← fold rhs).number?
      require notConstant (arithmetic? op x y)
  | .logical _ op lhs rhs => do
    let x ← require notConstant (← fold lhs).number?
    match op, x != 0 with
    | .and, false => return ofBool false
    | .or, true => return ofBool true
    | _, _ =>
      let y ← require notConstant (← fold rhs).number?
      return ofBool (y != 0)
  | .ternary _ cond yes no => do
    let x ← require notConstant (← fold cond).number?
    if x != 0 then fold yes else fold no
  | _ => .error notConstant

end fold

end GraalScript.Constant
