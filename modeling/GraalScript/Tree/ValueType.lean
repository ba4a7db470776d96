import GraalScript.Tree.Basic

/-! What kind of value an expression leaves, as far as its form tells. -/
namespace GraalScript

inductive ValueType where
  | number | string | bool
  /-- Known only when the script runs. -/
  | any
  deriving DecidableEq, Repr

namespace ValueType

def ofLiteral : Literal → ValueType
  | .int _ | .float _ => number
  | .str _ => string
  | .bool _ => bool
  | .null => any

def ofConstant : Constant → ValueType
  | .number _ => number
  | .text _ => string

def ofBinding : Binding → ValueType
  | .constant value => ofConstant value
  | _ => any

def ofCast : CastKind → ValueType
  | .int | .float => number
  | .string => string

end ValueType

namespace BinaryOp

def valueType : BinaryOp → ValueType
  | concat => .string
  | eq | notEq | less | greater | lessEq | greaterEq => .bool
  | add | sub | mul | div | mod | pow => .number

/-- What the operands are converted to; values of any kind can be equal. -/
def operandType : BinaryOp → ValueType
  | concat => .string
  | eq | notEq => .any
  | _ => .number

/-- What the operands are converted to when the operation is part of an assignment. -/
def compoundType : BinaryOp → ValueType
  | concat => .string
  | _ => .number

end BinaryOp

def Expr.valueType : Expr → ValueType
  | literal _ value => .ofLiteral value
  | name _ _ binding => .ofBinding binding
  | binary _ op _ _ => op.valueType
  | step .. => .number
  | unary _ .neg _ => .number
  | unary _ .not _ | logical .. | inRange .. | inObject .. => .bool
  | cast _ kind _ => .ofCast kind
  | member .. | index .. | call .. | array .. | assign .. | ternary .. | new .. | newArray .. =>
    .any

end GraalScript
