import GraalScript.Builtin
import GraalScript.Generate.Basic
import GraalScript.Number.Shortest

/-! Code for expressions. -/
namespace GraalScript

namespace Constant

def isWord (x : Float) : Bool := x - x.floor == 0 && 0 ≤ x && x ≤ 0xFFFFFFFF

def literal : Constant → Literal
  | number x => if isWord x then .int x.toUInt32 else .float (Number.render x)
  | text s => .str s

theorem literal_number (x : Float) :
    isWord x = true ∧ literal (number x) = .int x.toUInt32 ∨
      isWord x = false ∧ literal (number x) = .float (Number.render x) := by
  by_cases test : isWord x
  · exact .inl ⟨test, if_pos test⟩
  · exact .inr ⟨Bool.eq_false_iff.mpr test, if_neg test⟩

end Constant

namespace BinaryOp

def opcode : BinaryOp → Opcode
  | add => .add
  | sub => .sub
  | mul => .mul
  | div => .div
  | mod => .mod
  | pow => .pow
  | concat => .join
  | eq => .eq
  | notEq => .neq
  | less => .lt
  | greater => .gt
  | lessEq => .lte
  | greaterEq => .gte

end BinaryOp

namespace UnaryOp

def opcode : UnaryOp → Opcode
  | neg => .unarySub
  | not => .not

end UnaryOp

namespace StepOp

def opcode : StepOp → Opcode
  | inc => .inc
  | dec => .dec

end StepOp

namespace CastKind

def opcode : CastKind → Opcode
  | int => .int
  | float => .convToFloat
  | string => .convToString

end CastKind

namespace LogicalOp

def jump : LogicalOp → Opcode
  | and => .ifThen
  | or => .or

def short : LogicalOp → Opcode
  | and => .typeFalse
  | or => .typeTrue

end LogicalOp

namespace Expr

def memberName? : Expr → Option String
  | member _ _ m => some m.name
  | _ => none

def command : Expr → Command
  | member _ _ m => (Command.method? m.name).getD .methodCall
  | name _ n .builtin => (Command.function? n).getD .scriptCall
  | _ => .scriptCall

def joinedClass? : Expr → List Expr → Option String
  | name _ "join" .builtin, [literal _ (.str cls)] => some cls
  | _, _ => none

end Expr

namespace Gen

def literal : Literal → Gen Unit
  | .int n => number n
  | .float text => decimal text
  | .str text => string text
  | .bool true => emit .typeTrue
  | .bool false => emit .typeFalse
  | .null => emit .typeNull

def bound (line : Nat) (name : String) : Binding → Gen Unit
  | .unresolved => throw (.unbound name line)
  | .constant value => literal value.literal
  | .localVar => localVar name
  | .builtin => (Opcode.ofRoot? name).elim (reference name) emit
  | .objectVar | .param | .func => reference name

def element (object index : Gen Unit) (type : ValueType) : Gen Unit := do
  object
  index
  unless type = .number do emit .convToFloat

def binary (type : ValueType) (op : BinaryOp) (lhs rhs : Gen Unit) (left right : ValueType) :
    Gen Unit := do
  lhs
  convert type left
  rhs
  convert type right
  emit op.opcode

def test (value : Gen Unit) (type : ValueType) : Gen Unit := do
  value
  unless (← lastOp?).any Opcode.leavesBool do convert .number type

/-- Leaves one value, which comes from the second operand only if the first does not decide. -/
def logical (op : LogicalOp) (lhs rhs : Gen Unit) : Gen Unit := do
  lhs
  let short ← jump op.jump
  rhs
  let done ← jump .setIndex
  patchHere short
  emit op.short
  patchHere done

def choose (cond yes no : Gen Unit) : Gen Unit := do
  cond
  let otherwise ← jump .ifThen
  yes
  let done ← jump .setIndex
  patchHere otherwise
  no
  patchHere done

def step (op : StepOp) (before : Bool) (target : Gen Unit) : Gen Unit := do
  target
  if before then emit op.opcode
  else
    emit .copyLastOp
    emit .convToFloat
    emit .swapLastOps
    emit op.opcode
    emit .indexDec

/-- Stores a value in a target; `element?` is the place of the target when it is an array element.
The assignment takes the target from the stack. -/
def assign (op : Option BinaryOp) (element? : Option (Gen Unit)) (target value : Gen Unit)
    (targetType valueType : ValueType) : Gen Unit := do
  element?.getD target
  match op with
  | none => value
  | some op =>
    binary op.compoundType op (if element?.isSome then target else emit .copyLastOp) value
      targetType valueType
  emit (if element?.isSome then .arrayAssign else .assign)

/-- The object of a call, and its conversion unless it has the right form already. -/
def receiver (c : Command) (object? : Option (Gen Unit)) : Gen Unit := do
  object?.getD (return)
  match c.convert with
  | none => return
  | some op =>
    let last ← lastOp?
    unless last = some op || op = .convToObject && last.any Opcode.leavesObject do emit op

def call (c : Command) (object? : Option (Gen Unit)) (function : Gen Unit)
    (args : List (Gen Unit)) :
    Gen Unit := do
  if c.style.objectFirst then receiver c object?
  if c.style.useArray then emit .typeArray
  if c.style.reverseArgs then all args
  else if args.isEmpty && c.op = .objTokenize then string Command.defaultSeparators
  else all args.reverse
  unless c.style.objectFirst do receiver c object?
  if c.op = .call then function
  emit c.op

def noteJoin (class? : Option String) : Gen Unit :=
  match class? with
  | none => return
  | some cls => modify fun d => { d with joined := d.joined.insert cls }

/-- An object of a class, named by its only argument; other lists of arguments are not looked at. -/
def newObject (cls : String) (args : List (Gen Unit)) : Gen Unit := do
  match args with
  | [name] =>
    name
    emit .inlineNew
  | _ => reference "unknown_object"
  string cls
  emit .newObject

def newArray : List UInt32 → Gen Unit
  | [] => return
  | dim :: dims => do
    number dim
    emit .arrayNew
    dims.forM fun dim => do
      number dim
      emit .arrayNewMultidim

mutual

def expr : Expr → Gen Unit
  | .literal _ value => literal value
  | .name line name binding => bound line name binding
  | .member _ object member => do
    expr object
    toObject
    memberOf member.name
  | .index _ object index => do
    element (expr object) (expr index) index.valueType
    emit .array
  | .call _ callee args => do
    noteJoin (callee.joinedClass? args)
    call callee.command (object? callee) (callee.memberName?.elim (expr callee) memberOf)
      (codesOnto [] args)
  | .array _ items => do
    emit .typeArray
    all (codesOnto [] items)
    emit .arrayEnd
  | .unary _ op operand => do
    expr operand
    emit .convToFloat
    emit op.opcode
  | .step _ op before target => step op before (expr target)
  | .binary _ op lhs rhs =>
    binary op.operandType op (expr lhs) (expr rhs) lhs.valueType rhs.valueType
  | .logical _ op lhs rhs =>
    logical op (test (expr lhs) lhs.valueType) (test (expr rhs) rhs.valueType)
  | .assign _ op target value => do
    assign op (element? target) (expr target) (expr value) target.valueType value.valueType
    expr target
  | .ternary _ cond yes no => choose (test (expr cond) cond.valueType) (expr yes) (expr no)
  | .cast _ kind operand => do
    expr operand
    emit kind.opcode
  | .inRange _ value lower upper => do
    expr value
    expr lower
    convert .number lower.valueType
    expr upper
    convert .number upper.valueType
    emit .inRange
  | .inObject _ value object => do
    expr value
    expr object
    toObject
    emit .inObj
  | .new _ cls args => newObject cls.name (codesOnto [] args)
  | .newArray _ dims => newArray dims

/-- The pieces of code for several expressions, the last one first, before those in `done`. -/
def codesOnto (done : List (Gen Unit)) : List Expr → List (Gen Unit)
  | [] => done
  | e :: es => codesOnto (expr e :: done) es

def object? : Expr → Option (Gen Unit)
  | .member _ object _ => some (expr object)
  | _ => none

def element? : Expr → Option (Gen Unit)
  | .index _ object index => some (element (expr object) (expr index) index.valueType)
  | _ => none

end

def condition (e : Expr) : Gen Unit := test (expr e) e.valueType

def effect : Expr → Gen Unit
  | .assign _ op target value =>
    assign op (element? target) (expr target) (expr value) target.valueType value.valueType
  | .step _ op _ target => do
    expr target
    emit op.opcode
    emit .indexDec
  | .call line callee args => do
    expr (.call line callee args)
    if callee.command.style.returnsValue then emit .indexDec
  | e => do
    expr e
    emit .indexDec

end Gen

end GraalScript
