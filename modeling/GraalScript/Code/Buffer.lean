import GraalScript.Code.Image
import GraalScript.Code.Instr
import GraalScript.Code.Pool

/-! Code under construction as bytes, where operations and operands are written one at a time. A
label is the position of the two bytes that hold the target of a jump. -/
namespace GraalScript

structure Buffer where
  code : Array UInt8
  /-- Number of operations written so far. -/
  ops : Nat
  lastOp? : Option Opcode
  pool : Pool
  functions : FunctionTable

namespace Buffer

def empty : Buffer := ⟨#[], 0, none, .empty, .empty⟩

def emit (b : Buffer) (op : Opcode) : Buffer :=
  { b with code := b.code.push op.code, ops := b.ops + 1, lastOp? := some op }

def emitOperand (b : Buffer) (x : Operand) : Buffer :=
  { b with code := x.encode.foldl Array.push b.code }

def emitInt (b : Buffer) (n : UInt32) : Buffer := b.emitOperand (.int (.narrow n))

def emitFloat (b : Buffer) (text : String) : Buffer := b.emitOperand (.float text)

def intern (b : Buffer) (text : String) : Nat × Buffer :=
  let (id, pool) := b.pool.intern text
  (id, { b with pool })

def emitText (b : Buffer) (text : String) : Buffer :=
  let (id, b) := b.intern text
  b.emitOperand (.pool (.narrow (.ofNat id)))

def emitJump (b : Buffer) (op : Opcode) : Nat × Buffer :=
  (b.code.size + 2, (b.emit op).emitOperand (.int (.w16 0)))

def patch (b : Buffer) (label target : Nat) : Except CodeError Buffer :=
  if 0x10000 ≤ target then .error (.jumpOutOfRange target)
  else if label + 2 ≤ b.code.size then
    .ok { b with
      code := (b.code.setIfInBounds label (.ofNat (target / 0x100))).setIfInBounds (label + 1)
        (.ofNat target) }
  else .error (.danglingLabel label)

def patchHere (b : Buffer) (label : Nat) : Except CodeError Buffer := b.patch label b.ops

def addFunction (b : Buffer) (name : String) (opIndex : Nat) : Except CodeError Buffer :=
  return { b with functions := ← b.functions.add name opIndex }

def image (b : Buffer) (prologue : List UInt8) : Except CodeError (List UInt8) :=
  Image.write prologue b.functions.toList b.pool.toList b.code.toList

end Buffer

end GraalScript
