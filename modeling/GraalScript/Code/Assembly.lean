import GraalScript.Code.Image
import GraalScript.Code.Instr
import GraalScript.Code.Pool

/-! Code under construction, instruction by instruction, with its pool and its function table. A
jump is written before its target is known; its label is the number of the instruction. -/
namespace GraalScript

/-- The number of a jump instruction. -/
abbrev Label := Nat

structure Assembly where
  instrs : Array Instr
  pool : Pool
  functions : FunctionTable
  /-- The jumps that have no target yet, the latest one first. -/
  waiting : List Label

namespace Assembly

def empty : Assembly := ⟨#[], .empty, .empty, []⟩

def size (a : Assembly) : Nat := a.instrs.size

def lastOp? (a : Assembly) : Option Opcode := a.instrs.back?.map (·.op)

def push (a : Assembly) (i : Instr) : Assembly := { a with instrs := a.instrs.push i }

def emit (a : Assembly) (op : Opcode) : Assembly := a.push ⟨op, none⟩

def emitInt (a : Assembly) (op : Opcode) (n : UInt32) : Assembly :=
  a.push ⟨op, some (.int (.narrow n))⟩

def emitFloat (a : Assembly) (op : Opcode) (text : String) : Assembly :=
  a.push ⟨op, some (.float text)⟩

def emitText (a : Assembly) (op : Opcode) (text : String) : Assembly :=
  let (id, pool) := a.pool.intern text
  { a with pool, instrs := a.instrs.push ⟨op, some (.pool (.narrow (.ofNat id)))⟩ }

/-- A jump whose target is not known yet, and its label. -/
def emitJump (a : Assembly) (op : Opcode) : Label × Assembly :=
  (a.size, { a.push ⟨op, some (.int (.w16 0))⟩ with waiting := a.size :: a.waiting })

/-- Gives a jump its target, which no other one replaces. -/
def patch (a : Assembly) (label : Label) (target : Nat) : Except CodeError Assembly :=
  if 0x10000 ≤ target then .error (.jumpOutOfRange target)
  else if label ∈ a.waiting then
    .ok { a with
      instrs := a.instrs.modify label fun i => ⟨i.op, some (.int (.w16 (.ofNat target)))⟩
      waiting := a.waiting.erase label }
  else .error (.danglingLabel label)

def addFunction (a : Assembly) (name : String) : Except CodeError Assembly :=
  return { a with functions := ← a.functions.add name a.size }

def code (a : Assembly) : List UInt8 := Instr.encodeAll a.instrs.toList

def image (a : Assembly) (prologue : List UInt8) : Except CodeError (List UInt8) :=
  Image.write prologue a.functions.toList a.pool.toList a.code

@[simp] theorem size_push (a : Assembly) (i : Instr) : (a.push i).size = a.size + 1 := by
  simp [push, size]

@[simp] theorem size_emit (a : Assembly) (op : Opcode) : (a.emit op).size = a.size + 1 := by
  simp [emit]

@[simp] theorem size_emitInt (a : Assembly) (op : Opcode) (n : UInt32) :
    (a.emitInt op n).size = a.size + 1 := by
  simp [emitInt]

@[simp] theorem size_emitFloat (a : Assembly) (op : Opcode) (text : String) :
    (a.emitFloat op text).size = a.size + 1 := by
  simp [emitFloat]

@[simp] theorem size_emitText (a : Assembly) (op : Opcode) (text : String) :
    (a.emitText op text).size = a.size + 1 := by
  simp [emitText, size]

@[simp] theorem size_emitJump (a : Assembly) (op : Opcode) :
    (a.emitJump op).2.size = a.size + 1 := by
  simp [emitJump, push, size]

@[simp] theorem code_push (a : Assembly) (i : Instr) : (a.push i).code = a.code ++ i.encode := by
  simp [push, code]

end Assembly

end GraalScript
