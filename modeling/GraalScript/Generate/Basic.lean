import GraalScript.Code.Assembly
import GraalScript.Tree.ValueType
import Std.Data.TreeSet

/-! The state of code generation and its smallest steps. -/
namespace GraalScript

/-- A construct that `break` leaves, with the jumps whose targets are known at its end. -/
structure Frame where
  /-- A `switch` takes breaks and hands continues to the loop around it. -/
  isSwitch : Bool
  breaks : List Label
  continues : List Label
  deriving DecidableEq, Repr

namespace Frame

def loop : Frame := ⟨false, [], []⟩

def switch : Frame := ⟨true, [], []⟩

end Frame

structure Draft where
  code : Assembly
  /-- The constructs around the current statement, from the inside out. -/
  frames : List Frame
  /-- Classes joined by a literal name. -/
  joined : Std.TreeSet String

namespace Draft

def empty : Draft := ⟨.empty, [], ∅⟩

end Draft

abbrev Gen := StateT Draft (Except CodeError)

namespace Gen

def onCode (f : Assembly → Assembly) : Gen Unit := modify fun d => { d with code := f d.code }

def emit (op : Opcode) : Gen Unit := onCode (·.emit op)

def number (n : UInt32) : Gen Unit := onCode (·.emitInt .typeNumber n)

def decimal (text : String) : Gen Unit := onCode (·.emitFloat .typeNumber text)

def string (text : String) : Gen Unit := onCode (·.emitText .typeString text)

def reference (name : String) : Gen Unit := onCode (·.emitText .typeVar name)

def memberOf (name : String) : Gen Unit := do
  reference name
  emit .memberAccess

/-- Locals live in the object `temp`. -/
def localVar (name : String) : Gen Unit := do
  emit .temp
  memberOf name

def here : Gen Nat := return (← get).code.size

def lastOp? : Gen (Option Opcode) := return (← get).code.lastOp?

def jump (op : Opcode) : Gen Label :=
  modifyGet fun d =>
    let (label, code) := d.code.emitJump op
    (label, { d with code })

def patch (label : Label) (target : Nat) : Gen Unit := fun d =>
  return ((), { d with code := ← d.code.patch label target })

def patchHere (label : Label) : Gen Unit := do patch label (← here)

def jumpTo (op : Opcode) (target : Nat) : Gen Unit := do patch (← jump op) target

def declare (name : String) : Gen Unit := fun d =>
  return ((), { d with code := ← d.code.addFunction name })

def all : List (Gen Unit) → Gen Unit
  | [] => return
  | g :: gs => do
    g
    all gs

def enter (frame : Frame) : Gen Unit := modify fun d => { d with frames := frame :: d.frames }

def leave : Gen Frame :=
  modifyGet fun d => (d.frames.headD .loop, { d with frames := d.frames.tail })

/-- Converts a value of a known kind. A boolean serves as a number. -/
def convert (want : ValueType) (given : ValueType) : Gen Unit :=
  match want, given with
  | .number, .number | .number, .bool | .string, .string => return
  | .number, _ => emit .convToFloat
  | .string, _ => emit .convToString
  | _, _ => return

/-- Converts to an object, unless an object was pushed just now. -/
def toObject : Gen Unit := do
  unless (← lastOp?).any Opcode.leavesObject do emit .convToObject

end Gen

end GraalScript
