import GraalScript.Code.BigEndian
import GraalScript.Text.Utf8

/-! The binary image of a script: four segments behind an optional prologue, and a line feed. One of
them lists the functions, each with the number of its first operation. -/
namespace GraalScript

/-- Why code cannot be written. None of these is the fault of a script that has been bound. -/
inductive CodeError where
  /-- A jump target that does not fit into its operand. -/
  | jumpOutOfRange (target : Nat)
  /-- A label that points outside the code. -/
  | danglingLabel (position : Nat)
  | duplicateFunction (name : String)
  /-- A segment longer than its length field can say. -/
  | imageTooLarge
  | noLoop (line : Nat)
  /-- A name without a binding. -/
  | unbound (name : String) (line : Nat)
  deriving DecidableEq, Repr

def CodeError.message : CodeError → String
  | jumpOutOfRange target => s!"jump target {target} out of range"
  | danglingLabel position => s!"jump label at byte {position} outside of bytecode"
  | duplicateFunction name => s!"function '{name}' emitted twice"
  | imageTooLarge => "bytecode image too large"
  | noLoop line => s!"loop control outside of loop at line {line}"
  | unbound name line => s!"name '{name}' at line {line} was never resolved"

structure FunctionEntry where
  name : String
  opIndex : UInt32
  deriving DecidableEq, Repr

structure FunctionTable where
  entries : Array FunctionEntry
  deriving DecidableEq, Repr

namespace FunctionTable

def empty : FunctionTable := ⟨#[]⟩

/-- Adds a function; no name is listed twice. -/
def add (t : FunctionTable) (name : String) (opIndex : Nat) : Except CodeError FunctionTable :=
  if t.entries.any (·.name == name) then .error (.duplicateFunction name)
  else if 0x100000000 ≤ opIndex then .error .imageTooLarge
  else .ok ⟨t.entries.push ⟨name, .ofNat opIndex⟩⟩

def toList (t : FunctionTable) : List FunctionEntry := t.entries.toList

end FunctionTable

inductive Segment where
  | eventFlags | functionNames | strings | bytecode
  deriving DecidableEq, Repr

namespace Segment

def id : Segment → UInt32
  | eventFlags => 1
  | functionNames => 2
  | strings => 3
  | bytecode => 4

def all : List Segment := [eventFlags, functionNames, strings, bytecode]

def ofId? (n : UInt32) : Option Segment := all.find? (·.id == n)

def write (s : Segment) (payload : List UInt8) : Except CodeError (List UInt8) :=
  if payload.length < 0x100000000 then
    .ok (BigEndian.write32 s.id ++ BigEndian.write32 (.ofNat payload.length) ++ payload)
  else .error .imageTooLarge

end Segment

structure Image where
  /-- The section of the prologue, without its length and its key. -/
  header : Option (List UInt8)
  functions : List FunctionEntry
  strings : List String
  code : List UInt8
  deriving DecidableEq, Repr

namespace Image

def empty : Image := ⟨none, [], [], []⟩

def writeText (s : String) : List UInt8 := Text.bytes s ++ [0]

def writeFunction (f : FunctionEntry) : List UInt8 :=
  BigEndian.write32 f.opIndex ++ writeText f.name

def write (prologue : List UInt8) (functions : List FunctionEntry) (pool : List String)
    (code : List UInt8) : Except CodeError (List UInt8) := do
  let flags ← Segment.eventFlags.write (BigEndian.write32 0)
  let names ← Segment.functionNames.write (functions.flatMap writeFunction)
  let strings ← Segment.strings.write (pool.flatMap writeText)
  let bytecode ← Segment.bytecode.write code
  return prologue ++ flags ++ names ++ strings ++ bytecode ++ [0x0A]

end Image

end GraalScript
