import GraalScript.Code.BigEndian
import GraalScript.Code.Opcode
import GraalScript.Text.Utf8

/-! Instructions and the bytes that write them: a byte for the operation, then its operand, if it
has one, behind a marker that tells what the operand is and how wide. -/
namespace GraalScript

inductive Word where
  | w8 (n : UInt8)
  | w16 (n : UInt16)
  | w32 (n : UInt32)
  deriving DecidableEq, Repr

namespace Word

/-- A number in the narrowest width that holds it. -/
def narrow (n : UInt32) : Word :=
  if n.toNat < 0x100 then .w8 n.toUInt8
  else if n.toNat < 0x10000 then .w16 n.toUInt16
  else .w32 n

def toNat : Word → Nat
  | w8 n => n.toNat
  | w16 n => n.toNat
  | w32 n => n.toNat

/-- The number behind its marker, which is `base` plus one or two for the wider forms. -/
def encode (base : UInt8) : Word → List UInt8
  | w8 n => [base, n]
  | w16 n => (base + 1) :: BigEndian.write16 n
  | w32 n => (base + 2) :: BigEndian.write32 n

theorem toNat_narrow (n : UInt32) : (narrow n).toNat = n.toNat := by
  unfold narrow
  split
  · simp only [toNat, UInt32.toNat_toUInt8]
    omega
  · split
    · simp only [toNat, UInt32.toNat_toUInt16]
      omega
    · rfl

def width : Word → Nat
  | w8 _ => 1
  | w16 _ => 2
  | w32 _ => 4

theorem length_encode (base : UInt8) (w : Word) : (w.encode base).length = 1 + w.width := by
  cases w <;> rfl

end Word

inductive Operand where
  /-- The number of a text in the pool. -/
  | pool (id : Word)
  | int (value : Word)
  /-- A number as the text that writes it. -/
  | float (text : String)
  deriving DecidableEq, Repr

namespace Operand

def poolMarker : UInt8 := 0xF0

def intMarker : UInt8 := 0xF3

def floatMarker : UInt8 := 0xF6

def encode : Operand → List UInt8
  | pool id => id.encode poolMarker
  | int value => value.encode intMarker
  | float text => floatMarker :: Text.bytes text ++ [0]

end Operand

structure Instr where
  op : Opcode
  operand : Option Operand
  deriving DecidableEq, Repr

namespace Instr

def encode (i : Instr) : List UInt8 := i.op.code :: i.operand.elim [] Operand.encode

def encodeAll (code : List Instr) : List UInt8 := code.flatMap encode

@[simp] theorem encodeAll_nil : encodeAll [] = [] := rfl

@[simp] theorem encodeAll_cons (i : Instr) (code : List Instr) :
    encodeAll (i :: code) = i.encode ++ encodeAll code := rfl

@[simp] theorem encodeAll_append (a b : List Instr) :
    encodeAll (a ++ b) = encodeAll a ++ encodeAll b := List.flatMap_append

end Instr

end GraalScript
