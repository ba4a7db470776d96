import GraalScript.Code.Image
import GraalScript.Code.Instr
import GraalScript.Code.Printable

/-! Reading images and instructions back. Positions in errors count from the start of the image, or
from the start of the code for instructions. -/
namespace GraalScript

inductive DecodeError where
  | truncated (offset : Nat)
  | unknownSegment (id : UInt32)
  | unknownOpcode (byte : UInt8) (offset : Nat)
  | invalidText (offset : Nat)
  deriving DecidableEq, Repr

def DecodeError.message : DecodeError → String
  | truncated offset => s!"image truncated at byte {offset}"
  | unknownSegment id => s!"unknown segment {id}"
  | unknownOpcode byte offset => s!"unknown opcode {byte} at byte {offset}"
  | invalidText offset => s!"invalid text at byte {offset}"

/-- The text before the first zero byte, the position behind that byte, and the bytes from there
on. -/
def readText (offset : Nat) (bytes : List UInt8) : Except DecodeError (String × Nat × List UInt8) :=
  match bytes.dropWhile (· != 0) with
  | [] => .error (.truncated offset)
  | _ :: rest =>
    let written := bytes.takeWhile (· != 0)
    match Text.ofBytes? written with
    | none => .error (.invalidText offset)
    | some text => .ok (text, offset + written.length + 1, rest)

theorem readText_length_lt {offset next : Nat} {bytes rest : List UInt8} {text : String}
    (h : readText offset bytes = .ok (text, next, rest)) : rest.length < bytes.length := by
  have shorter := (List.dropWhile_suffix (l := bytes) (· != 0)).length_le
  unfold readText at h
  split at h
  · cases h
  next tail eq =>
    dsimp only at h
    split at h
    · cases h
    · cases h
      rw [eq, List.length_cons] at shorter
      omega

namespace Word

def read? (width : UInt8) (bytes : List UInt8) : Option (Word × List UInt8) :=
  match width, bytes with
  | 0, b :: rest => some (.w8 b, rest)
  | 1, a :: b :: rest => (BigEndian.read16? [a, b]).map (.w16 ·, rest)
  | 2, a :: b :: c :: d :: rest => (BigEndian.read32? [a, b, c, d]).map (.w32 ·, rest)
  | _, _ => none

theorem read?_length_le {width : UInt8} {bytes rest : List UInt8} {w : Word}
    (h : read? width bytes = some (w, rest)) : rest.length ≤ bytes.length := by
  unfold read? at h
  split at h <;> simp_all [BigEndian.read16?, BigEndian.read32?] <;> omega

end Word

namespace Operand

/-- The operand in front of some bytes, and what is behind it. Bytes that start with no marker have
none. -/
def read (offset : Nat) (bytes : List UInt8) :
    Except DecodeError (Option Operand × Nat × List UInt8) :=
  match bytes with
  | [] => .ok (none, offset, [])
  | marker :: rest =>
    if poolMarker ≤ marker && marker < intMarker then
      (Word.read? (marker - poolMarker) rest).elim (.error (.truncated offset))
        fun (id, rest) => .ok (some (.pool id), offset + 1 + id.width, rest)
    else if intMarker ≤ marker && marker < floatMarker then
      (Word.read? (marker - intMarker) rest).elim (.error (.truncated offset))
        fun (value, rest) => .ok (some (.int value), offset + 1 + value.width, rest)
    else if marker = floatMarker then
      (readText (offset + 1) rest).map fun (text, next, rest) => (some (.float text), next, rest)
    else .ok (none, offset, bytes)

theorem exists_word_of_eq_ok {width : UInt8} {offset next : Nat} {bytes rest : List UInt8}
    {x : Option Operand} {make : Word → Operand}
    (h : ((Word.read? width bytes).elim (.error (DecodeError.truncated offset)) fun (w, rest) =>
      .ok (some (make w), offset + 1 + w.width, rest)) = Except.ok (x, next, rest)) :
    ∃ w, Word.read? width bytes = some (w, rest) ∧ x = some (make w) ∧
      next = offset + 1 + w.width := by
  cases word : Word.read? width bytes with
  | none =>
    rw [word] at h
    cases h
  | some found =>
    rw [word] at h
    cases h
    exact ⟨_, rfl, rfl, rfl⟩

theorem read_length_le {offset next : Nat} {bytes rest : List UInt8} {x : Option Operand}
    (h : read offset bytes = .ok (x, next, rest)) : rest.length ≤ bytes.length := by
  unfold read at h
  split at h
  · cases h
    exact Nat.le_refl _
  next marker tail =>
    rw [List.length_cons]
    split at h
    · obtain ⟨w, word, -, -⟩ := exists_word_of_eq_ok h
      have := Word.read?_length_le word
      omega
    split at h
    · obtain ⟨w, word, -, -⟩ := exists_word_of_eq_ok h
      have := Word.read?_length_le word
      omega
    split at h
    · cases ht : readText (offset + 1) tail with
      | error e => simp [ht, Except.map] at h
      | ok t =>
        obtain ⟨text, _, left⟩ := t
        simp only [ht, Except.map, Except.ok.injEq, Prod.mk.injEq] at h
        have := readText_length_lt ht
        rw [← h.2.2]
        omega
    · cases h
      exact Nat.le_refl _

end Operand

namespace Instr

def read (offset : Nat) (first : UInt8) (bytes : List UInt8) :
    Except DecodeError (Instr × Nat × List UInt8) :=
  match Opcode.ofCode? first with
  | none => .error (.unknownOpcode first offset)
  | some op =>
    (Operand.read (offset + 1) bytes).map fun (operand, next, rest) => (⟨op, operand⟩, next, rest)

theorem read_length_le {offset next : Nat} {first : UInt8} {bytes rest : List UInt8} {i : Instr}
    (h : read offset first bytes = .ok (i, next, rest)) : rest.length ≤ bytes.length := by
  unfold read at h
  split at h
  · cases h
  · cases hx : Operand.read (offset + 1) bytes with
    | error e => simp [hx, Except.map] at h
    | ok x =>
      obtain ⟨x, _, left⟩ := x
      simp only [hx, Except.map, Except.ok.injEq, Prod.mk.injEq] at h
      rw [← h.2.2]
      exact Operand.read_length_le hx

structure Located where
  index : Nat
  offset : Nat
  instr : Instr
  deriving DecidableEq, Repr

def decodeFrom (offset : Nat) (done : Array Located) (bytes : List UInt8) :
    Except DecodeError (Array Located) :=
  match bytes with
  | [] => .ok done
  | first :: tail =>
    match _ : read offset first tail with
    | .error e => .error e
    | .ok (instr, next, rest) => decodeFrom next (done.push ⟨done.size, offset, instr⟩) rest
termination_by bytes.length
decreasing_by
  have := read_length_le ‹_›
  simp only [List.length_cons]
  omega

def decode (code : List UInt8) : Except DecodeError (List Located) :=
  (decodeFrom 0 #[] code).map Array.toList

end Instr

namespace Image

def readFunctions (offset : Nat) (done : Array FunctionEntry) (bytes : List UInt8) :
    Except DecodeError (Array FunctionEntry) :=
  if bytes.isEmpty then .ok done
  else
    match BigEndian.read32? bytes with
    | none => .error (.truncated offset)
    | some opIndex =>
      match _ : readText (offset + 4) (bytes.drop 4) with
      | .error e => .error e
      | .ok (name, next, rest) => readFunctions next (done.push ⟨name, opIndex⟩) rest
termination_by bytes.length
decreasing_by
  have := readText_length_lt ‹readText _ _ = _›
  rw [List.length_drop] at this
  omega

def readStrings (offset : Nat) (done : Array String) (bytes : List UInt8) :
    Except DecodeError (Array String) :=
  if bytes.isEmpty then .ok done
  else
    match _ : readText offset bytes with
    | .error e => .error e
    | .ok (text, next, rest) => readStrings next (done.push text) rest
termination_by bytes.length
decreasing_by exact readText_length_lt ‹readText _ _ = _›

/-- Puts the contents of a segment in its place; a later segment of a kind takes the place of an
earlier one. -/
def addSegment (image : Image) (offset : Nat) (segment : Segment) (payload : List UInt8) :
    Except DecodeError Image :=
  match segment with
  | .eventFlags => return image
  | .functionNames => return { image with functions := (← readFunctions offset #[] payload).toList }
  | .strings => return { image with strings := (← readStrings offset #[] payload).toList }
  | .bytecode => return { image with code := payload }

def readSegments (offset : Nat) (image : Image) (bytes : List UInt8) : Except DecodeError Image :=
  match BigEndian.read32? bytes, _ : BigEndian.read32? (bytes.drop 4) with
  | some id, some length =>
    let contents := bytes.drop 8
    if contents.length < length.toNat then .error (.truncated (offset + 8))
    else
      match Segment.ofId? id with
      | none => .error (.unknownSegment id)
      | some segment =>
        match image.addSegment (offset + 8) segment (contents.take length.toNat) with
        | .error e => .error e
        | .ok image =>
          readSegments (offset + 8 + length.toNat) image (contents.drop length.toNat)
  | _, _ => .ok image
termination_by bytes.length
decreasing_by
  have := BigEndian.le_length_of_read32? ‹BigEndian.read32? (bytes.drop 4) = _›
  simp only [List.length_drop] at this ⊢
  omega

/-- The number of bytes before the first segment. An image without a prologue starts with the number
of that segment. -/
def prologueLength (bytes : List UInt8) : Nat :=
  if BigEndian.read32? bytes = some Segment.eventFlags.id then 0
  else (Printable.short? bytes).elim 0 fun length => 2 + length.toNat

def section? (bytes : List UInt8) (length : Nat) : Option (List UInt8) :=
  if 12 ≤ length && length - 10 ≤ bytes.length then some ((bytes.take (length - 10)).drop 2)
  else none

def read (bytes : List UInt8) : Except DecodeError Image :=
  let start := prologueLength bytes
  readSegments start { empty with header := section? bytes start } (bytes.drop start)

end Image

end GraalScript
