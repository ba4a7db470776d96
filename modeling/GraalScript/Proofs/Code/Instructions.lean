import GraalScript.Proofs.Code.Texts

/-! Reading instructions back from the bytes that write them. Nothing tells the length of an
instruction; what follows an operation is an operand when it starts with a marker, and the bytes of
operations stay below the markers. -/
namespace GraalScript

namespace Opcode

theorem code_lt_poolMarker (op : Opcode) : op.code < Operand.poolMarker := by
  cases op <;> decide

end Opcode

namespace Word

def widths : List UInt8 := [0, 1, 2]

theorem exists_width (w : Word) : ∃ width ∈ widths, ∃ payload,
    (∀ base, w.encode base = (base + width) :: payload) ∧
    ∀ rest, read? width (payload ++ rest) = some (w, rest) := by
  cases w with
  | w8 n => exact ⟨0, by decide, [n], fun base => by simp [encode], fun rest => rfl⟩
  | w16 n =>
    refine ⟨1, by decide, BigEndian.write16 n, fun base => rfl, fun rest => ?_⟩
    exact congrArg (Option.map (w16 ·, rest)) (BigEndian.read16?_write16 n [])
  | w32 n =>
    refine ⟨2, by decide, BigEndian.write32 n, fun base => rfl, fun rest => ?_⟩
    exact congrArg (Option.map (w32 ·, rest)) (BigEndian.read32?_write32 n [])

end Word

namespace Operand

/-- A text that stands for a number ends at its first zero byte. -/
def Readable : Operand → Prop
  | float text => Text.ZeroFree text
  | _ => True

theorem marker_sub : ∀ width ∈ Word.widths,
    (poolMarker ≤ poolMarker + width && poolMarker + width < intMarker) = true ∧
    poolMarker + width - poolMarker = width ∧
    (poolMarker ≤ intMarker + width && intMarker + width < intMarker) = false ∧
    (intMarker ≤ intMarker + width && intMarker + width < floatMarker) = true ∧
    intMarker + width - intMarker = width := by
  decide +kernel

theorem read_encode (offset : Nat) {x : Operand} (h : x.Readable) (rest : List UInt8) :
    read offset (x.encode ++ rest) = .ok (some x, offset + x.encode.length, rest) := by
  cases x with
  | pool id =>
    obtain ⟨width, known, payload, written, back⟩ := id.exists_width
    obtain ⟨inPool, width_eq, -⟩ := marker_sub width known
    rw [encode, Word.length_encode, ← Nat.add_assoc, written, List.cons_append, read, if_pos inPool,
      width_eq, back, Option.elim_some]
  | int value =>
    obtain ⟨width, known, payload, written, back⟩ := value.exists_width
    obtain ⟨-, -, notPool, inInt, width_eq⟩ := marker_sub width known
    rw [encode, Word.length_encode, ← Nat.add_assoc, written, List.cons_append, read,
      if_neg (Bool.not_eq_true _ ▸ notPool), if_pos inInt, width_eq, back, Option.elim_some]
  | float text =>
    have back := readText_bytes (offset + 1) h rest
    have shape : (float text).encode ++ rest = floatMarker :: (Text.bytes text ++ 0 :: rest) := by
      simp [encode]
    have size : offset + (float text).encode.length =
        offset + 1 + (Text.bytes text).length + 1 := by
      simp only [encode, List.cons_append, List.length_cons, List.length_append, List.length_nil]
      omega
    rw [shape, size, read, if_neg (by decide), if_neg (by decide), if_pos rfl, back]
    rfl

theorem read_of_head_lt (offset : Nat) {bytes : List UInt8}
    (h : ∀ b ∈ bytes.head?, b < poolMarker) : read offset bytes = .ok (none, offset, bytes) := by
  cases bytes with
  | nil => rfl
  | cons b rest =>
    have low := h b rfl
    have notPool : ¬ poolMarker ≤ b := UInt8.not_le.mpr low
    have notInt : ¬ intMarker ≤ b := fun le => notPool (UInt8.le_trans (by decide) le)
    have notFloat : b ≠ floatMarker := fun same => notPool (by rw [same]; decide)
    simp [read, notPool, notInt, notFloat]

end Operand

namespace Instr

def Readable (i : Instr) : Prop := ∀ x ∈ i.operand, x.Readable

theorem head_encodeAll_lt (code : List Instr) :
    ∀ b ∈ (encodeAll code).head?, b < Operand.poolMarker := by
  intro b first
  cases code with
  | nil => cases first
  | cons i code =>
    cases first
    exact i.op.code_lt_poolMarker

theorem read_encode (offset : Nat) {i : Instr} (h : i.Readable) (code : List Instr) :
    read offset i.op.code (i.operand.elim [] Operand.encode ++ encodeAll code)
      = .ok (i, offset + i.encode.length, encodeAll code) := by
  obtain ⟨op, operand⟩ := i
  rw [read, Opcode.ofCode?_code]
  cases operand with
  | none =>
    -- What follows is the byte of the next operation, which is no marker.
    have nothing := Operand.read_of_head_lt (offset + 1) (head_encodeAll_lt code)
    simp [nothing, Except.map, encode]
  | some x =>
    have back := Operand.read_encode (offset + 1) (h x rfl) (encodeAll code)
    have size : offset + (⟨op, some x⟩ : Instr).encode.length = offset + 1 + x.encode.length := by
      simp only [encode, Option.elim_some, List.length_cons]
      omega
    simp [back, Except.map, size]

/-- The instructions of a piece of code that starts at `offset` with the instruction `index`, each
with its number and its place. -/
def locate (index offset : Nat) : List Instr → List Located
  | [] => []
  | i :: code => ⟨index, offset, i⟩ :: locate (index + 1) (offset + i.encode.length) code

@[simp] theorem map_instr_locate (index offset : Nat) (code : List Instr) :
    (locate index offset code).map (·.instr) = code := by
  induction code generalizing index offset with
  | nil => rfl
  | cons i code ih => rw [locate, List.map_cons, ih]

theorem decodeFrom_encodeAll (offset : Nat) (done : Array Located) {code : List Instr}
    (h : ∀ i ∈ code, i.Readable) :
    decodeFrom offset done (encodeAll code) = .ok (done ++ locate done.size offset code) := by
  induction code generalizing offset done with
  | nil => simp [decodeFrom, locate]
  | cons i code ih =>
    rw [List.forall_mem_cons] at h
    have first := read_encode offset h.1 code
    have shape : encodeAll (i :: code)
        = i.op.code :: (i.operand.elim [] Operand.encode ++ encodeAll code) := rfl
    rw [shape, decodeFrom]
    split
    · rename_i failed
      cases first.symm.trans failed
    · rename_i found
      cases first.symm.trans found
      rw [ih _ _ h.2, locate]
      apply congrArg Except.ok
      apply Array.toList_inj.mp
      simp

/-- Code is read back as it was written. -/
theorem decode_encodeAll {code : List Instr} (h : ∀ i ∈ code, i.Readable) :
    decode (encodeAll code) = .ok (locate 0 0 code) := by
  rw [decode, decodeFrom_encodeAll 0 #[] h]
  simp [Except.map]

end Instr

end GraalScript
