import GraalScript.Code.Decode

/-! Texts with a zero byte behind them. A text without the zero character has no zero byte, so the
byte behind it is the first one and reading stops there. -/
namespace GraalScript

namespace Text

/-- Has no zero character, so that a zero byte can mark its end. -/
def ZeroFree (s : String) : Prop := '\x00' ∉ s.toList

instance : DecidablePred ZeroFree := fun s => inferInstanceAs (Decidable ('\x00' ∉ s.toList))

theorem zeroFree_append {s t : String} (hs : ZeroFree s) (ht : ZeroFree t) : ZeroFree (s ++ t) := by
  unfold ZeroFree at *
  rw [String.toList_append, List.mem_append]
  exact not_or.mpr ⟨hs, ht⟩

theorem ofBytes?_bytes (s : String) : ofBytes? (bytes s) = some s := by
  unfold ofBytes? bytes String.fromUTF8?
  rw [Array.toArray_toList, String.toUTF8_eq_toByteArray, dif_pos s.isValidUTF8]
  rfl

theorem bytes_eq_flatMap (s : String) : bytes s = s.toList.flatMap String.utf8EncodeChar := by
  have encoded : s.toByteArray = s.toList.utf8Encode := by
    rw [← String.toByteArray_ofList, String.ofList_toList]
  rw [bytes, String.toUTF8_eq_toByteArray, encoded, List.utf8Encode, List.toList_data_toByteArray]

@[simp] theorem bytes_append (s t : String) : bytes (s ++ t) = bytes s ++ bytes t := by
  rw [bytes_eq_flatMap, bytes_eq_flatMap, bytes_eq_flatMap, String.toList_append,
    List.flatMap_append]

theorem length_bytes (s : String) : (bytes s).length = s.utf8ByteSize := rfl

/-- Only the zero character is written with a zero byte: a longer form has the high bit in each
byte. -/
theorem zero_mem_utf8EncodeChar_iff (c : Char) : 0 ∈ String.utf8EncodeChar c ↔ c = '\x00' := by
  constructor
  · intro found
    apply Char.ext
    apply UInt32.toNat_inj.mp
    change c.val.toNat = 0
    unfold String.utf8EncodeChar at found
    simp only at found
    split at found
    · simp only [List.mem_singleton, ← UInt8.toNat_inj, UInt8.toNat_ofNat',
        UInt8.toNat_zero] at found
      omega
    split at found
    · simp only [List.mem_cons, List.not_mem_nil, or_false, ← UInt8.toNat_inj, UInt8.toNat_ofNat',
        UInt8.toNat_zero] at found
      omega
    split at found
    · simp only [List.mem_cons, List.not_mem_nil, or_false, ← UInt8.toNat_inj, UInt8.toNat_ofNat',
        UInt8.toNat_zero] at found
      omega
    · simp only [List.mem_cons, List.not_mem_nil, or_false, ← UInt8.toNat_inj, UInt8.toNat_ofNat',
        UInt8.toNat_zero] at found
      omega
  · rintro rfl
    decide

theorem zero_mem_bytes_iff (s : String) : 0 ∈ bytes s ↔ ¬ ZeroFree s := by
  simp [bytes_eq_flatMap, ZeroFree, zero_mem_utf8EncodeChar_iff]

end Text

theorem readText_bytes (offset : Nat) {s : String} (h : Text.ZeroFree s) (rest : List UInt8) :
    readText offset (Text.bytes s ++ 0 :: rest) =
      .ok (s, offset + (Text.bytes s).length + 1, rest) := by
  have nonzero : ∀ b ∈ Text.bytes s, (b != 0) = true := by
    intro b inside
    rw [bne_iff_ne]
    rintro rfl
    exact (Text.zero_mem_bytes_iff s).mp inside h
  have taken : (Text.bytes s ++ 0 :: rest).takeWhile (· != 0) = Text.bytes s := by
    rw [List.takeWhile_append_of_pos nonzero, List.takeWhile_cons_of_neg (by decide),
      List.append_nil]
  have dropped : (Text.bytes s ++ 0 :: rest).dropWhile (· != 0) = 0 :: rest := by
    rw [List.dropWhile_append_of_pos nonzero, List.dropWhile_cons_of_neg (by decide)]
  rw [readText, dropped, taken]
  dsimp only
  rw [Text.ofBytes?_bytes]

end GraalScript
