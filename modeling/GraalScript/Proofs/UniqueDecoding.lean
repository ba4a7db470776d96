import GraalScript.Proofs.Code.Instructions
import Mathlib.Algebra.GroupWithZero.Nat
import Mathlib.Data.List.Forall2
import Mathlib.Data.List.Induction

/-! Which bytes are code. Bytes are read as instructions if they fall into pieces that each write
one, and they do so in one way only: nothing frames an instruction, but no operation has a marker as
its byte. -/
namespace GraalScript

namespace BigEndian

/-- The number that bytes write, the most significant one first. -/
def value (bytes : List UInt8) : Nat := bytes.foldl (fun n b => 0x100 * n + b.toNat) 0

theorem value_concat (bytes : List UInt8) (b : UInt8) :
    value (bytes ++ [b]) = 0x100 * value bytes + b.toNat := by
  simp [value]

theorem eq_of_value {xs ys : List UInt8} (size : xs.length = ys.length)
    (same : value xs = value ys) : xs = ys := by
  induction xs using List.reverseRecOn generalizing ys with
  | nil => exact (List.length_eq_zero_iff.mp size.symm).symm
  | append_singleton xs x ih =>
    obtain ⟨ys, y, rfl⟩ : ∃ front y, ys = front ++ [y] := by
      refine (List.eq_nil_or_concat' ys).resolve_left ?_
      rintro rfl
      simp at size
    have hx := x.toNat_lt
    have hy := y.toNat_lt
    rw [value_concat, value_concat] at same
    rw [ih (by simpa using size) (by omega), UInt8.toNat_inj.mp (show x.toNat = y.toNat by omega)]

theorem value_write16 (n : UInt16) : value (write16 n) = n.toNat := by
  have := n.toNat_lt
  simp only [value, write16, List.foldl_cons, List.foldl_nil, UInt8.toNat_ofNat']
  omega

theorem value_write32 (n : UInt32) : value (write32 n) = n.toNat := by
  have := n.toNat_lt
  simp only [value, write32, List.foldl_cons, List.foldl_nil, UInt8.toNat_ofNat']
  omega

end BigEndian

namespace Word

def rank : Word → UInt8
  | w8 _ => 0
  | w16 _ => 1
  | w32 _ => 2

def payload : Word → List UInt8
  | w8 n => [n]
  | w16 n => BigEndian.write16 n
  | w32 n => BigEndian.write32 n

theorem encode_eq (base : UInt8) (w : Word) : w.encode base = (base + w.rank) :: w.payload := by
  cases w <;> simp [encode, rank, payload]

theorem length_payload (w : Word) : w.payload.length = w.width := by
  cases w <;> rfl

theorem value_payload (w : Word) : BigEndian.value w.payload = w.toNat := by
  cases w with
  | w8 n => simp [payload, BigEndian.value, toNat]
  | w16 n => exact BigEndian.value_write16 n
  | w32 n => exact BigEndian.value_write32 n

theorem eq_payload_iff {bytes : List UInt8} {w : Word} :
    bytes = w.payload ↔ bytes.length = w.width ∧ BigEndian.value bytes = w.toNat := by
  constructor
  · rintro rfl
    exact ⟨w.length_payload, w.value_payload⟩
  · rintro ⟨size, value⟩
    exact BigEndian.eq_of_value (size.trans w.length_payload.symm)
      (value.trans w.value_payload.symm)

theorem payload_of_read? {width : UInt8} {bytes rest : List UInt8} {w : Word}
    (h : read? width bytes = some (w, rest)) : width = w.rank ∧ bytes = w.payload ++ rest := by
  unfold read? at h
  split at h
  next b tail =>
    cases h
    exact ⟨rfl, rfl⟩
  next a b tail =>
    have two : [a, b] = payload (.w16 (.ofNat (a.toNat * 0x100 + b.toNat))) := by
      have ha := a.toNat_lt
      have hb := b.toNat_lt
      rw [eq_payload_iff]
      refine ⟨rfl, ?_⟩
      simp only [BigEndian.value, List.foldl_cons, List.foldl_nil, toNat, UInt16.toNat_ofNat']
      omega
    cases h
    exact ⟨rfl, congrArg (· ++ rest) two⟩
  next a b c d tail =>
    have four : [a, b, c, d] = payload
        (.w32 (.ofNat (a.toNat * 0x1000000 + b.toNat * 0x10000 + c.toNat * 0x100 + d.toNat))) := by
      have ha := a.toNat_lt
      have hb := b.toNat_lt
      have hc := c.toNat_lt
      have hd := d.toNat_lt
      rw [eq_payload_iff]
      refine ⟨rfl, ?_⟩
      simp only [BigEndian.value, List.foldl_cons, List.foldl_nil, toNat, UInt32.toNat_ofNat']
      omega
    cases h
    exact ⟨rfl, congrArg (· ++ rest) four⟩
  next => cases h

theorem encode_of_read? {base marker : UInt8} {bytes rest : List UInt8} {w : Word}
    (h : read? (marker - base) bytes = some (w, rest)) :
    marker :: bytes = w.encode base ++ rest := by
  obtain ⟨rank, rfl⟩ := payload_of_read? h
  have restored : base + w.rank = marker := by rw [← rank, UInt8.add_comm, UInt8.sub_add_cancel]
  rw [encode_eq, restored, List.cons_append]

end Word

theorem Text.bytes_of_ofBytes? {bytes : List UInt8} {text : String}
    (h : ofBytes? bytes = some text) : Text.bytes text = bytes := by
  unfold ofBytes? String.fromUTF8? at h
  split at h
  next valid =>
    cases h
    rfl
  next => cases h

theorem bytes_of_readText {offset next : Nat} {bytes rest : List UInt8} {text : String}
    (h : readText offset bytes = .ok (text, next, rest)) :
    bytes = Text.bytes text ++ 0 :: rest ∧ 0 ∉ Text.bytes text ∧
      next = offset + (Text.bytes text).length + 1 := by
  unfold readText at h
  split at h
  next => cases h
  next zero tail behind =>
    dsimp only at h
    split at h
    next => cases h
    next read =>
      cases h
      rw [Text.bytes_of_ofBytes? read]
      have last : zero = 0 := by
        have stops := List.head?_dropWhile_not (· != 0) bytes
        rw [behind] at stops
        simpa using stops
      have whole := List.takeWhile_append_dropWhile (p := (· != 0)) (l := bytes)
      rw [behind, last] at whole
      refine ⟨whole.symm, fun inside => ?_, rfl⟩
      have found := List.all_eq_true.mp List.all_takeWhile _ inside
      simp at found

namespace Operand

/-- How an operand is written: a marker that tells its kind and width and then its number, or the
marker of texts and then a text up to a zero byte. -/
inductive Spells : List UInt8 → Operand → Prop where
  | pool {w : Word} {bytes : List UInt8} (size : bytes.length = w.width)
      (number : BigEndian.value bytes = w.toNat) :
      Spells ((0xF0 + w.rank) :: bytes) (.pool w)
  | int {w : Word} {bytes : List UInt8} (size : bytes.length = w.width)
      (number : BigEndian.value bytes = w.toNat) :
      Spells ((0xF3 + w.rank) :: bytes) (.int w)
  | float {text : String} (nonzero : 0 ∉ Text.bytes text) :
      Spells (0xF6 :: (Text.bytes text ++ [0])) (.float text)

theorem spells_iff {bytes : List UInt8} {x : Operand} :
    Spells bytes x ↔ x.Readable ∧ bytes = x.encode := by
  constructor
  · rintro (⟨size, number⟩ | ⟨size, number⟩ | ⟨nonzero⟩)
    · rw [encode, Word.encode_eq, ← Word.eq_payload_iff.mpr ⟨size, number⟩]
      exact ⟨trivial, rfl⟩
    · rw [encode, Word.encode_eq, ← Word.eq_payload_iff.mpr ⟨size, number⟩]
      exact ⟨trivial, rfl⟩
    · exact ⟨(Text.zero_mem_bytes_iff _).not_left.mp nonzero, rfl⟩
  · rintro ⟨readable, rfl⟩
    cases x with
    | pool w =>
      rw [encode, Word.encode_eq]
      exact .pool w.length_payload w.value_payload
    | int w =>
      rw [encode, Word.encode_eq]
      exact .int w.length_payload w.value_payload
    | float text => exact .float ((Text.zero_mem_bytes_iff text).not_left.mpr readable)

/-- What is read in front of some bytes is written there, and the position moves behind it. -/
theorem encode_of_read {offset next : Nat} {bytes rest : List UInt8} {x : Option Operand}
    (h : read offset bytes = .ok (x, next, rest)) :
    bytes = x.elim [] encode ++ rest ∧ (∀ y ∈ x, y.Readable) ∧
      next = offset + (x.elim [] encode).length := by
  unfold read at h
  split at h
  next =>
    cases h
    exact ⟨rfl, by simp, rfl⟩
  next marker tail =>
    split at h
    next =>
      obtain ⟨w, word, rfl, rfl⟩ := exists_word_of_eq_ok h
      refine ⟨Word.encode_of_read? word, by rintro _ ⟨⟩; trivial, ?_⟩
      rw [Option.elim_some, encode, Word.length_encode, Nat.add_assoc]
    split at h
    next =>
      obtain ⟨w, word, rfl, rfl⟩ := exists_word_of_eq_ok h
      refine ⟨Word.encode_of_read? word, by rintro _ ⟨⟩; trivial, ?_⟩
      rw [Option.elim_some, encode, Word.length_encode, Nat.add_assoc]
    split at h
    next isFloat =>
      cases read : readText (offset + 1) tail with
      | error e => simp [read, Except.map] at h
      | ok found =>
        obtain ⟨text, _, left⟩ := found
        obtain ⟨rfl, nonzero, rfl⟩ := bytes_of_readText read
        rw [read] at h
        cases h
        refine ⟨by simp [encode, isFloat], ?_, ?_⟩
        · rintro _ ⟨⟩
          exact (Text.zero_mem_bytes_iff text).not_left.mp nonzero
        · simp only [Option.elim_some, encode, List.cons_append, List.length_cons,
            List.length_append, List.length_nil]
          omega
    next =>
      cases h
      exact ⟨rfl, by simp, rfl⟩

end Operand

namespace Instr

/-- How an instruction is written: the byte of its operation, and its operand if it has one. -/
inductive Spells : List UInt8 → Instr → Prop where
  | plain (op : Opcode) : Spells [op.code] ⟨op, none⟩
  | operand (op : Opcode) {x : Operand} {bytes : List UInt8} (more : Operand.Spells bytes x) :
      Spells (op.code :: bytes) ⟨op, some x⟩

theorem spells_iff {bytes : List UInt8} {i : Instr} :
    Spells bytes i ↔ i.Readable ∧ bytes = i.encode := by
  constructor
  · rintro (op | ⟨op, more⟩)
    · exact ⟨by simp [Readable], rfl⟩
    · obtain ⟨readable, rfl⟩ := Operand.spells_iff.mp more
      refine ⟨?_, rfl⟩
      rintro _ ⟨⟩
      exact readable
  · rintro ⟨readable, rfl⟩
    obtain ⟨op, _ | x⟩ := i
    · exact .plain op
    · exact .operand op (Operand.spells_iff.mpr ⟨readable x rfl, rfl⟩)

theorem encode_of_read {offset next : Nat} {first : UInt8} {bytes rest : List UInt8} {i : Instr}
    (h : read offset first bytes = .ok (i, next, rest)) :
    first :: bytes = i.encode ++ rest ∧ i.Readable ∧ next = offset + i.encode.length := by
  unfold read at h
  split at h
  next => cases h
  next op known =>
    cases found : Operand.read (offset + 1) bytes with
    | error e => simp [found, Except.map] at h
    | ok pair =>
      obtain ⟨x, _, left⟩ := pair
      obtain ⟨rfl, readable, rfl⟩ := Operand.encode_of_read found
      rw [found] at h
      cases h
      rw [← Opcode.ofCode?_eq_some_iff.mp known]
      refine ⟨rfl, readable, ?_⟩
      simp only [encode, List.length_cons]
      omega

theorem encodeAll_of_decodeFrom {offset : Nat} {done all : Array Located} {bytes : List UInt8}
    (h : decodeFrom offset done bytes = .ok all) :
    ∃ code : List Instr, (∀ i ∈ code, i.Readable) ∧ bytes = encodeAll code ∧
      all = done ++ locate done.size offset code := by
  fun_induction decodeFrom offset done bytes with
  | case1 =>
    cases h
    exact ⟨[], List.forall_mem_nil _, rfl, by simp [locate]⟩
  | case2 => cases h
  | case3 offset done first tail i next rest found ih =>
    obtain ⟨code, readable, rfl, rfl⟩ := ih h
    obtain ⟨written, first, rfl⟩ := encode_of_read found
    refine ⟨i :: code, List.forall_mem_cons.mpr ⟨first, readable⟩, written, ?_⟩
    apply Array.toList_inj.mp
    simp [locate]

theorem decode_eq_ok_iff {bytes : List UInt8} {located : List Located} :
    decode bytes = .ok located ↔ ∃ code : List Instr, (∀ i ∈ code, i.Readable) ∧
      bytes = encodeAll code ∧ located = locate 0 0 code := by
  constructor
  · intro h
    rw [decode] at h
    cases read : decodeFrom 0 #[] bytes with
    | error e => simp [read, Except.map] at h
    | ok all =>
      rw [read] at h
      cases h
      obtain ⟨code, readable, written, rfl⟩ := encodeAll_of_decodeFrom read
      exact ⟨code, readable, written, by simp⟩
  · rintro ⟨code, readable, rfl, rfl⟩
    exact decode_encodeAll readable

theorem eq_locate_iff {index offset : Nat} {code : List Instr} {located : List Located} :
    located = locate index offset code ↔ located.map Located.instr = code ∧
      ∀ (k : Nat) (_ : k < located.length), located[k].index = index + k ∧
        located[k].offset = offset + (((code.map encode).take k).map List.length).sum := by
  induction code generalizing index offset located with
  | nil => simp +contextual [locate]
  | cons i code ih =>
    cases located with
    | nil => simp [locate]
    | cons l located =>
      rw [locate, List.cons.injEq, ih, List.map_cons, List.cons.injEq]
      constructor
      · rintro ⟨rfl, instrs, places⟩
        refine ⟨⟨rfl, instrs⟩, ?_⟩
        rintro (_ | k) inside
        · simp
        · simpa [Nat.add_assoc, Nat.add_comm 1] using places k (by simpa using inside)
      · rintro ⟨⟨rfl, instrs⟩, places⟩
        have first := places 0 (by simp)
        refine ⟨by cases l; simpa using first, instrs, fun k inside => ?_⟩
        have later := places (k + 1) (by simpa using inside)
        simpa [Nat.add_assoc, Nat.add_comm 1] using later

/-- The bytes fall into pieces that write the instructions of `code`, one behind the other. -/
structure Decomposes (bytes : List UInt8) (pieces : List (List UInt8))
  (code : List Instr) : Prop where
  whole : bytes = pieces.flatten
  spelled : List.Forall₂ Spells pieces code

theorem forall₂_spells_iff {pieces : List (List UInt8)} {code : List Instr} :
    List.Forall₂ Spells pieces code ↔ pieces = code.map encode ∧ ∀ i ∈ code, i.Readable := by
  induction code generalizing pieces with
  | nil => simp
  | cons i code ih =>
    rw [List.forall₂_cons_right_iff, List.map_cons, List.forall_mem_cons]
    constructor
    · rintro ⟨piece, rest, first, others, rfl⟩
      obtain ⟨readable, rfl⟩ := spells_iff.mp first
      obtain ⟨rfl, all⟩ := ih.mp others
      exact ⟨rfl, readable, all⟩
    · rintro ⟨rfl, readable, all⟩
      exact ⟨_, _, spells_iff.mpr ⟨readable, rfl⟩, ih.mpr ⟨rfl, all⟩, rfl⟩

theorem decomposes_iff {bytes : List UInt8} {pieces : List (List UInt8)} {code : List Instr} :
    Decomposes bytes pieces code ↔
      pieces = code.map encode ∧ decode bytes = .ok (locate 0 0 code) := by
  constructor
  · rintro ⟨rfl, spelled⟩
    obtain ⟨rfl, readable⟩ := forall₂_spells_iff.mp spelled
    exact ⟨rfl, decode_encodeAll readable⟩
  · rintro ⟨rfl, h⟩
    obtain ⟨code', readable, rfl, same⟩ := decode_eq_ok_iff.mp h
    have same : code = code' := by simpa using congrArg (List.map Located.instr) same
    subst same
    exact ⟨rfl, forall₂_spells_iff.mpr ⟨rfl, readable⟩⟩

/-- Bytes are read as the instructions that their pieces write, numbered in their order, each where
the pieces before it end. There is at most one way to cut them into such pieces, and where there is
none they are refused. -/
theorem decode_iff_decomposes (bytes : List UInt8) :
    (∀ located : List Located, decode bytes = .ok located ↔
      ∃ pieces, Decomposes bytes pieces (located.map Located.instr) ∧
        ∀ (k : Nat) (_ : k < located.length),
          located[k].index = k ∧ located[k].offset = ((pieces.take k).map List.length).sum) ∧
    (∀ {pieces pieces' code code'}, Decomposes bytes pieces code → Decomposes bytes pieces' code' →
      pieces = pieces' ∧ code = code') ∧
    ((∃ e, decode bytes = .error e) ↔ ¬∃ pieces code, Decomposes bytes pieces code) := by
  refine ⟨fun located => ⟨fun h => ?_, ?_⟩, fun {_ _ code code'} one other => ?_, ?_⟩
  · obtain ⟨code, -, -, rfl⟩ := decode_eq_ok_iff.mp h
    obtain ⟨instrs, places⟩ := eq_locate_iff.mp (Eq.refl (locate 0 0 code))
    refine ⟨code.map encode, ?_, fun k inside => by simpa using places k inside⟩
    rw [instrs]
    exact decomposes_iff.mpr ⟨rfl, h⟩
  · rintro ⟨pieces, cut, places⟩
    obtain ⟨rfl, h⟩ := decomposes_iff.mp cut
    rw [h, ← eq_locate_iff.mpr ⟨rfl, fun k inside => by simpa using places k inside⟩]
  · obtain ⟨rfl, h⟩ := decomposes_iff.mp one
    obtain ⟨rfl, h'⟩ := decomposes_iff.mp other
    have same : code = code' := by
      simpa using congrArg (List.map Located.instr) (Except.ok.inj (h.symm.trans h'))
    exact ⟨by rw [same], same⟩
  · constructor
    · rintro ⟨e, h⟩ ⟨pieces, code, cut⟩
      cases h.symm.trans (decomposes_iff.mp cut).2
    · intro uncut
      cases h : decode bytes with
      | error e => exact ⟨e, rfl⟩
      | ok located =>
        obtain ⟨code, -, -, rfl⟩ := decode_eq_ok_iff.mp h
        exact absurd ⟨_, code, decomposes_iff.mpr ⟨rfl, h⟩⟩ uncut

/-- The number of the first instruction is written with the bytes of two operations, and cutting it
short leaves no instruction behind. -/
theorem decode_iff_decomposes_operands :
    decode [22, 0xF1, 22, 20, 20, 0xF6, 49, 46, 53, 0, 50] = .ok
      [⟨0, 0, .typeVar, some (.pool (.w16 5652))⟩, ⟨1, 4, .typeNumber, some (.float "1.5")⟩,
        ⟨2, 10, .assign, none⟩] ∧
    ¬∃ pieces code, Decomposes [22, 0xF1, 22] pieces code := by
  refine ⟨((decode_iff_decomposes _).1 _).mpr
    ⟨[[22, 0xF1, 22, 20], [20, 0xF6, 49, 46, 53, 0], [50]], ⟨rfl, ?_⟩, by decide⟩,
    (decode_iff_decomposes _).2.2.mp ⟨.truncated 1, by decide +kernel⟩⟩
  refine .cons (.operand .typeVar ?_)
    (.cons (.operand .typeNumber ?_) (.cons (.plain .assign) .nil))
  · exact .pool (w := .w16 5652) rfl rfl
  · have nonzero : 0 ∉ Text.bytes "1.5" := by decide
    exact .float nonzero

end Instr

end GraalScript
