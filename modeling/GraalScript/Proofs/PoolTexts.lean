import GraalScript.Proofs.Capacity
import GraalScript.Proofs.Code.ImageRead
import GraalScript.Proofs.Code.Transcript
import GraalScript.Proofs.Compilation
import GraalScript.Proofs.Generate.Spelled
import GraalScript.Proofs.Parser.Spelled
import Mathlib.Algebra.BigOperators.Group.List.Basic
import Mathlib.Algebra.Order.Ring.Nat
import Mathlib.Data.List.Forall2

/-! The texts of an image. The code of an image is read back as it was generated, the pool with each
text cut at its zero characters. Where there are none to cut at, every instruction finds the text
that it was written for; only a literal with a zero character can bring one into the pool. -/
namespace GraalScript

variable {P : String → Prop}

theorem Pool.mem_toList_intern {p : Pool} {text t : String} (h : t ∈ (p.intern text).2.toList) :
    t ∈ p.toList ∨ t = text := by
  unfold intern at h
  split at h
  · exact .inl h
  · simpa [toList] using h

namespace Slot

/-- What a slot says, as a line of code. A jump that waits has target zero. -/
def line : Slot → Line
  | plain op => ⟨op, none⟩
  | number n => ⟨.typeNumber, some (.int n)⟩
  | decimal digits => ⟨.typeNumber, some (.float digits)⟩
  | text op t => ⟨op, some (.text t)⟩
  | jump op target => ⟨op, some (.target target)⟩
  | waits op _ => ⟨op, some (.target 0)⟩

theorem pairs_instr {s : Slot} (spelled : s.Spelled P) (range : s.inRange = true) (pool : Pool) :
    s.line.Pairs (Argument.Written (s.instr pool).2) (s.instr pool).1 := by
  cases s with
  | plain op => exact ⟨rfl, .none⟩
  | number n => exact ⟨rfl, .some rfl⟩
  | decimal digits => exact ⟨rfl, .some ⟨spelled, rfl⟩⟩
  | text op t => exact ⟨rfl, .some ⟨_, pool.texts_intern t, rfl⟩⟩
  | jump op target => exact ⟨rfl, .some ⟨of_decide_eq_true range, rfl⟩⟩
  | waits op w => exact ⟨rfl, .some ⟨by decide, rfl⟩⟩

theorem written_instr {pool : Pool} {x : Argument} {y : Operand} (h : x.Written pool y) (s : Slot) :
    x.Written (s.instr pool).2 y := by
  cases s with
  | text op t => exact h.intern t
  | _ => exact h

theorem eq_text_of_pairs {strings : List String} {s : Slot} {op : Opcode} {k : Word}
    (h : s.line.Pairs (Argument.Reads strings) ⟨op, some (.pool k)⟩) :
    ∃ t, s = text op t ∧ strings[k.toNat]? = some t := by
  obtain ⟨same, related⟩ := h
  cases s with
  | text o t =>
    cases same
    cases related with
    | some found => exact ⟨t, rfl, found⟩
  | plain o => cases related
  | number | decimal | jump | waits =>
    cases related with
    | some wrong => cases wrong

/-- Every instruction with the number of a text has the text of its slot at that number. -/
def TextsFound (strings : List String) (code : List Slot) (instrs : List Instr) : Prop :=
  ∀ (i : Nat) (op : Opcode) (k : Word), instrs[i]? = some ⟨op, some (.pool k)⟩ →
    k.toNat < strings.length ∧ ∃ t, code[i]? = some (text op t) ∧ strings[k.toNat]? = some t

theorem textsFound_of_pairs {strings : List String} {code : List Slot} {instrs : List Instr}
    (h : List.Forall₂ (Line.Pairs (Argument.Reads strings)) (code.map line) instrs) :
    TextsFound strings code instrs := by
  rw [List.forall₂_map_left_iff] at h
  obtain ⟨length, pairs⟩ := List.forall₂_iff_get.mp h
  intro i op k found
  obtain ⟨inside, same⟩ := List.getElem?_eq_some_iff.mp found
  have pair := pairs i (length ▸ inside) inside
  rw [List.get_eq_getElem, List.get_eq_getElem, same] at pair
  obtain ⟨t, slot, text⟩ := eq_text_of_pairs pair
  refine ⟨(List.getElem?_eq_some_iff.mp text).1, t, ?_, text⟩
  rw [← slot]
  exact List.getElem?_eq_getElem _

end Slot

namespace Assembly

variable {a : Assembly} {code : List Slot}

theorem written_placeAll {x : Argument} {y : Operand} (h : x.Written a.pool y) (code : List Slot) :
    x.Written (a.placeAll code).pool y := by
  induction code generalizing a with
  | nil => exact h
  | cons s code ih => exact ih (Slot.written_instr h s)

theorem exists_written_placeAll (spelled : ∀ s ∈ code, s.Spelled P)
    (range : code.all Slot.inRange = true) (a : Assembly) :
    ∃ added, (a.placeAll code).instrs.toList = a.instrs.toList ++ added ∧
      List.Forall₂ (Line.Pairs (Argument.Written (a.placeAll code).pool))
        (code.map Slot.line) added := by
  induction code generalizing a with
  | nil => exact ⟨[], (List.append_nil _).symm, .nil⟩
  | cons s code ih =>
    rw [List.forall_mem_cons] at spelled
    rw [List.all_cons, Bool.and_eq_true] at range
    obtain ⟨added, same, written⟩ := ih spelled.2 range.2 (a.place s)
    have first := Slot.pairs_instr spelled.1 range.1 a.pool
    refine ⟨(s.instr a.pool).1 :: added, ?_, .cons ?_ written⟩
    · rw [placeAll_cons, same]
      simp [place]
    -- Later slots only add texts, so the number that this one has is good in the end.
    · exact first.mono fun _ _ known => written_placeAll (a := a.place s) known code

theorem mem_pool_placeAll {t : String} (h : t ∈ (a.placeAll code).pool.toList) :
    t ∈ a.pool.toList ∨ ∃ op, .text op t ∈ code := by
  induction code generalizing a with
  | nil => exact .inl h
  | cons s code ih =>
    rcases ih h with placed | ⟨op, later⟩
    · cases s with
      | text op t' =>
        rcases Pool.mem_toList_intern placed with old | rfl
        · exact .inl old
        · exact .inr ⟨op, List.mem_cons_self⟩
      | _ => exact .inl placed
    · exact .inr ⟨op, List.mem_cons_of_mem s later⟩

end Assembly

theorem Image.length_pool_lt {prologue : List UInt8} {functions : List FunctionEntry}
    {pool : List String} {code bytes : List UInt8}
    (h : write prologue functions pool code = .ok bytes) : pool.length < 0x100000000 := by
  obtain ⟨-, -, strings, -, -, -, written, -⟩ := exists_segments h
  have small := Segment.length_lt_of_write written
  have least : pool.length ≤ (pool.flatMap writeText).length := by
    rw [List.length_flatMap, ← List.length_map (fun s => (writeText s).length)]
    apply List.length_le_sum_of_one_le
    simp [writeText]
  omega

theorem Header.opens_of_ofScript {settings : Settings} {script : Option ScriptId} {header : Header}
    (h : ofScript settings script = .ok header) :
    Image.Opens header.prologue
      (script.map fun s => Text.bytes (title s.type s.name settings.saveToDisk)) := by
  cases script with
  | none =>
    cases h
    exact Image.opens_nil
  | some s => exact opens_of_make h

namespace Program

variable {p : Program} {d : Draft}

theorem zeroFree_functions_draft (spelled : ∀ i ∈ p.items, i.Spelled P) (h : p.draft = .ok d) :
    ∀ f ∈ d.code.functions.toList, Text.ZeroFree f.name := by
  intro f listed
  rw [functions_draft h] at listed
  obtain ⟨entry, known, rfl⟩ := List.mem_map.mp listed
  have name : entry.1 ∈ p.funcs.map Func.tableName := by
    rw [← p.names_allListed 0 none]
    exact List.mem_map_of_mem known
  obtain ⟨func, inside, same⟩ := List.mem_map.mp name
  rw [funcs_eq, List.mem_filterMap] at inside
  obtain ⟨item, member, found⟩ := inside
  rw [← same]
  cases item with
  | func g =>
    cases found
    exact (spelled _ member).tableName
  | stmt s => cases found

theorem written_draft (spelled : ∀ s ∈ p.layout, s.Spelled P) (h : p.draft = .ok d) :
    List.Forall₂ (Line.Pairs (Argument.Written d.code.pool)) (p.layout.map Slot.line)
      d.code.instrs.toList := by
  obtain ⟨follows, -⟩ := draft_eq_ok h
  obtain ⟨added, same, written⟩ :=
    Assembly.exists_written_placeAll spelled follows.range (Draft.empty.list p.listed).code
  rw [follows.code_eq, same]
  exact written

theorem mem_pool_draft (h : p.draft = .ok d) {t : String} (member : t ∈ d.code.pool.toList) :
    ∃ op, .text op t ∈ p.layout := by
  obtain ⟨follows, -⟩ := draft_eq_ok h
  rw [follows.code_eq] at member
  rcases Assembly.mem_pool_placeAll member with old | added
  · cases old
  · exact added

/-- What is read back from the image of a draft: the instructions of the layout, and the pool in
pieces. -/
theorem exists_read (plain : ∀ i ∈ p.items, i.Spelled P) (layout : ∀ s ∈ p.layout, s.Spelled P)
    (h : p.draft = .ok d) {settings : Settings} {script : Option ScriptId} {header : Header}
    (made : Header.ofScript settings script = .ok header) {bytes : List UInt8}
    (written : d.code.image header.prologue = .ok bytes) :
    ∃ image located, Image.read bytes = .ok image ∧ Instr.decode image.code = .ok located ∧
      image.strings = d.code.pool.toList.flatMap Text.pieces ∧
      located.map (·.instr) = d.code.instrs.toList ∧
      Slot.TextsFound d.code.pool.toList p.layout d.code.instrs.toList := by
  have reading := Image.read_of_write written (Header.opens_of_ofScript made)
    (zeroFree_functions_draft plain h)
  obtain ⟨located, decoded, instrs, reads⟩ :=
    Transcript.exists_decode_of_written (Image.length_pool_lt written) (written_draft layout h)
  exact ⟨_, located, reading, decoded, rfl, instrs, Slot.textsFound_of_pairs reads⟩

end Program

theorem Text.flatMap_pieces_eq_iff {texts : List String} :
    texts.flatMap pieces = texts ↔ ∀ t ∈ texts, ZeroFree t := by
  refine ⟨fun same t member => ?_, flatMap_pieces_of_zeroFree⟩
  rw [← same] at member
  exact zeroFree_of_mem_pieces t member

/-- What is read back from the image of a text: the generated code, and the pool cut at its zero
characters. The pool is read back as it was if and only if it has none, which is so if no literal of
the text has one; and then every instruction finds the text that it was written for. -/
theorem strings_of_compile (settings : Settings) (script : Option ScriptId) (source : String)
    {out : Output} (h : (compile settings script source).result = .ok out) :
    ∃ header parsed bound symbols draft image located,
      Header.ofScript settings script = .ok header ∧
      Program.parse source settings.maxNesting = .ok parsed ∧
      parsed.resolve header.env = .ok (bound, symbols) ∧ bound.draft = .ok draft ∧
      draft.code.image header.prologue = .ok out.image ∧
      Image.read out.image = .ok image ∧ Instr.decode image.code = .ok located ∧
      image.strings = draft.code.pool.toList.flatMap Text.pieces ∧
      (image.strings = draft.code.pool.toList ↔ ∀ t ∈ draft.code.pool.toList, Text.ZeroFree t) ∧
      ((∀ t, .ok t ∈ tokenize source → t.kind = .str → Text.ZeroFree (Text.unescape t.text)) →
        image.strings = draft.code.pool.toList) ∧
      (image.strings = draft.code.pool.toList →
        Slot.TextsFound image.strings bound.layout (located.map (·.instr))) := by
  obtain ⟨header, parsed, bound, symbols, made, parsing, resolved, generated⟩ :=
    compile_result_eq_ok_iff.mp h
  obtain ⟨draft, drafted, written, -⟩ := Program.generate_eq_ok_iff.mp generated
  have spelled {P : String → Prop} (admits : Text.Admits P)
      (strings : ∀ t, .ok t ∈ tokenize source → t.kind = .str → P (Text.unescape t.text)) :
      ∀ i ∈ bound.items, i.Spelled P :=
    Program.spelled_of_resolve admits (Program.spelled_of_parse strings parsing) resolved
  have plain := spelled Text.admits_any fun _ _ _ => trivial
  obtain ⟨image, located, reading, decoded, pieces, instrs, found⟩ := Program.exists_read plain
    (Program.spelled_layout Text.admits_any plain) drafted made written
  have zeroFree_iff : image.strings = draft.code.pool.toList ↔
      ∀ t ∈ draft.code.pool.toList, Text.ZeroFree t := by
    rw [pieces]
    exact Text.flatMap_pieces_eq_iff
  refine ⟨header, parsed, bound, symbols, draft, image, located, made, parsing, resolved,
    drafted, written, reading, decoded, pieces, zeroFree_iff, fun strings => ?_, fun same => ?_⟩
  · refine zeroFree_iff.mpr fun t member => ?_
    obtain ⟨op, slot⟩ := Program.mem_pool_draft drafted member
    exact Program.spelled_layout Text.admits_zeroFree (spelled Text.admits_zeroFree strings) _ slot
  · rw [same, instrs]
    exact found

theorem strings_of_compile_newline : ∃ out parsed bound symbols draft image located,
    (compile ⟨8, true⟩ none "x = \"a\\nb\"; y = 1;").result = .ok out ∧
    Program.parse "x = \"a\\nb\"; y = 1;" 8 = .ok parsed ∧
    parsed.resolve .empty = .ok (bound, symbols) ∧ bound.draft = .ok draft ∧
    Image.read out.image = .ok image ∧ Instr.decode image.code = .ok located ∧
    image.strings = draft.code.pool.toList ∧
    Slot.TextsFound image.strings bound.layout (located.map (·.instr)) := by
  have ran : (compile ⟨8, true⟩ none "x = \"a\\nb\"; y = 1;").result.toOption.isSome = true := by
    decide +kernel
  have literals : (tokenize "x = \"a\\nb\"; y = 1;").all (fun item => item.toOption.all fun t =>
      t.kind != .str || decide (Text.ZeroFree (Text.unescape t.text))) = true := by decide +kernel
  obtain ⟨out, compiled⟩ := exists_ok_of_isSome ran
  obtain ⟨header, parsed, bound, symbols, draft, image, located, made, parsing, resolved, drafted,
    -, reading, decoded, -, -, whole, found⟩ := strings_of_compile _ _ _ compiled
  cases made
  have same : image.strings = draft.code.pool.toList := by
    apply whole
    intro t member str
    have literal := List.all_eq_true.mp literals _ member
    simpa [Except.toOption, str] using literal
  exact ⟨out, parsed, bound, symbols, draft, image, located, compiled, parsing, resolved,
    drafted, reading, decoded, same, found same⟩

/-- A literal with a zero character is read back as two texts, and the instruction that was written
for `y` finds the second half of the literal. -/
theorem strings_of_compile_zero : ∃ out parsed bound symbols draft image located,
    (compile ⟨8, true⟩ none "x = \"a\\0b\"; y = 1;").result = .ok out ∧
    Program.parse "x = \"a\\0b\"; y = 1;" 8 = .ok parsed ∧
    parsed.resolve .empty = .ok (bound, symbols) ∧ bound.draft = .ok draft ∧
    Image.read out.image = .ok image ∧ Instr.decode image.code = .ok located ∧
    draft.code.pool.toList = ["x", "a\x00b", "y"] ∧ image.strings = ["x", "a", "b", "y"] ∧
    (located.map (·.instr))[3]? = some ⟨.typeVar, some (.pool (.w8 2))⟩ ∧
    bound.layout[3]? = some (.text .typeVar "y") ∧
    ¬ Slot.TextsFound image.strings bound.layout (located.map (·.instr)) := by
  have ran : (Program.parse "x = \"a\\0b\"; y = 1;" 8).toOption.any (fun p =>
      (p.resolve .empty).toOption.any fun r =>
      r.1.draft.toOption.any fun d => (d.code.image []).toOption.isSome &&
        (d.code.pool.toList = ["x", "a\x00b", "y"] ∧
          d.code.instrs.toList[3]? = some ⟨.typeVar, some (.pool (.w8 2))⟩ ∧
          r.1.layout[3]? = some (.text .typeVar "y"))) = true := by decide +kernel
  obtain ⟨parsed, read, ran⟩ := exists_ok_of_any ran
  obtain ⟨⟨bound, symbols⟩, resolved, ran⟩ := exists_ok_of_any ran
  obtain ⟨draft, drafted, ran⟩ := exists_ok_of_any ran
  obtain ⟨made, code⟩ := Bool.and_eq_true_iff.mp ran
  obtain ⟨pool, instr, slot⟩ := of_decide_eq_true code
  obtain ⟨bytes, written⟩ := exists_ok_of_isSome made
  have compiled : (compile ⟨8, true⟩ none "x = \"a\\0b\"; y = 1;").result =
      .ok ⟨bytes, draft.joined.toList⟩ :=
    compile_result_eq_ok_iff.mpr ⟨.none, parsed, bound, symbols, rfl, read, resolved,
      Program.generate_eq_ok_iff.mpr ⟨draft, drafted, written, rfl⟩⟩
  have plain := Program.spelled_of_resolve Text.admits_any
    (Program.spelled_of_parse (fun _ _ _ => trivial) read) resolved
  have header : Header.ofScript ⟨8, true⟩ none = .ok .none := rfl
  obtain ⟨image, located, reading, decoded, pieces, instrs, -⟩ := Program.exists_read plain
    (Program.spelled_layout Text.admits_any plain) drafted header written
  have strings : image.strings = ["x", "a", "b", "y"] := by
    rw [pieces, pool]
    decide
  have named : (located.map (·.instr))[3]? = some ⟨.typeVar, some (.pool (.w8 2))⟩ := by
    rw [instrs, instr]
  refine ⟨_, parsed, bound, symbols, draft, image, located, compiled, read, resolved,
    drafted, reading, decoded, pool, strings, named, slot, fun found => ?_⟩
  obtain ⟨-, t, same, text⟩ := found 3 .typeVar (.w8 2) named
  rw [slot] at same
  rw [strings] at text
  cases same
  exact absurd text (by decide)

end GraalScript
