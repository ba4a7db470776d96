import GraalScript.Code.Buffer
import GraalScript.Header
import GraalScript.Proofs.Code.Texts
import GraalScript.Proofs.Compilation

/-! Reading an image back. The tables of an image say how long they are but not how many entries
they have, so an entry is what stands between two zero bytes; the start of an image says only by its
first four bytes whether it is a prologue. -/
namespace GraalScript

namespace Text

/-- The parts of a text between its zero characters. -/
def pieces (s : String) : List String := (s.toList.splitOn '\x00').map String.ofList

theorem splitOn_cons (z c : Char) (l : List Char) : ∃ part parts, l.splitOn z = part :: parts ∧
    (c :: l).splitOn z = if c = z then [] :: part :: parts else (c :: part) :: parts := by
  obtain ⟨part, parts, shape⟩ := List.exists_cons_of_ne_nil (List.splitOnP_ne_nil (· == z) l)
  refine ⟨part, parts, shape, ?_⟩
  rw [List.splitOn, List.splitOnP_cons_eq_if_modifyHead, shape]
  simp

theorem flatMap_splitOn (z : Char) (l : List Char) :
    (l.splitOn z).flatMap (· ++ [z]) = l ++ [z] := by
  induction l with
  | nil => rfl
  | cons c l ih =>
    obtain ⟨part, parts, shape, split⟩ := splitOn_cons z c l
    rw [shape] at ih
    rw [split, List.cons_append, ← ih]
    split <;> simp_all

theorem notMem_of_mem_splitOn {z : Char} {l part : List Char} (h : part ∈ l.splitOn z) :
    z ∉ part := by
  induction l generalizing part with
  | nil => simp_all [List.splitOn]
  | cons c l ih =>
    obtain ⟨first, parts, shape, split⟩ := splitOn_cons z c l
    rw [shape] at ih
    rw [split] at h
    split at h
    · grind
    · grind

theorem pieces_of_zeroFree {s : String} (h : ZeroFree s) : pieces s = [s] := by
  have whole : s.toList.splitOn '\x00' = [s.toList] := by
    apply List.splitOnP_eq_singleton
    intro c inside
    rw [beq_eq_false_iff_ne]
    rintro rfl
    exact h inside
  rw [pieces, whole, List.map_singleton, String.ofList_toList]

theorem flatMap_pieces_of_zeroFree {texts : List String} (h : ∀ s ∈ texts, ZeroFree s) :
    texts.flatMap pieces = texts := by
  induction texts with
  | nil => rfl
  | cons s texts ih =>
    rw [List.forall_mem_cons] at h
    rw [List.flatMap_cons, pieces_of_zeroFree h.1, ih h.2]
    rfl

theorem zeroFree_of_mem_pieces {texts : List String} :
    ∀ piece ∈ texts.flatMap pieces, ZeroFree piece := by
  intro piece member
  obtain ⟨s, -, cut⟩ := List.mem_flatMap.mp member
  obtain ⟨part, inside, rfl⟩ := List.mem_map.mp cut
  rw [ZeroFree, String.toList_ofList]
  exact notMem_of_mem_splitOn inside

end Text

theorem Segment.ofId?_id (segment : Segment) : ofId? segment.id = some segment := by
  cases segment <;> rfl

theorem Segment.length_lt_of_write {s : Segment} {payload bytes : List UInt8}
    (h : s.write payload = .ok bytes) : payload.length < 0x100000000 := by
  unfold write at h
  split at h
  next fits => exact fits
  next => cases h

namespace Image

theorem writeText_eq_flatMap_pieces (s : String) :
    writeText s = (Text.pieces s).flatMap writeText := by
  have written (part : List Char) :
      writeText (String.ofList part) = (part ++ ['\x00']).flatMap String.utf8EncodeChar := by
    rw [writeText, Text.bytes_eq_flatMap, String.toList_ofList, List.flatMap_append]
    rfl
  calc writeText s
      = writeText (String.ofList s.toList) := by rw [String.ofList_toList]
    _ = ((s.toList.splitOn '\x00').flatMap (· ++ ['\x00'])).flatMap String.utf8EncodeChar := by
      rw [written, Text.flatMap_splitOn]
    _ = (s.toList.splitOn '\x00').flatMap fun part => writeText (String.ofList part) := by
      rw [List.flatMap_assoc]
      simp only [written]
    _ = (Text.pieces s).flatMap writeText := by
      rw [Text.pieces, List.flatMap_map]

theorem readText_writeText (offset : Nat) {s : String} (h : Text.ZeroFree s) (rest : List UInt8) :
    readText offset (writeText s ++ rest) = .ok (s, offset + (Text.bytes s).length + 1, rest) := by
  rw [writeText, List.append_assoc]
  exact readText_bytes offset h rest

theorem readStrings_of_zeroFree (offset : Nat) (done : Array String) {texts : List String}
    (h : ∀ s ∈ texts, Text.ZeroFree s) :
    readStrings offset done (texts.flatMap writeText) = .ok (done ++ texts) := by
  induction texts generalizing offset done with
  | nil => simp [readStrings]
  | cons s texts ih =>
    rw [List.forall_mem_cons] at h
    have first := readText_writeText offset h.1 (texts.flatMap writeText)
    rw [List.flatMap_cons, readStrings, if_neg (by simp [writeText])]
    split
    · rename_i failed
      cases first.symm.trans failed
    · rename_i found
      cases first.symm.trans found
      rw [ih _ _ h.2]
      simp

theorem readStrings_flatMap (offset : Nat) (texts : List String) :
    readStrings offset #[] (texts.flatMap writeText) = .ok (texts.flatMap Text.pieces).toArray := by
  have cut : texts.flatMap writeText = (texts.flatMap Text.pieces).flatMap writeText := by
    rw [List.flatMap_assoc]
    simp only [← writeText_eq_flatMap_pieces]
  rw [cut, readStrings_of_zeroFree offset #[] Text.zeroFree_of_mem_pieces]
  simp

theorem readFunctions_flatMap (offset : Nat) (done : Array FunctionEntry)
    {functions : List FunctionEntry} (h : ∀ f ∈ functions, Text.ZeroFree f.name) :
    readFunctions offset done (functions.flatMap writeFunction) = .ok (done ++ functions) := by
  induction functions generalizing offset done with
  | nil => simp [readFunctions]
  | cons f functions ih =>
    rw [List.forall_mem_cons] at h
    have number : BigEndian.read32? ((f :: functions).flatMap writeFunction) = some f.opIndex := by
      rw [List.flatMap_cons, writeFunction, List.append_assoc]
      exact BigEndian.read32?_write32 f.opIndex _
    have name : readText (offset + 4) (((f :: functions).flatMap writeFunction).drop 4)
        = .ok (f.name, offset + 4 + (Text.bytes f.name).length + 1,
          functions.flatMap writeFunction) := by
      have behind : ((f :: functions).flatMap writeFunction).drop 4
          = writeText f.name ++ functions.flatMap writeFunction := by
        rw [List.flatMap_cons, writeFunction, List.append_assoc]
        exact List.drop_left' (BigEndian.length_write32 f.opIndex)
      rw [behind]
      exact readText_writeText (offset + 4) h.1 _
    rw [readFunctions, if_neg (by simp [writeFunction, writeText])]
    split
    · rename_i missing
      cases number.symm.trans missing
    · rename_i opIndex found
      cases number.symm.trans found
      split
      · rename_i failed
        cases name.symm.trans failed
      · rename_i found
        cases name.symm.trans found
        rw [ih _ _ h.2]
        simp

theorem readSegments_write {segment : Segment} {payload written : List UInt8}
    (h : segment.write payload = .ok written) {image next : Image} {offset : Nat}
    (added : image.addSegment (offset + 8) segment payload = .ok next) (rest : List UInt8) :
    readSegments offset image (written ++ rest)
      = readSegments (offset + 8 + payload.length) next rest := by
  unfold Segment.write at h
  split at h
  · rename_i small
    cases h
    have length_eq : (UInt32.ofNat payload.length).toNat = payload.length := by
      rw [UInt32.toNat_ofNat']
      omega
    generalize shape : BigEndian.write32 segment.id ++ BigEndian.write32 (.ofNat payload.length)
      ++ payload ++ rest = bytes
    rw [List.append_assoc, List.append_assoc] at shape
    have number : BigEndian.read32? bytes = some segment.id := by
      rw [← shape]
      exact BigEndian.read32?_write32 _ _
    have length : BigEndian.read32? (bytes.drop 4) = some (.ofNat payload.length) := by
      rw [← shape, List.drop_left' (BigEndian.length_write32 _)]
      exact BigEndian.read32?_write32 _ _
    have contents : bytes.drop 8 = payload ++ rest := by
      rw [← shape, ← List.append_assoc]
      exact List.drop_left' (by simp)
    rw [readSegments]
    split
    · rename_i id len found found'
      cases number.symm.trans found
      cases length.symm.trans found'
      rw [contents, length_eq, if_neg (by simp), Segment.ofId?_id]
      simp only [List.take_left, added, List.drop_left]
    · rename_i missing
      exact absurd length (missing _ _ number)
  · cases h

theorem readSegments_short (offset : Nat) (image : Image) (b : UInt8) :
    readSegments offset image [b] = .ok image := by
  rw [readSegments]
  rfl

theorem addSegment_functions (image : Image) (offset : Nat) {functions : List FunctionEntry}
    (names : ∀ f ∈ functions, Text.ZeroFree f.name) :
    image.addSegment offset .functionNames (functions.flatMap writeFunction)
      = .ok { image with functions } := by
  rw [addSegment, readFunctions_flatMap offset #[] names]
  simp [bind, Except.bind, pure, Except.pure]

theorem addSegment_strings (image : Image) (offset : Nat) (pool : List String) :
    image.addSegment offset .strings (pool.flatMap writeText)
      = .ok { image with strings := pool.flatMap Text.pieces } := by
  rw [addSegment, readStrings_flatMap]
  rfl

theorem exists_segments {prologue : List UInt8} {functions : List FunctionEntry}
    {pool : List String} {code bytes : List UInt8}
    (h : write prologue functions pool code = .ok bytes) :
    ∃ flags names strings bytecode, Segment.eventFlags.write (BigEndian.write32 0) = .ok flags ∧
      Segment.functionNames.write (functions.flatMap writeFunction) = .ok names ∧
      Segment.strings.write (pool.flatMap writeText) = .ok strings ∧
      Segment.bytecode.write code = .ok bytecode ∧
      bytes = prologue ++ (flags ++ (names ++ (strings ++ (bytecode ++ [0x0A])))) := by
  simp only [write, bind_eq_ok_iff, pure, Except.pure, Except.ok.injEq] at h
  obtain ⟨flags, hf, names, hn, strings, hs, bytecode, hb, rfl⟩ := h
  exact ⟨flags, names, strings, bytecode, hf, hn, hs, hb, by simp only [List.append_assoc]⟩

/-- What a prologue says about the image behind it, whatever that is: where its segments start and
which section the prologue holds. -/
structure Opens (prologue : List UInt8) (header : Option (List UInt8)) : Prop where
  length_eq : ∀ rest, prologueLength (prologue ++ (BigEndian.write32 1 ++ rest)) = prologue.length
  section_eq : ∀ rest, section? (prologue ++ rest) prologue.length = header

theorem opens_nil : Opens [] none where
  length_eq rest := by
    rw [prologueLength, List.nil_append, BigEndian.read32?_write32]
    rfl
  section_eq rest := rfl

/-- An image is read back as it was written, but for texts with a zero character. -/
theorem read_of_write {prologue : List UInt8} {header : Option (List UInt8)}
    {functions : List FunctionEntry} {pool : List String} {code bytes : List UInt8}
    (h : write prologue functions pool code = .ok bytes) (opens : Opens prologue header)
    (names : ∀ f ∈ functions, Text.ZeroFree f.name) :
    read bytes = .ok ⟨header, functions, pool.flatMap Text.pieces, code⟩ := by
  obtain ⟨flags, functionNames, strings, bytecode, hf, hn, hs, hb, rfl⟩ := exists_segments h
  -- The number of the first segment is what the reader tells a prologue from an image by.
  have flags_eq : flags = BigEndian.write32 1 ++ (BigEndian.write32 4 ++ BigEndian.write32 0) := by
    cases hf
    rfl
  have start : prologueLength
      (prologue ++ (flags ++ (functionNames ++ (strings ++ (bytecode ++ [0x0A]))))) =
        prologue.length := by
    rw [flags_eq, List.append_assoc]
    exact opens.length_eq _
  simp only [read]
  rw [start, opens.section_eq, List.drop_left,
    readSegments_write hf rfl, readSegments_write hn (addSegment_functions _ _ names),
    readSegments_write hs (addSegment_strings _ _ pool), readSegments_write hb rfl,
      readSegments_short]

theorem exists_write {functions : List FunctionEntry} {pool : List String} {code : List UInt8}
    (functions_lt : (functions.flatMap writeFunction).length < 0x100000000)
    (pool_lt : (pool.flatMap writeText).length < 0x100000000) (code_lt : code.length < 0x100000000)
    (prologue : List UInt8) : ∃ bytes, write prologue functions pool code = .ok bytes := by
  simp only [write, Segment.write, if_pos functions_lt, if_pos pool_lt, if_pos code_lt]
  exact ⟨_, rfl⟩

end Image

theorem BigEndian.read32?_cons_ne {a : UInt8} (positive : 0 < a.toNat) {n : UInt32}
    (small : n.toNat < 0x1000000) (rest : List UInt8) : read32? (a :: rest) ≠ some n := by
  intro h
  unfold read32? at h
  split at h
  · rename_i a' b c d _ shape
    cases shape
    cases h
    have := a.toNat_lt
    have := b.toNat_lt
    have := c.toNat_lt
    have := d.toNat_lt
    rw [UInt32.toNat_ofNat'] at small
    omega
  · cases h

namespace Header

theorem length_bytes_title (type name : String) (save : Bool) :
    (Text.bytes (title type name save)).length + keyLength = sectionLength type name := by
  have comma : (Text.bytes ",").length = 1 := by decide
  have flag : (Text.bytes (if save then "1" else "0")).length = 1 := by
    cases save <;> decide
  simp only [title, Text.bytes_append, List.length_append, comma, flag, Text.length_bytes,
    sectionLength]
  omega

/-- A prologue starts with a printable byte, and no number of a segment does. -/
theorem read32?_prologueOf_ne (type name : String) (save : Bool) (rest : List UInt8) :
    BigEndian.read32? (prologueOf type name save ++ rest) ≠ some Segment.eventFlags.id := by
  apply BigEndian.read32?_cons_ne
  · rw [UInt8.toNat_ofNat']
    omega
  · decide

theorem opens_prologueOf {type name : String} (save : Bool)
    (small : sectionLength type name ≤ Printable.maxShort) :
    Image.Opens (prologueOf type name save) (some (Text.bytes (title type name save))) := by
  have title_length := length_bytes_title type name save
  have length_eq : (prologueOf type name save).length = 2 + sectionLength type name := by
    rw [prologueOf, List.length_append, List.length_append, List.length_replicate]
    simp only [Printable.short, List.length_cons, List.length_nil]
    omega
  constructor
  · intro rest
    have value : (UInt16.ofNat (sectionLength type name)).toNat = sectionLength type name := by
      rw [UInt16.toNat_ofNat']
      unfold Printable.maxShort at small
      omega
    rw [Image.prologueLength, if_neg (read32?_prologueOf_ne type name save _), length_eq,
      prologueOf, List.append_assoc, List.append_assoc,
      Printable.short?_short _ _ (by rw [value]; exact small), Option.elim_some, value]
  · intro rest
    have shape : prologueOf type name save ++ rest
        = (Printable.short (.ofNat (sectionLength type name)) ++ Text.bytes (title type name save))
          ++ (List.replicate keyLength (Printable.byte 0) ++ rest) := by
      simp only [prologueOf, List.append_assoc]
    have inside : (12 ≤ (prologueOf type name save).length
        && (prologueOf type name save).length - 10 ≤ (prologueOf type name save ++ rest).length)
          = true := by
      rw [Bool.and_eq_true, decide_eq_true_iff, decide_eq_true_iff, List.length_append, length_eq]
      unfold sectionLength keyLength
      omega
    have title_end : (prologueOf type name save).length - 10
        = (Printable.short (.ofNat (sectionLength type name))
            ++ Text.bytes (title type name save)).length := by
      rw [length_eq, List.length_append, ← title_length]
      simp only [Printable.short, List.length_cons, List.length_nil, keyLength]
      omega
    rw [Image.section?, if_pos inside, title_end, shape, List.take_left]
    rfl

theorem opens_of_make {types : List ScriptType} {save : Bool} {type name : String} {header : Header}
    (h : make types save type name = .ok header) :
    Image.Opens header.prologue (some (Text.bytes (title type name save))) := by
  unfold make at h
  split at h
  · cases h
  rename_i found known
  have same : found.name = type := by
    have := List.find?_some known
    exact beq_iff_eq.mp this
  split at h
  · cases h
  split at h
  · cases h
  rename_i small
  cases h
  rw [same] at small ⊢
  exact opens_prologueOf save (Nat.le_of_not_lt small)

end Header

namespace Buffer

/-- The image of a buffer is read back: its functions, its texts and its code, and of the prologue
the type, the name and the flag of the script. -/
theorem read_image (b : Buffer) (texts : ∀ s ∈ b.pool.toList, Text.ZeroFree s)
    (names : ∀ f ∈ b.functions.toList, Text.ZeroFree f.name)
    (functions_lt : (b.functions.toList.flatMap Image.writeFunction).length < 0x100000000)
    (pool_lt : (b.pool.toList.flatMap Image.writeText).length < 0x100000000)
    (code_lt : b.code.size < 0x100000000) :
    (∃ bytes, b.image [] = .ok bytes ∧
      Image.read bytes = .ok ⟨none, b.functions.toList, b.pool.toList, b.code.toList⟩) ∧
    ∀ types save type name header, Header.make types save type name = .ok header →
      ∃ bytes, b.image header.prologue = .ok bytes ∧
        Image.read bytes = .ok ⟨some (Text.bytes
          (type ++ "," ++ name ++ "," ++ (if save then "1" else "0") ++ ",")),
          b.functions.toList, b.pool.toList, b.code.toList⟩ := by
  have whole := Text.flatMap_pieces_of_zeroFree texts
  have read (prologue : List UInt8) (header : Option (List UInt8))
      (opens : Image.Opens prologue header) : ∃ bytes, b.image prologue = .ok bytes ∧
        Image.read bytes = .ok ⟨header, b.functions.toList, b.pool.toList, b.code.toList⟩ := by
    obtain ⟨bytes, written⟩ := Image.exists_write functions_lt pool_lt code_lt prologue
    have back := Image.read_of_write written opens names
    rw [whole] at back
    exact ⟨bytes, written, back⟩
  refine ⟨read [] none Image.opens_nil, ?_⟩
  intro types save type name header made
  exact read header.prologue _ (Header.opens_of_make made)

/-- A function, a text outside of the first plane, and the prologue of a weapon. -/
theorem read_image_weapon :
    let b : Buffer := { (empty.emit .typeString).emitText "a😀" with
      functions := ⟨#[⟨"onCreated", 1⟩]⟩ }
    (∀ s ∈ b.pool.toList, Text.ZeroFree s) ∧ (∀ f ∈ b.functions.toList, Text.ZeroFree f.name) ∧
    (b.functions.toList.flatMap Image.writeFunction).length < 0x100000000 ∧
    (b.pool.toList.flatMap Image.writeText).length < 0x100000000 ∧ b.code.size < 0x100000000 ∧
    ∃ header bytes, Header.make ScriptType.all true "weapon" "-gun" = .ok header ∧
      b.image header.prologue = .ok bytes ∧
      Image.read bytes = .ok ⟨some (Text.bytes "weapon,-gun,1,"), [⟨"onCreated", 1⟩], ["a😀"],
        [21, 0xF0, 0]⟩ := by
  intro b
  have texts : ∀ s ∈ b.pool.toList, Text.ZeroFree s := by decide +kernel
  have names : ∀ f ∈ b.functions.toList, Text.ZeroFree f.name := by decide +kernel
  have functions_lt : (b.functions.toList.flatMap Image.writeFunction).length < 0x100000000 := by
    decide +kernel
  have pool_lt : (b.pool.toList.flatMap Image.writeText).length < 0x100000000 := by decide +kernel
  have code_lt : b.code.size < 0x100000000 := by decide +kernel
  obtain ⟨header, made⟩ : ∃ header, Header.make ScriptType.all true "weapon" "-gun" = .ok header :=
    ⟨_, rfl⟩
  obtain ⟨-, withHeader⟩ := read_image b texts names functions_lt pool_lt code_lt
  obtain ⟨bytes, written, back⟩ := withHeader _ _ _ _ header made
  exact ⟨texts, names, functions_lt, pool_lt, code_lt, header, bytes, made, written, back⟩

end Buffer

end GraalScript
