import GraalScript.Code.Buffer
import GraalScript.Proofs.Code.Instructions
import Mathlib.Data.List.Forall2
import Mathlib.Data.List.Nodup

/-! A buffer against a list of lines. A buffer writes bytes and overwrites the targets of jumps in
the middle of them; a transcript keeps each operation with its argument, and a jump with the number
of the operation it goes to. The bytes that a run of requests leaves in a buffer are read back as
the lines of its transcript. -/
namespace GraalScript

/-- What is asked of a buffer. A label is named by its jump, counted from the first jump. -/
inductive Buffer.Step where
  | emit (op : Opcode)
  | int (n : UInt32)
  | float (text : String)
  | text (text : String)
  | jump (op : Opcode)
  | patch (jump target : Nat)
  | patchHere (jump : Nat)
  | intern (text : String)
  | function (name : String) (opIndex : Nat)
  deriving DecidableEq, Repr

namespace Buffer

def Step.op? : Step → Option Opcode
  | emit op | jump op => some op
  | _ => none

/-- A buffer and the labels that it has given out. -/
structure Tracked where
  buffer : Buffer
  labels : List Nat

namespace Tracked

def empty : Tracked := ⟨.empty, []⟩

/-- Goes on with the buffer that a patch gives, and with the same one if it fails. -/
def patchedBy (s : Tracked) (jump : Nat) (patch : Nat → Except CodeError Buffer) : Tracked :=
  match s.labels[jump]?.map patch with
  | some (.ok buffer) => { s with buffer }
  | _ => s

def step (s : Tracked) : Step → Tracked
  | .emit op => { s with buffer := s.buffer.emit op }
  | .int n => { s with buffer := s.buffer.emitInt n }
  | .float text => { s with buffer := s.buffer.emitFloat text }
  | .text text => { s with buffer := s.buffer.emitText text }
  | .jump op =>
    let (label, buffer) := s.buffer.emitJump op
    ⟨buffer, s.labels ++ [label]⟩
  | .patch jump target => s.patchedBy jump fun label => s.buffer.patch label target
  | .patchHere jump => s.patchedBy jump s.buffer.patchHere
  | .intern text => { s with buffer := (s.buffer.intern text).2 }
  | .function name opIndex =>
    { s with buffer := (s.buffer.addFunction name opIndex).toOption.getD s.buffer }

def run (s : Tracked) (steps : List Step) : Tracked := steps.foldl step s

end Tracked

end Buffer

/-- What an operation works on. -/
inductive Argument where
  | int (n : UInt32)
  | float (text : String)
  | text (text : String)
  /-- The number of the operation that a jump goes to. -/
  | target (n : Nat)
  deriving DecidableEq, Repr

structure Line where
  op : Opcode
  argument : Option Argument
  deriving DecidableEq, Repr

structure Transcript where
  lines : List Line
  /-- The lines of the jumps, in the order in which they were written. -/
  jumps : List Nat
  /-- The last request wrote an operation that can still be given an argument. -/
  isOpen : Bool
  deriving DecidableEq, Repr

namespace Transcript

def empty : Transcript := ⟨[], [], false⟩

def assign (t : Transcript) (k : Nat) (x : Argument) : Transcript :=
  { t with lines := t.lines.modify k ({ · with argument := some x }), isOpen := false }

/-- Gives the operation just written its argument. -/
def give? (t : Transcript) (x : Argument) : Option Transcript :=
  if t.isOpen then some (t.assign (t.lines.length - 1) x) else none

/-- Points a jump at an operation. A target that is too large changes nothing. -/
def point? (t : Transcript) (jump target : Nat) : Option Transcript :=
  t.jumps[jump]?.map fun k =>
    if target < 0x10000 then t.assign k (.target target) else { t with isOpen := false }

/-- Refuses an argument that does not follow its operation directly, a number whose text has a zero
character, and a jump that has not been written. -/
def step? (t : Transcript) : Buffer.Step → Option Transcript
  | .emit op => some { t with lines := t.lines ++ [⟨op, none⟩], isOpen := true }
  | .int n => t.give? (.int n)
  | .float text => if Text.ZeroFree text then t.give? (.float text) else none
  | .text text => t.give? (.text text)
  | .jump op =>
    some ⟨t.lines ++ [⟨op, some (.target 0)⟩], t.jumps ++ [t.lines.length], false⟩
  | .patch jump target => t.point? jump target
  | .patchHere jump => t.point? jump t.lines.length
  | .intern _ | .function _ _ => some { t with isOpen := false }

def run? (t : Transcript) (steps : List Buffer.Step) : Option Transcript := steps.foldlM step? t

end Transcript

/-- A line and an instruction with the same operation and arguments in a relation. -/
def Line.Pairs (R : Argument → Operand → Prop) (line : Line) (i : Instr) : Prop :=
  i.op = line.op ∧ Option.Rel R line.argument i.operand

theorem Line.Pairs.mono {R S : Argument → Operand → Prop} (weaker : ∀ x y, R x y → S x y)
    {line : Line} {i : Instr} (h : line.Pairs R i) : line.Pairs S i := by
  obtain ⟨op, operand⟩ := i
  obtain ⟨line, argument⟩ := line
  obtain ⟨same, rel⟩ := h
  refine ⟨same, ?_⟩
  cases rel with
  | none => exact .none
  | some related => exact .some (weaker _ _ related)

namespace Argument

/-- The operand has the argument as its value; a text stands in the pool at the operand's number. -/
def Reads (strings : List String) : Argument → Operand → Prop
  | int n, .int w => w.toNat = n.toNat
  | float s, .float read => read = s
  | text s, .pool id => strings[id.toNat]? = some s
  | target n, .int w => w.toNat = n
  | _, _ => False

/-- The operand that a buffer writes for the argument. -/
def Written (pool : Pool) : Argument → Operand → Prop
  | int n, x => x = .int (.narrow n)
  | float s, x => Text.ZeroFree s ∧ x = .float s
  | text s, x => ∃ k, pool.texts[k]? = some s ∧ x = .pool (.narrow (.ofNat k))
  | target n, x => n < 0x10000 ∧ x = .int (.w16 (.ofNat n))

theorem Written.readable {pool : Pool} {x : Argument} {y : Operand} (h : x.Written pool y) :
    y.Readable := by
  cases x with
  | int n =>
    rw [Written] at h
    subst h
    trivial
  | float s =>
    obtain ⟨zeroFree, rfl⟩ := h
    exact zeroFree
  | text s =>
    obtain ⟨k, -, rfl⟩ := h
    trivial
  | target n =>
    obtain ⟨-, rfl⟩ := h
    trivial

theorem Written.reads {pool : Pool} (room : pool.toList.length < 0x100000000) {x : Argument}
    {y : Operand} (h : x.Written pool y) : x.Reads pool.toList y := by
  cases x with
  | int n =>
    rw [Written] at h
    subst h
    exact Word.toNat_narrow n
  | float s =>
    obtain ⟨-, rfl⟩ := h
    rfl
  | text s =>
    obtain ⟨k, found, rfl⟩ := h
    rw [← Array.getElem?_toList] at found
    have small : k < pool.toList.length := (List.getElem?_eq_some_iff.mp found).1
    have number : (Word.narrow (.ofNat k)).toNat = k := by
      rw [Word.toNat_narrow, UInt32.toNat_ofNat']
      omega
    rw [Reads, number]
    exact found
  | target n =>
    obtain ⟨small, rfl⟩ := h
    rw [Reads, Word.toNat, UInt16.toNat_ofNat']
    omega

theorem Written.intern {pool : Pool} {x : Argument} {y : Operand} (h : x.Written pool y)
    (text : String) : x.Written (pool.intern text).2 y := by
  cases x with
  | text s =>
    obtain ⟨k, found, same⟩ := h
    exact ⟨k, Pool.texts_intern_of_texts found text, same⟩
  | _ => exact h

end Argument

/-- The target of the jump at line `k` is written from `label` on. -/
def Instr.IsLabel (instrs : List Instr) (label k : Nat) : Prop :=
  (∃ op n, instrs[k]? = some ⟨op, some (.int (.w16 n))⟩) ∧
    label = (encodeAll (instrs.take k)).length + 2

namespace Instr

theorem IsLabel.append {instrs : List Instr} {label k : Nat} (h : IsLabel instrs label k)
    (more : List Instr) : IsLabel (instrs ++ more) label k := by
  obtain ⟨⟨op, n, found⟩, place⟩ := h
  have inside : k < instrs.length := (List.getElem?_eq_some_iff.mp found).1
  refine ⟨⟨op, n, ?_⟩, ?_⟩
  · rw [List.getElem?_append_left inside, found]
  · rw [List.take_append_of_le_length (Nat.le_of_lt inside), place]

theorem IsLabel.of_append_none {instrs : List Instr} {op : Opcode} {label k : Nat}
    (h : IsLabel (instrs ++ [⟨op, none⟩]) label k) : IsLabel instrs label k := by
  obtain ⟨⟨op', n, found⟩, place⟩ := h
  have inside : k < instrs.length := by
    by_contra beyond
    rw [List.getElem?_append_right (Nat.le_of_not_lt beyond)] at found
    have := List.mem_of_getElem? found
    simp at this
  rw [List.getElem?_append_left inside] at found
  rw [List.take_append_of_le_length (Nat.le_of_lt inside)] at place
  exact ⟨⟨op', n, found⟩, place⟩

theorem length_encodeAll_set {instrs : List Instr} {k : Nat} {i i' : Instr}
    (found : instrs[k]? = some i) (same : i'.encode.length = i.encode.length) :
    (encodeAll (instrs.set k i')).length = (encodeAll instrs).length := by
  induction instrs generalizing k with
  | nil => cases found
  | cons j instrs ih =>
    cases k with
    | zero =>
      cases found
      simp [same]
    | succ k => simp [ih found]

theorem IsLabel.set {instrs : List Instr} {label k j : Nat} (h : IsLabel instrs label k)
    {op : Opcode} {n : UInt16} (jump : instrs[j]? = some ⟨op, some (.int (.w16 n))⟩) (m : UInt16) :
    IsLabel (instrs.set j ⟨op, some (.int (.w16 m))⟩) label k := by
  obtain ⟨⟨op', n', found⟩, place⟩ := h
  refine ⟨?_, ?_⟩
  · by_cases same : j = k
    · subst same
      refine ⟨op, m, ?_⟩
      rw [List.getElem?_set_self (List.getElem?_eq_some_iff.mp jump).1]
    · exact ⟨op', n', by rw [List.getElem?_set_ne same, found]⟩
  · rw [place, List.take_set]
    by_cases before : j < k
    -- The jump before `k` keeps its length, so `k` stays where it is.
    · have there : (instrs.take k)[j]? = some ⟨op, some (.int (.w16 n))⟩ := by
        rw [List.getElem?_take_of_lt before, jump]
      have kept : (encodeAll ((instrs.take k).set j ⟨op, some (.int (.w16 m))⟩)).length
          = (encodeAll (instrs.take k)).length := length_encodeAll_set there rfl
      rw [kept]
    · rw [List.set_eq_of_length_le]
      rw [List.length_take]
      omega

theorem encodeAll_set_jump {instrs : List Instr} {k : Nat} {op : Opcode} {n : UInt16}
    (jump : instrs[k]? = some ⟨op, some (.int (.w16 n))⟩) {target : Nat}
    (small : target < 0x10000) :
    let label := (encodeAll (instrs.take k)).length + 2
    label + 2 ≤ (encodeAll instrs).length ∧
    encodeAll (instrs.set k ⟨op, some (.int (.w16 (.ofNat target)))⟩)
      = ((encodeAll instrs).set label (.ofNat (target / 0x100))).set (label + 1)
        (.ofNat target) := by
  have value : (UInt16.ofNat target).toNat = target := by
    rw [UInt16.toNat_ofNat']
    omega
  induction instrs generalizing k with
  | nil => cases jump
  | cons i instrs ih =>
    cases k with
    | zero =>
      cases jump
      refine ⟨?_, ?_⟩
      · simp [encode, Operand.encode, Word.encode]
      · simp [encode, Operand.encode, Word.encode, BigEndian.write16, value]
    | succ k =>
      -- The label counts from the start of the code; in the rest it is lower by the first
      -- instruction.
      obtain ⟨inside, same⟩ := ih jump
      simp only [List.take_succ_cons, List.set_cons_succ, encodeAll_cons, List.length_append] at *
      refine ⟨by omega, ?_⟩
      rw [same, List.set_append_right _ _ (by omega), List.set_append_right _ _ (by omega)]
      congr 3 <;> omega

end Instr

theorem Buffer.toList_code_emitOperand (b : Buffer) (x : Operand) :
    (b.emitOperand x).code.toList = b.code.toList ++ x.encode := by
  have pushed : x.encode.foldl Array.push b.code = b.code ++ (x.encode.map id).toArray :=
    List.foldl_push_eq_append
  rw [emitOperand, pushed]
  simp

/-- A label takes every target below 0x10000, and then the bytes write this target. -/
theorem Buffer.patch_of_isLabel {b : Buffer} {instrs : List Instr} {label k : Nat}
    (code : b.code.toList = Instr.encodeAll instrs) (h : Instr.IsLabel instrs label k)
    {target : Nat} (small : target < 0x10000) :
    ∃ op n b', instrs[k]? = some ⟨op, some (.int (.w16 n))⟩ ∧ b.patch label target = .ok b' ∧
      b'.code.toList = Instr.encodeAll (instrs.set k ⟨op, some (.int (.w16 (.ofNat target)))⟩) ∧
      b'.ops = b.ops ∧ b'.pool = b.pool ∧ b'.functions = b.functions ∧ b'.lastOp? = b.lastOp? := by
  obtain ⟨⟨op, n, jump⟩, rfl⟩ := h
  obtain ⟨inside, written⟩ := Instr.encodeAll_set_jump jump small
  rw [← code] at inside written
  have patched := patch.eq_def b ((Instr.encodeAll (instrs.take k)).length + 2) target
  rw [if_neg (by omega), if_pos (by simpa using inside)] at patched
  refine ⟨op, n, _, jump, patched, ?_, rfl, rfl, rfl, rfl⟩
  rw [Array.toList_setIfInBounds, Array.toList_setIfInBounds, written]

namespace Transcript

/-- The bytes of the buffer write these instructions, which are the lines of the transcript; the
labels are those of its jumps; and an operation that waits for its argument comes last. -/
structure Writes (t : Transcript) (s : Buffer.Tracked) (instrs : List Instr) : Prop where
  code : s.buffer.code.toList = Instr.encodeAll instrs
  ops : s.buffer.ops = instrs.length
  lines : List.Forall₂ (Line.Pairs (Argument.Written s.buffer.pool)) t.lines instrs
  labels : List.Forall₂ (Instr.IsLabel instrs) s.labels t.jumps
  opened : t.isOpen = true → ∃ before op, instrs = before ++ [⟨op, none⟩]

theorem writes_empty : empty.Writes .empty [] where
  code := rfl
  ops := rfl
  lines := .nil
  labels := .nil
  opened := nofun

theorem forall₂_assign {R : Argument → Operand → Prop} {lines : List Line} {instrs : List Instr}
    (h : List.Forall₂ (Line.Pairs R) lines instrs) {k : Nat} {op : Opcode} {old : Option Operand}
    (found : instrs[k]? = some ⟨op, old⟩) {x : Argument} {y : Operand} (related : R x y) :
    List.Forall₂ (Line.Pairs R) (lines.modify k ({ · with argument := some x }))
      (instrs.set k ⟨op, some y⟩) := by
  induction h generalizing k with
  | nil => cases found
  | cons first rest ih =>
    cases k with
    | zero =>
      cases found
      exact .cons ⟨first.1, .some related⟩ rest
    | succ k => exact .cons first (ih found)

variable {t t' : Transcript} {s : Buffer.Tracked} {instrs : List Instr}

theorem Writes.length_lines (h : t.Writes s instrs) : t.lines.length = s.buffer.ops := by
  rw [h.ops, h.lines.length_eq]

theorem Writes.emit (h : t.Writes s instrs) (op : Opcode) :
    Writes { t with lines := t.lines ++ [⟨op, none⟩], isOpen := true }
      { s with buffer := s.buffer.emit op } (instrs ++ [⟨op, none⟩]) where
  code := by simp [Buffer.emit, h.code, Instr.encode]
  ops := by simp [Buffer.emit, h.ops]
  lines := List.rel_append h.lines (.cons ⟨rfl, .none⟩ .nil)
  labels := h.labels.imp fun _ _ label => label.append _
  opened := fun _ => ⟨instrs, op, rfl⟩

theorem Writes.give {before : List Instr} {op : Opcode} (h : t.Writes s (before ++ [⟨op, none⟩]))
    {x : Argument} {y : Operand} {pool : Pool}
    (kept : ∀ x y, Argument.Written s.buffer.pool x y → Argument.Written pool x y)
    (written : x.Written pool y) :
    (t.assign (t.lines.length - 1) x).Writes
      { s with buffer := { s.buffer with pool }.emitOperand y } (before ++ [⟨op, some y⟩]) where
  code := by
    rw [Buffer.toList_code_emitOperand]
    simp [h.code, Instr.encode]
  ops := by simp [Buffer.emitOperand, h.ops]
  lines := by
    -- The bytes of the operand land behind the last operation, which has none yet.
    have place : t.lines.length - 1 = before.length := by
      rw [h.lines.length_eq]
      simp
    have last : (before ++ [⟨op, none⟩])[before.length]? = some (⟨op, none⟩ : Instr) := by simp
    have assigned := forall₂_assign (h.lines.imp fun _ _ => Line.Pairs.mono kept) last written
    rw [List.set_append_right _ _ (Nat.le_refl _), Nat.sub_self] at assigned
    rw [assign, place]
    exact assigned
  labels := h.labels.imp fun _ _ label => label.of_append_none.append _
  opened := nofun

theorem give?_eq_some {x : Argument} (accepted : t.give? x = some t') :
    t.isOpen = true ∧ t' = t.assign (t.lines.length - 1) x := by
  unfold give? at accepted
  split at accepted
  next isOpen =>
    cases accepted
    exact ⟨isOpen, rfl⟩
  next => cases accepted

theorem Writes.give? (h : t.Writes s instrs) {x : Argument} {y : Operand} {pool : Pool}
    (accepted : t.give? x = some t')
    (kept : ∀ x y, Argument.Written s.buffer.pool x y → Argument.Written pool x y)
    (written : x.Written pool y) :
    ∃ instrs', t'.Writes { s with buffer := { s.buffer with pool }.emitOperand y } instrs' := by
  obtain ⟨isOpen, rfl⟩ := give?_eq_some accepted
  obtain ⟨before, op, rfl⟩ := h.opened isOpen
  exact ⟨_, h.give kept written⟩

theorem Writes.jump (h : t.Writes s instrs) (op : Opcode) :
    Writes ⟨t.lines ++ [⟨op, some (.target 0)⟩], t.jumps ++ [t.lines.length], false⟩
      ⟨(s.buffer.emitJump op).2, s.labels ++ [(s.buffer.emitJump op).1]⟩
      (instrs ++ [⟨op, some (.int (.w16 0))⟩]) where
  code := by
    rw [Buffer.emitJump, Buffer.toList_code_emitOperand]
    simp [Buffer.emit, h.code, Instr.encode]
  ops := by simp [Buffer.emitJump, Buffer.emit, Buffer.emitOperand, h.ops]
  lines := List.rel_append h.lines (.cons ⟨rfl, .some ⟨by decide, rfl⟩⟩ .nil)
  labels := by
    have own : Instr.IsLabel (instrs ++ [⟨op, some (.int (.w16 0))⟩]) (s.buffer.emitJump op).1
        t.lines.length := by
      rw [h.lines.length_eq]
      refine ⟨⟨op, 0, by simp⟩, ?_⟩
      rw [List.take_left, ← h.code, Buffer.emitJump, Array.length_toList]
    exact List.rel_append (h.labels.imp fun _ _ label => label.append _) (.cons own .nil)
  opened := nofun

theorem Writes.intern (h : t.Writes s instrs) (text : String) :
    Writes { t with isOpen := false } { s with buffer := (s.buffer.intern text).2 } instrs where
  code := h.code
  ops := h.ops
  lines := h.lines.imp fun _ _ => Line.Pairs.mono fun _ _ written => written.intern text
  labels := h.labels
  opened := nofun

theorem Writes.function (h : t.Writes s instrs) (name : String) (opIndex : Nat) :
    Writes { t with isOpen := false } (s.step (.function name opIndex)) instrs := by
  have kept (b : Buffer) (added : s.buffer.addFunction name opIndex = .ok b) :
      ∃ functions, b = { s.buffer with functions } := by
    unfold Buffer.addFunction at added
    cases result : s.buffer.functions.add name opIndex with
    | error e =>
      rw [result] at added
      cases added
    | ok functions =>
      rw [result] at added
      cases added
      exact ⟨functions, rfl⟩
  rw [Buffer.Tracked.step]
  cases added : s.buffer.addFunction name opIndex with
  | error e => exact ⟨h.code, h.ops, h.lines, h.labels, nofun⟩
  | ok b =>
    obtain ⟨functions, rfl⟩ := kept b added
    exact ⟨h.code, h.ops, h.lines, h.labels, nofun⟩

theorem Writes.exists_label (h : t.Writes s instrs) {jump k : Nat}
    (known : t.jumps[jump]? = some k) :
    ∃ label, s.labels[jump]? = some label ∧ Instr.IsLabel instrs label k := by
  obtain ⟨inside, rfl⟩ := List.getElem?_eq_some_iff.mp known
  have inside' : jump < s.labels.length := by
    rw [h.labels.length_eq]
    exact inside
  exact ⟨s.labels[jump], List.getElem?_eq_getElem inside', h.labels.get inside' inside⟩

theorem Writes.exists_line (h : t.Writes s instrs) {jump label : Nat}
    (given : s.labels[jump]? = some label) : ∃ k, Instr.IsLabel instrs label k := by
  obtain ⟨inside, rfl⟩ := List.getElem?_eq_some_iff.mp given
  have inside' : jump < t.jumps.length := by
    rw [← h.labels.length_eq]
    exact inside
  exact ⟨t.jumps[jump], h.labels.get inside inside'⟩

theorem Writes.point (h : t.Writes s instrs) {jump k target : Nat} (known : t.jumps[jump]? = some k)
    (small : target < 0x10000) :
    ∃ op n b, instrs[k]? = some ⟨op, some (.int (.w16 n))⟩ ∧
      (s.patchedBy jump fun label => s.buffer.patch label target) = { s with buffer := b } ∧
      b.pool = s.buffer.pool ∧ b.functions = s.buffer.functions ∧ b.lastOp? = s.buffer.lastOp? ∧
      (t.assign k (.target target)).Writes { s with buffer := b }
        (instrs.set k ⟨op, some (.int (.w16 (.ofNat target)))⟩) := by
  obtain ⟨label, given, isLabel⟩ := h.exists_label known
  obtain ⟨op, n, b, found, patched, code, ops, pool, functions, last⟩ :=
    Buffer.patch_of_isLabel h.code isLabel small
  refine ⟨op, n, b, found, ?_, pool, functions, last, code, ?_, ?_, ?_, nofun⟩
  · simp only [Buffer.Tracked.patchedBy, given, Option.map_some, patched]
  · rw [ops, h.ops, List.length_set]
  · rw [pool]
    exact forall₂_assign h.lines found ⟨small, rfl⟩
  · exact h.labels.imp fun _ _ other => other.set found _

theorem Writes.point? (h : t.Writes s instrs) {jump target : Nat}
    (accepted : t.point? jump target = some t') :
    ∃ instrs', t'.Writes (s.patchedBy jump fun label => s.buffer.patch label target) instrs' := by
  obtain ⟨k, known, rfl⟩ := Option.map_eq_some_iff.mp accepted
  by_cases small : target < 0x10000
  · obtain ⟨op, n, b, -, patched, -, -, -, writes⟩ := h.point known small
    rw [if_pos small, patched]
    exact ⟨_, writes⟩
  · obtain ⟨label, given, -⟩ := h.exists_label known
    have failed : s.buffer.patch label target = .error (.jumpOutOfRange target) := by
      rw [Buffer.patch, if_pos (Nat.le_of_not_lt small)]
    refine ⟨instrs, ?_⟩
    simp only [Buffer.Tracked.patchedBy, given, Option.map_some, failed, if_neg small]
    exact ⟨h.code, h.ops, h.lines, h.labels, nofun⟩

theorem Writes.step (h : t.Writes s instrs) {x : Buffer.Step} (accepted : t.step? x = some t') :
    ∃ instrs', t'.Writes (s.step x) instrs' := by
  cases x with
  | emit op =>
    cases accepted
    exact ⟨_, h.emit op⟩
  | int n => exact h.give? accepted (fun _ _ => id) rfl
  | float text =>
    rw [step?] at accepted
    split at accepted
    · rename_i zeroFree
      exact h.give? accepted (fun _ _ => id) ⟨zeroFree, rfl⟩
    · cases accepted
  | text text =>
    exact h.give? accepted (fun _ _ written => written.intern text)
      ⟨_, s.buffer.pool.texts_intern text, rfl⟩
  | jump op =>
    cases accepted
    exact ⟨_, h.jump op⟩
  | patch jump target => exact h.point? accepted
  | patchHere jump =>
    rw [step?, h.length_lines] at accepted
    exact h.point? accepted
  | intern text =>
    cases accepted
    exact ⟨_, h.intern text⟩
  | function name opIndex =>
    cases accepted
    exact ⟨_, h.function name opIndex⟩

theorem Writes.run (h : t.Writes s instrs) {steps : List Buffer.Step}
    (accepted : t.run? steps = some t') : ∃ instrs', t'.Writes (s.run steps) instrs' := by
  induction steps generalizing t s instrs with
  | nil =>
    cases accepted
    exact ⟨instrs, h⟩
  | cons x steps ih =>
    rw [run?, List.foldlM_cons] at accepted
    obtain ⟨next, first, rest⟩ := Option.bind_eq_some_iff.mp accepted
    obtain ⟨instrs', h'⟩ := h.step first
    exact ih h' rest

theorem map_op_assign (t : Transcript) (k : Nat) (x : Argument) :
    (t.assign k x).lines.map (·.op) = t.lines.map (·.op) := by
  apply List.ext_getElem?
  intro j
  rw [assign, List.getElem?_map, List.getElem?_modify, List.getElem?_map]
  cases t.lines[j]? with
  | none => rfl
  | some line =>
    simp only [Option.map_some]
    split <;> rfl

theorem map_op_step {x : Buffer.Step} (accepted : t.step? x = some t') :
    t'.lines.map (·.op) = t.lines.map (·.op) ++ x.op?.toList := by
  have given : ∀ {y}, t.give? y = some t' → t'.lines.map (·.op) = t.lines.map (·.op) ++ [] := by
    intro y accepted
    obtain ⟨-, rfl⟩ := give?_eq_some accepted
    rw [map_op_assign, List.append_nil]
  have pointed : ∀ {jump target}, t.point? jump target = some t' →
      t'.lines.map (·.op) = t.lines.map (·.op) ++ [] := by
    intro jump target accepted
    obtain ⟨k, -, rfl⟩ := Option.map_eq_some_iff.mp accepted
    split
    · rw [map_op_assign, List.append_nil]
    · rw [List.append_nil]
  cases x with
  | emit op | jump op =>
    cases accepted
    exact List.map_append
  | int n => exact given accepted
  | float text =>
    rw [step?] at accepted
    split at accepted
    · exact given accepted
    · cases accepted
  | text text => exact given accepted
  | patch jump target => exact pointed accepted
  | patchHere jump => exact pointed accepted
  | intern _ | function _ _ =>
    cases accepted
    exact (List.append_nil _).symm

theorem map_op_of_pairs {R : Argument → Operand → Prop} {lines : List Line}
    (h : List.Forall₂ (Line.Pairs R) lines instrs) :
    instrs.map (·.op) = lines.map (·.op) := by
  induction h with
  | nil => rfl
  | cons first rest ih => rw [List.map_cons, List.map_cons, first.1, ih]

/-- The lines hold the operations that were asked for, in their order. -/
theorem map_op_run {steps : List Buffer.Step} (accepted : t.run? steps = some t') :
    t'.lines.map (·.op) = t.lines.map (·.op) ++ steps.filterMap Buffer.Step.op? := by
  induction steps generalizing t with
  | nil =>
    cases accepted
    exact (List.append_nil _).symm
  | cons x steps ih =>
    rw [run?, List.foldlM_cons] at accepted
    obtain ⟨next, first, rest⟩ := Option.bind_eq_some_iff.mp accepted
    rw [ih rest, map_op_step first, List.append_assoc, List.filterMap_cons]
    cases x.op? <;> rfl

theorem readable_of_written {pool : Pool} {lines : List Line}
    (h : List.Forall₂ (Line.Pairs (Argument.Written pool)) lines instrs) :
    ∀ i ∈ instrs, i.Readable := by
  induction h with
  | nil => exact List.forall_mem_nil _
  | @cons line i _ _ first rest ih =>
    refine List.forall_mem_cons.mpr ⟨?_, ih⟩
    intro x operand
    obtain ⟨-, related⟩ := first
    rw [Option.mem_def.mp operand] at related
    generalize line.argument = argument at related
    cases related with
    | some written => exact written.readable

theorem exists_decode_of_written {pool : Pool} {lines : List Line}
    (room : pool.toList.length < 0x100000000)
    (h : List.Forall₂ (Line.Pairs (Argument.Written pool)) lines instrs) :
    ∃ located, Instr.decode (Instr.encodeAll instrs) = .ok located ∧
      located.map (·.instr) = instrs ∧
      List.Forall₂ (Line.Pairs (Argument.Reads pool.toList)) lines instrs := by
  refine ⟨Instr.locate 0 0 instrs, Instr.decode_encodeAll (readable_of_written h),
    Instr.map_instr_locate 0 0 instrs, ?_⟩
  exact h.imp fun _ _ => Line.Pairs.mono fun _ _ written => written.reads room

theorem Writes.decode (h : t.Writes s instrs)
    (room : s.buffer.pool.toList.length < 0x100000000) :
    ∃ located, Instr.decode s.buffer.code.toList = .ok located ∧ located.length = s.buffer.ops ∧
      List.Forall₂ (Line.Pairs (Argument.Reads s.buffer.pool.toList)) t.lines
        (located.map (·.instr)) := by
  obtain ⟨located, decoded, same, reads⟩ := exists_decode_of_written room h.lines
  refine ⟨located, by rw [h.code, decoded], ?_, by rw [same]; exact reads⟩
  rw [h.ops, ← same, List.length_map]

end Transcript

theorem Pool.nodup_toList (p : Pool) : p.toList.Nodup := by
  rw [List.nodup_iff_getElem?_ne_getElem?]
  intro i j before inside same
  have last : p.texts[j]? = some p.toList[j] := by
    rw [← Array.getElem?_toList]
    exact List.getElem?_eq_getElem inside
  have first : p.texts[i]? = some p.toList[j] := by
    rw [← last, ← Array.getElem?_toList, ← Array.getElem?_toList]
    exact same
  exact Nat.ne_of_lt before (p.eq_of_texts_eq first last)

namespace Buffer

/-- What a run of requests leaves in a buffer is read back as its transcript: the operations in
their order, each with its argument, a jump with the last target that it was given. A target of
0x10000 or more is refused and leaves the buffer as it is. -/
theorem decode_run {steps : List Step} {t : Transcript}
    (accepted : Transcript.empty.run? steps = some t)
    (room : (Tracked.empty.run steps).buffer.pool.toList.length < 0x100000000) :
    let s := Tracked.empty.run steps
    (∃ located, Instr.decode s.buffer.code.toList = .ok located ∧
      located.map (·.instr.op) = steps.filterMap Step.op? ∧
      List.Forall₂ (Line.Pairs (Argument.Reads s.buffer.pool.toList)) t.lines
        (located.map (·.instr)) ∧
      s.buffer.ops = located.length) ∧
    s.buffer.pool.toList.Nodup ∧
    ∀ jump label, s.labels[jump]? = some label → ∀ target,
      (target < 0x10000 → ∃ b, s.buffer.patch label target = .ok b) ∧
      (0x10000 ≤ target → s.buffer.patch label target = .error (.jumpOutOfRange target) ∧
        s.step (.patch jump target) = s) := by
  intro s
  obtain ⟨instrs, writes⟩ := Transcript.writes_empty.run accepted
  obtain ⟨located, decoded, count, lines⟩ := writes.decode room
  refine ⟨⟨located, decoded, ?_, lines, count.symm⟩, s.buffer.pool.nodup_toList, ?_⟩
  · have ops := Transcript.map_op_run accepted
    rw [← Transcript.map_op_of_pairs lines, List.map_map] at ops
    exact ops
  · intro jump label given target
    refine ⟨fun small => ?_, fun large => ?_⟩
    · obtain ⟨k, isLabel⟩ := writes.exists_line given
      obtain ⟨-, -, b, -, patched, -⟩ := Buffer.patch_of_isLabel writes.code isLabel small
      exact ⟨b, patched⟩
    · have failed : s.buffer.patch label target = .error (.jumpOutOfRange target) := by
        rw [patch, if_pos large]
      refine ⟨failed, ?_⟩
      simp only [Tracked.step, Tracked.patchedBy, given, Option.map_some, failed]

/-- Two jumps, one patched twice and one refused a target in between. -/
theorem decode_run_jumps :
    let steps : List Step :=
      [.jump .ifThen, .emit .typeNumber, .int 300, .emit .typeString, .text "a",
      .intern "b", .emit .typeNumber, .float "1.5", .jump .jmp, .patch 1 0, .patchHere 0,
      .patch 0 70000, .patch 1 3, .emit .typeVar, .text "b", .emit .ret]
    let s := Tracked.empty.run steps
    Transcript.empty.run? steps =
      some ⟨[⟨.ifThen, some (.target 5)⟩, ⟨.typeNumber, some (.int 300)⟩,
        ⟨.typeString, some (.text "a")⟩, ⟨.typeNumber, some (.float "1.5")⟩,
        ⟨.jmp, some (.target 3)⟩, ⟨.typeVar, some (.text "b")⟩, ⟨.ret, none⟩], [0, 4], true⟩ ∧
    s.buffer.pool.toList.length < 0x100000000 ∧
    ∃ located, Instr.decode s.buffer.code.toList = .ok located ∧
      located.map (·.instr.op)
        = [.ifThen, .typeNumber, .typeString, .typeNumber, .jmp, .typeVar, .ret] := by
  intro steps s
  have room : s.buffer.pool.toList.length < 0x100000000 := by decide +kernel
  refine ⟨by decide, room, ?_⟩
  obtain ⟨⟨located, decoded, ops, -⟩, -⟩ := @decode_run steps _ rfl room
  exact ⟨located, decoded, ops⟩

end Buffer

end GraalScript
