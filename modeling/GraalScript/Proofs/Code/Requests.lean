import GraalScript.Code.Assembly
import GraalScript.Proofs.Code.Transcript
import Mathlib.Logic.Relation

/-! Code under construction, as instructions and as bytes. What is done to the instructions is asked
of a buffer in one or two requests, and the bytes of the buffer are those of the instructions at
every point: an operand is written behind its operation, a target of a jump over the one that stood
there. -/
namespace GraalScript

namespace Assembly

/-- What can be done to code under construction. -/
inductive Step : Assembly → Assembly → Prop
  | emit (a : Assembly) (op : Opcode) : Step a (a.emit op)
  | int (a : Assembly) (op : Opcode) (n : UInt32) : Step a (a.emitInt op n)
  | float (a : Assembly) (op : Opcode) (text : String) : Step a (a.emitFloat op text)
  | text (a : Assembly) (op : Opcode) (text : String) : Step a (a.emitText op text)
  | jump (a : Assembly) (op : Opcode) : Step a (a.emitJump op).2
  | patch {a a' : Assembly} {label : Label} {target : Nat} (h : a.patch label target = .ok a') :
    Step a a'
  | function {a a' : Assembly} {name : String} (h : a.addFunction name = .ok a') : Step a a'

abbrev Builds : Assembly → Assembly → Prop := Relation.ReflTransGen Step

variable {a a' : Assembly}

theorem patch_eq_ok {label : Label} {target : Nat} (h : a.patch label target = .ok a') :
    target < 0x10000 ∧ label ∈ a.waiting ∧ a' = { a with
      instrs := a.instrs.modify label fun i => ⟨i.op, some (.int (.w16 (.ofNat target)))⟩
      waiting := a.waiting.erase label } := by
  unfold patch at h
  split at h
  next => cases h
  next small =>
    split at h
    next waits =>
      cases h
      exact ⟨Nat.lt_of_not_le small, waits, rfl⟩
    next => cases h

theorem addFunction_eq_ok {name : String} (h : a.addFunction name = .ok a') :
    ∃ functions, a.functions.add name a.size = .ok functions ∧ a' = { a with functions } := by
  unfold addFunction at h
  cases added : a.functions.add name a.size with
  | error e =>
    rw [added] at h
    cases h
  | ok functions =>
    rw [added] at h
    cases h
    exact ⟨functions, rfl, rfl⟩

def JumpsWait (a : Assembly) : Prop :=
  ∀ label ∈ a.waiting, ∃ op n, a.instrs[label]? = some ⟨op, some (.int (.w16 n))⟩

theorem jumpsWait_empty : empty.JumpsWait := nofun

theorem JumpsWait.append (h : a.JumpsWait) {i : Instr} (instrs : a'.instrs = a.instrs.push i)
    (waiting : ∀ label ∈ a'.waiting, label ∈ a.waiting ∨
      label = a.size ∧ ∃ op n, i = ⟨op, some (.int (.w16 n))⟩) : a'.JumpsWait := by
  intro label waits
  rcases waiting label waits with old | ⟨rfl, op, n, rfl⟩
  · obtain ⟨op, n, found⟩ := h label old
    refine ⟨op, n, ?_⟩
    rw [instrs, Array.getElem?_push_lt (Array.getElem?_eq_some_iff.mp found).1]
    exact congrArg some (Array.getElem?_eq_some_iff.mp found).2
  · refine ⟨op, n, ?_⟩
    rw [instrs, size, Array.getElem?_push_size]

theorem Step.jumpsWait (step : Step a a') (h : a.JumpsWait) : a'.JumpsWait := by
  cases step with
  | emit | int | float | text => exact h.append rfl fun _ waits => .inl waits
  | jump op =>
    refine h.append rfl fun label waits => ?_
    rcases List.mem_cons.mp waits with own | old
    · exact .inr ⟨own, op, 0, rfl⟩
    · exact .inl old
  | patch patched =>
    rename_i label target
    obtain ⟨-, -, rfl⟩ := patch_eq_ok patched
    intro other waits
    obtain ⟨op, n, found⟩ := h other (List.mem_of_mem_erase waits)
    rw [Array.getElem?_modify, found]
    split
    · exact ⟨op, _, rfl⟩
    · exact ⟨op, n, rfl⟩
  | function added =>
    obtain ⟨functions, -, rfl⟩ := addFunction_eq_ok added
    exact h

/-- No step makes readable what was not: only jumps are overwritten. -/
theorem Step.readable_of_readable (step : Step a a') (h : a.JumpsWait)
    (readable : ∀ i ∈ a'.instrs.toList, i.Readable) : ∀ i ∈ a.instrs.toList, i.Readable := by
  cases step with
  | emit | int | float | text | jump =>
    intro i inside
    refine readable i (Array.mem_toList_iff.mpr (Array.mem_push_of_mem _ ?_))
    exact Array.mem_toList_iff.mp inside
  | patch patched =>
    rename_i label target
    obtain ⟨-, waits, rfl⟩ := patch_eq_ok patched
    intro i inside
    obtain ⟨k, at_k⟩ := List.mem_iff_getElem?.mp inside
    rw [Array.getElem?_toList] at at_k
    by_cases same : label = k
    · obtain ⟨op, n, found⟩ := h label waits
      rw [same, at_k] at found
      cases found
      intro x operand
      cases operand
      trivial
    · refine readable i (List.mem_iff_getElem?.mpr ⟨k, ?_⟩)
      rw [Array.getElem?_toList, Array.getElem?_modify, at_k, if_neg same]
  | function added =>
    obtain ⟨functions, -, rfl⟩ := addFunction_eq_ok added
    exact readable

end Assembly

namespace Transcript

/-- A buffer and the instructions that it holds, with all that else can be asked of them. Every jump
that waits for its target has a label. -/
structure Assembles (t : Transcript) (s : Buffer.Tracked) (a : Assembly) : Prop where
  writes : t.Writes s a.instrs.toList
  lastOp : s.buffer.lastOp? = a.lastOp?
  pool : s.buffer.pool = a.pool
  functions : s.buffer.functions = a.functions
  waiting : ∀ label ∈ a.waiting, label ∈ t.jumps

theorem assembles_empty : empty.Assembles .empty .empty where
  writes := writes_empty
  lastOp := rfl
  pool := rfl
  functions := rfl
  waiting := nofun

variable {t : Transcript} {s : Buffer.Tracked} {a a' : Assembly}

theorem Assembles.size (h : t.Assembles s a) : s.buffer.ops = a.size := by
  rw [h.writes.ops, Array.length_toList, Assembly.size]

theorem Assembles.image (h : t.Assembles s a) (prologue : List UInt8) :
    s.buffer.image prologue = a.image prologue := by
  rw [Buffer.image, h.functions, h.pool, h.writes.code, Assembly.image, Assembly.code]

def Reaches (t : Transcript) (s : Buffer.Tracked) (a : Assembly) : Prop :=
  ∃ more t', t.run? more = some t' ∧ t'.Assembles (s.run more) a

theorem Assembles.emit (h : t.Assembles s a) (op : Opcode) : t.Reaches s (a.emit op) := by
  refine ⟨[.emit op], _, rfl, ?_, ?_, h.pool, h.functions, h.waiting⟩
  · have writes := h.writes.emit op
    rw [← Array.toList_push] at writes
    exact writes
  · simp [Buffer.Tracked.run, Buffer.Tracked.step, Buffer.emit, Assembly.lastOp?, Assembly.emit,
      Assembly.push]

theorem Assembles.emitWith (h : t.Assembles s a) (op : Opcode) (request : Buffer.Step)
    (x : Argument) {y : Operand} {pool : Pool}
    (asked : ∀ t : Transcript, t.step? request = t.give? x)
    (does : ∀ s : Buffer.Tracked, s.buffer.pool = a.pool →
      s.step request = { s with buffer := { s.buffer with pool }.emitOperand y })
    (kept : ∀ x y, Argument.Written a.pool x y → Argument.Written pool x y)
    (written : x.Written pool y) :
    t.Reaches s { a with pool, instrs := a.instrs.push ⟨op, some y⟩ } := by
  let opened : Transcript := { t with lines := t.lines ++ [⟨op, none⟩], isOpen := true }
  have done : s.run [.emit op, request] =
      { s with buffer := { s.buffer.emit op with pool }.emitOperand y } := does _ h.pool
  refine ⟨[.emit op, request], opened.assign (opened.lines.length - 1) x, ?_, ?_⟩
  · rw [run?, List.foldlM_cons, step?, Option.bind_eq_bind, Option.bind_some, List.foldlM_cons,
      asked]
    rfl
  · rw [done]
    have writes := (h.writes.emit op).give (h.pool ▸ kept) written
    rw [← Array.toList_push] at writes
    refine ⟨writes, ?_, rfl, h.functions, h.waiting⟩
    simp [Buffer.emit, Buffer.emitOperand, Assembly.lastOp?]

theorem Assembles.jump (h : t.Assembles s a) (op : Opcode) : t.Reaches s (a.emitJump op).2 := by
  refine ⟨[.jump op], _, rfl, ?_, ?_, h.pool, h.functions, ?_⟩
  · have writes := h.writes.jump op
    rw [← Array.toList_push] at writes
    exact writes
  · simp [Buffer.Tracked.run, Buffer.Tracked.step, Buffer.emitJump, Buffer.emit, Buffer.emitOperand,
      Assembly.lastOp?, Assembly.emitJump, Assembly.push]
  · intro label waits
    rcases List.mem_cons.mp waits with rfl | old
    · refine List.mem_append_right _ ?_
      rw [List.mem_singleton, h.writes.length_lines, h.size]
    · exact List.mem_append_left _ (h.waiting label old)

theorem Assembles.patch (h : t.Assembles s a) {label : Label} {target : Nat}
    (patched : a.patch label target = .ok a') : t.Reaches s a' := by
  obtain ⟨small, waits, rfl⟩ := Assembly.patch_eq_ok patched
  obtain ⟨jump, known⟩ := List.mem_iff_getElem?.mp (h.waiting label waits)
  obtain ⟨op, n, b, found, done, pool, functions, last, writes⟩ := h.writes.point known small
  have overwritten : a.instrs.toList.set label ⟨op, some (.int (.w16 (.ofNat target)))⟩ =
      (a.instrs.modify label fun i => ⟨i.op, some (.int (.w16 (.ofNat target)))⟩).toList := by
    rw [Array.toList_modify, List.modify_eq_set_getElem?, found]
    rfl
  refine ⟨[.patch jump target], t.assign label (.target target), ?_, ?_⟩
  · rw [run?, List.foldlM_cons, step?, point?, known, Option.map_some, if_pos small]
    rfl
  · have stepped : s.run [.patch jump target] = { s with buffer := b } := done
    rw [stepped]
    refine ⟨overwritten ▸ writes, ?_, pool.trans h.pool, functions.trans h.functions, ?_⟩
    · rw [last, h.lastOp]
      simp only [Assembly.lastOp?, Array.back?_eq_getElem?, Array.size_modify,
        Array.getElem?_modify]
      split <;> simp [Function.comp_def]
    · exact fun other waits' => h.waiting other (List.mem_of_mem_erase waits')

theorem Assembles.function (h : t.Assembles s a) {name : String}
    (added : a.addFunction name = .ok a') : t.Reaches s a' := by
  obtain ⟨functions, listed, rfl⟩ := Assembly.addFunction_eq_ok added
  have done : s.buffer.addFunction name a.size = .ok { s.buffer with functions } := by
    rw [Buffer.addFunction, h.functions, listed]
    rfl
  refine ⟨[.function name a.size], _, rfl, ?_⟩
  have writes := h.writes.function name a.size
  have stepped : s.run [.function name a.size] =
      { s with buffer := { s.buffer with functions } } := by
    rw [Buffer.Tracked.run, List.foldl_cons, Buffer.Tracked.step, done]
    rfl
  rw [stepped]
  rw [Buffer.Tracked.step, done] at writes
  exact ⟨writes, h.lastOp, h.pool, rfl, h.waiting⟩

/-- What is done to the instructions can be asked of the buffer. -/
theorem Assembles.step (h : t.Assembles s a) (step : a.Step a')
    (readable : ∀ i ∈ a'.instrs.toList, i.Readable) : t.Reaches s a' := by
  cases step with
  | emit op => exact h.emit op
  | int op n =>
    exact h.emitWith op (.int n) (.int n) (fun _ => rfl) (fun _ pool => pool ▸ rfl)
      (fun _ _ => id) rfl
  | float op text =>
    have zeroFree : Text.ZeroFree text := by
      have last := readable ⟨op, some (.float text)⟩ (Array.mem_toList_iff.mpr Array.mem_push_self)
      exact last _ rfl
    exact h.emitWith op (.float text) (.float text) (fun _ => if_pos zeroFree)
      (fun _ pool => pool ▸ rfl) (fun _ _ => id) ⟨zeroFree, rfl⟩
  | text op text =>
    exact h.emitWith op (.text text) (.text text) (fun _ => rfl) (fun _ pool => pool ▸ rfl)
      (fun _ _ written => written.intern text) ⟨_, a.pool.texts_intern text, rfl⟩
  | jump op => exact h.jump op
  | patch patched => exact h.patch patched
  | function added => exact h.function added

end Transcript

/-- Instructions that are built from nothing are held by a buffer, if all of them can be read
back. -/
theorem Assembly.Builds.requests {a : Assembly} (h : empty.Builds a) :
    a.JumpsWait ∧ ((∀ i ∈ a.instrs.toList, i.Readable) → Transcript.empty.Reaches .empty a) := by
  induction h with
  | refl => exact ⟨jumpsWait_empty, fun _ => ⟨[], _, rfl, Transcript.assembles_empty⟩⟩
  | tail built step ih =>
    obtain ⟨waits, reaches⟩ := ih
    refine ⟨step.jumpsWait waits, fun readable => ?_⟩
    obtain ⟨steps, t, accepted, holds⟩ := reaches (step.readable_of_readable waits readable)
    obtain ⟨more, t', accepted', holds'⟩ := holds.step step readable
    refine ⟨steps ++ more, t', ?_, ?_⟩
    · rw [Transcript.run?, List.foldlM_append, ← Transcript.run?, accepted]
      exact accepted'
    · rw [Buffer.Tracked.run, List.foldl_append]
      exact holds'

end GraalScript
