import GraalScript.Proofs.Capacity
import GraalScript.Proofs.Generate.Regions

/-! Where control can go in generated code. Every jump has a target inside the code or right behind
it, and the functions of the table are bodies that are skipped from above, end with a return, and
are neither entered nor left by a jump. -/
namespace GraalScript

namespace Assembly

/-- The instruction `i` is a jump to `target`. -/
def JumpsTo (a : Assembly) (i target : Nat) : Prop :=
  ∃ op w, a.instrs[i]? = some ⟨op, some (.int w)⟩ ∧ op.isJump = true ∧ w.toNat = target

/-- The instructions from `entry` on and before `stop` are the body of a function. -/
structure IsBody (a : Assembly) (entry stop : Nat) : Prop where
  pos : 0 < entry
  skipped : ∃ w, a.instrs[entry - 1]? = some ⟨.setIndex, some (.int w)⟩ ∧ w.toNat = stop
  nonempty : entry < stop
  returns : (a.instrs[stop - 1]?).map Instr.op = some .ret
  closed : ∀ i target, a.JumpsTo i target → (entry ≤ i ∧ i < stop ↔ entry ≤ target ∧ target < stop)

structure ControlFlow (a : Assembly) : Prop where
  /-- No jump still waits for its target, which is an instruction or the end of the code. -/
  jumps : ∀ i instr, a.instrs[i]? = some instr → instr.op.isJump = true →
    i ∉ a.waiting ∧ ∃ w, instr.operand = some (.int w) ∧ w.toNat ≤ a.size
  /-- The functions have bodies, one behind the other. -/
  bodies : ∃ bodies : List (Nat × Nat), bodies.map Prod.fst =
    a.functions.toList.map (·.opIndex.toNat) ∧
    (∀ b ∈ bodies, a.IsBody b.1 b.2) ∧ bodies.Pairwise fun b c => b.2 ≤ c.1

theorem getElem?_placeAll_of_lt {a : Assembly} {code : List Slot} {i : Nat} (h : i < a.size) :
    (a.placeAll code).instrs[i]? = a.instrs[i]? := by
  induction code generalizing a with
  | nil => rfl
  | cons s code ih =>
    have old : i ≠ a.instrs.size := Nat.ne_of_lt h
    rw [placeAll_cons, ih (by rw [size_place]; omega)]
    simp [place, Array.getElem?_push, old]

theorem getElem?_placeAll {a : Assembly} {code : List Slot} {i : Nat} {s : Slot}
    (h : Slot.At a.size code i s) :
    ∃ pool, (a.placeAll code).instrs[i]? = some (s.instr pool).1 := by
  induction code generalizing a with
  | nil => cases h.mem
  | cons t code ih =>
    rcases Slot.at_cons.mp h with ⟨rfl, rfl⟩ | later
    · refine ⟨a.pool, ?_⟩
      rw [placeAll_cons, getElem?_placeAll_of_lt (by simp)]
      simp [place, size]
    · rw [← size_place a t] at later
      exact ih later

theorem waiting_placeAll {a : Assembly} {code : List Slot} {lo hi : Nat}
    (h : Slot.allFit false false lo hi code) : (a.placeAll code).waiting = a.waiting := by
  induction code generalizing a with
  | nil => rfl
  | cons s code ih =>
    rw [Slot.allFit_cons] at h
    have placed : (a.place s).waiting = a.waiting := by
      cases s with
      | waits op w => cases w <;> cases h.1
      | _ => rfl
    rw [placeAll_cons, ih h.2, placed]

end Assembly

theorem Slot.eq_jump_of_fits {s : Slot} {lo hi : Nat} (fits : s.fits false false lo hi = true)
    (h : s.op.isJump = true) : ∃ op target, s = .jump op target ∧ target ≤ hi := by
  cases s with
  | jump op target => exact ⟨op, target, rfl, (fits_jump.mp fits).2⟩
  | waits op w => cases w <;> cases fits
  | plain op | text op _ => simp_all [Slot.op, Slot.fits]
  | number | decimal => cases h

theorem Word.toNat_target {target : Nat} (h : target < 0x10000) :
    (Word.w16 (.ofNat target)).toNat = target := by
  simp [Word.toNat, Nat.mod_eq_of_lt h]

namespace Assembly

variable {a : Assembly} {code : List Slot} (empty : a.size = 0)

include empty

theorem at_of_getElem? {i : Nat} {instr : Instr} (h : (a.placeAll code).instrs[i]? = some instr) :
    ∃ s pool, Slot.At 0 code i s ∧ instr = (s.instr pool).1 := by
  have inside : i < code.length := by
    have bound : i < (a.placeAll code).size := (Array.getElem?_eq_some_iff.mp h).1
    rw [size_placeAll, empty] at bound
    omega
  have here : Slot.At a.size code i code[i] := by
    rw [empty]
    exact ⟨Nat.zero_le i, List.getElem?_eq_getElem inside⟩
  obtain ⟨pool, placed⟩ := getElem?_placeAll here
  exact ⟨code[i], pool, empty ▸ here, Option.some.inj (h.symm.trans placed)⟩

variable {hi : Nat} (fits : Slot.allFit false false 0 hi code)
  (range : code.all Slot.inRange = true)

include fits range

theorem jump_of_getElem? {i : Nat} {instr : Instr} (h : (a.placeAll code).instrs[i]? = some instr)
    (jumps : instr.op.isJump = true) :
    ∃ target ≤ hi, Slot.At 0 code i (.jump instr.op target) ∧
      ∃ w, instr.operand = some (.int w) ∧ w.toNat = target := by
  obtain ⟨s, pool, here, rfl⟩ := at_of_getElem? empty h
  rw [Slot.op_instr] at jumps
  obtain ⟨op, target, rfl, le⟩ := Slot.eq_jump_of_fits (fits s here.mem) jumps
  have small : target < 0x10000 := of_decide_eq_true (List.all_eq_true.mp range _ here.mem)
  exact ⟨target, le, here, _, rfl, Word.toNat_target small⟩

theorem at_of_jumpsTo {i target : Nat} (h : (a.placeAll code).JumpsTo i target) :
    ∃ op, Slot.At 0 code i (.jump op target) := by
  obtain ⟨op, w, found, jumps, rfl⟩ := h
  obtain ⟨target, _, here, v, same, rfl⟩ := jump_of_getElem? empty fits range found jumps
  cases same
  exact ⟨op, here⟩

theorem isBody_placeAll {entry stop : Nat} (h : Slot.IsBody 0 code entry stop) :
    (a.placeAll code).IsBody entry stop where
  pos := h.after
  skipped := by
    obtain ⟨pool, found⟩ := getElem?_placeAll (a := a) (empty.symm ▸ h.skipped)
    have small : stop < 0x10000 := of_decide_eq_true (List.all_eq_true.mp range _ h.skipped.mem)
    exact ⟨_, found, Word.toNat_target small⟩
  nonempty := h.nonempty
  returns := by
    obtain ⟨pool, found⟩ := getElem?_placeAll (a := a) (empty.symm ▸ h.returns)
    rw [found]
    rfl
  closed i target jump := by
    obtain ⟨op, here⟩ := at_of_jumpsTo empty fits range jump
    exact h.closed i op target here

end Assembly

namespace Program

/-- The code of a program whose breaks and continues have something to leave. -/
theorem controlFlow {p : Program} {d : Draft} (placed : ∀ i ∈ p.items, i.isPlaced = true)
    (h : p.draft = .ok d) : d.code.ControlFlow := by
  obtain ⟨follows, small⟩ := draft_eq_ok h
  have fits : Slot.allFit false false 0 p.layout.length p.layout := by
    simpa [layout] using Layout.fits_items (Nat.le_refl 0) p.items placed 0 none (Nat.le_refl 0)
  have start : (Draft.empty.list p.listed).code.size = 0 := rfl
  have size : d.code.size = p.layout.length := by rw [follows.size_eq, start, Nat.zero_add]
  have waiting : d.code.waiting = [] := by
    rw [follows.code_eq, Assembly.waiting_placeAll fits]
    rfl
  refine ⟨fun i instr found jumps => ?_, Item.bodies p.items 0 none, ?_, fun b hb => ?_, ?_⟩
  · rw [follows.code_eq] at found
    obtain ⟨target, le, _, w, operand, rfl⟩ :=
      Assembly.jump_of_getElem? start fits follows.range found jumps
    exact ⟨by simp [waiting], w, operand, size.symm ▸ le⟩
  · rw [Item.map_fst_bodies, functions_draft h, List.map_map]
    refine List.map_congr_left fun f hf => ?_
    simp [Nat.mod_eq_of_lt (small f hf)]
  · rw [follows.code_eq]
    exact Assembly.isBody_placeAll start fits follows.range
      (Item.isBody_bodies p.items placed 0 none b hb)
  · exact Item.pairwise_bodies p.items placed 0 none

end Program

/-- The code behind every image: its jumps have targets, and its functions are bodies that stay
apart. -/
theorem controlFlow_of_compile (settings : Settings) (script : Option ScriptId) (source : String)
    {out : Output} (h : (compile settings script source).result = .ok out) :
    ∃ header parsed bound symbols draft, Header.ofScript settings script = .ok header ∧
      Program.parse source settings.maxNesting = .ok parsed ∧
      parsed.resolve header.env = .ok (bound, symbols) ∧ bound.draft = .ok draft ∧
      draft.code.image header.prologue = .ok out.image ∧ draft.code.ControlFlow := by
  obtain ⟨header, parsed, bound, symbols, made, read, resolved, generated⟩ :=
    compile_result_eq_ok_iff.mp h
  obtain ⟨draft, drafted, written, _⟩ := Program.generate_eq_ok_iff.mp generated
  have ready := Program.ready_of_resolve (Program.isPlaced_of_parse read) resolved
  exact ⟨header, parsed, bound, symbols, draft, made, read, resolved, drafted, written,
    Program.controlFlow ready.placed drafted⟩

theorem controlFlow_of_compile_break : ∃ out,
    (compile ⟨8, true⟩ none "function f(){while(1)break;}").result = .ok out ∧
    ∃ header parsed bound symbols draft, Header.ofScript ⟨8, true⟩ none = .ok header ∧
      Program.parse "function f(){while(1)break;}" 8 = .ok parsed ∧
      parsed.resolve header.env = .ok (bound, symbols) ∧ bound.draft = .ok draft ∧
      draft.code.image header.prologue = .ok out.image ∧ draft.code.ControlFlow := by
  have ran :
      (compile ⟨8, true⟩ none "function f(){while(1)break;}").result.toOption.isSome = true := by
    decide +kernel
  obtain ⟨out, compiled⟩ := exists_ok_of_isSome ran
  exact ⟨out, compiled, controlFlow_of_compile _ _ _ compiled⟩

end GraalScript
