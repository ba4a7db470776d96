import GraalScript.Proofs.Compilation
import GraalScript.Proofs.Generate.ProgramLayout
import GraalScript.Proofs.Parser.Placed
import GraalScript.Proofs.Scope.Bound

/-! A script that could be read and bound compiles unless it is too large: reading puts every break
and continue where it can leave something, binding leaves no name open and no function listed
twice. -/
namespace GraalScript

theorem CodeError.of_bind {α β : Type} {x : Except CodeError α} {f : α → Except CodeError β}
    {e : CodeError} (h : x >>= f = .error e) : x = .error e ∨ ∃ a, x = .ok a ∧ f a = .error e := by
  cases x with
  | error _ => cases h; exact .inl rfl
  | ok a => exact .inr ⟨a, rfl, h⟩

theorem Segment.write_eq_error {s : Segment} {payload : List UInt8} {e : CodeError}
    (h : s.write payload = .error e) : e = .imageTooLarge := by
  unfold write at h
  split at h
  · cases h
  · cases h
    rfl

theorem Image.write_eq_error {prologue code : List UInt8} {functions : List FunctionEntry}
    {pool : List String} {e : CodeError} (h : write prologue functions pool code = .error e) :
    e = .imageTooLarge := by
  rcases CodeError.of_bind h with failed | ⟨_, _, h⟩
  · exact Segment.write_eq_error failed
  rcases CodeError.of_bind h with failed | ⟨_, _, h⟩
  · exact Segment.write_eq_error failed
  rcases CodeError.of_bind h with failed | ⟨_, _, h⟩
  · exact Segment.write_eq_error failed
  rcases CodeError.of_bind h with failed | ⟨_, _, h⟩
  · exact Segment.write_eq_error failed
  · cases h

namespace Program

theorem Ready.generate_eq_error {p : Program} (ready : p.Ready) {prologue : List UInt8}
    {e : CodeError} (h : p.generate prologue = .error e) : e.isCapacity = true := by
  rcases CodeError.of_bind h with failed | ⟨draft, _, h⟩
  · exact ready.isCapacity failed
  rcases CodeError.of_bind h with failed | ⟨_, _, h⟩
  · rw [Image.write_eq_error failed]
    rfl
  · cases h

/-- Of the failures of code generation only those of programs that are too large are left: a jump
behind the last target that fits into its operand, or a segment too long for its length field. -/
theorem generate_ok_or_tooLarge (source : String) (limit : Nat) (env : Environment)
    (prologue : List UInt8) {program bound : Program} {symbols : SymbolTable}
    (parsed : parse source limit = .ok program)
    (resolved : program.resolve env = .ok (bound, symbols)) :
    (∃ out, bound.generate prologue = .ok out) ∨
      (∃ target, 0x10000 ≤ target ∧ bound.generate prologue = .error (.jumpOutOfRange target)) ∨
      bound.generate prologue = .error .imageTooLarge := by
  have ready := ready_of_resolve (isPlaced_of_parse parsed) resolved
  cases run : bound.generate prologue with
  | ok out => exact .inl ⟨out, rfl⟩
  | error e =>
    have capacity := ready.generate_eq_error run
    cases e with
    | jumpOutOfRange target => exact .inr (.inl ⟨target, of_decide_eq_true capacity, rfl⟩)
    | imageTooLarge => exact .inr (.inr rfl)
    | _ => cases capacity

theorem generate_ok_or_tooLarge_break : ∃ program bound symbols,
    parse "function f(){while(1)break;}" 8 = .ok program ∧
    program.resolve .empty = .ok (bound, symbols) ∧
    ((∃ out, bound.generate [] = .ok out) ∨
      (∃ target, 0x10000 ≤ target ∧ bound.generate [] = .error (.jumpOutOfRange target)) ∨
      bound.generate [] = .error .imageTooLarge) := by
  have ran : (parse "function f(){while(1)break;}" 8).toOption.any
      (fun p => (p.resolve .empty).toOption.isSome) = true := by decide +kernel
  obtain ⟨program, parsed, found⟩ := exists_ok_of_any ran
  obtain ⟨⟨bound, symbols⟩, resolved⟩ := exists_ok_of_isSome found
  exact ⟨program, bound, symbols, parsed, resolved,
    generate_ok_or_tooLarge _ 8 .empty [] parsed resolved⟩

end Program

end GraalScript
