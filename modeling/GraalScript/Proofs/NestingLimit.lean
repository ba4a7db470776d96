import GraalScript.Compile
import GraalScript.Proofs.Parser.Levels
import Mathlib.Data.Nat.Find

/-! The limit on nesting decides only whether a text is read, not what is read. Every text needs
some number of levels; with fewer it is too deep, and from that number on the limit makes no
difference. -/
namespace GraalScript

namespace Program

theorem raises_ofText (source : String) {d d' : Nat} (le : d ≤ d') :
    (d < (tokenize source).length + 2 ∧ ∃ line, parse source d = .error (.nestingTooDeep d line)) ∨
      (Parser.InRoom (parse source d) ∧ parse source d' = parse source d) := by
  have start : (Stream.ofText source d).limit < (Stream.ofText source d).depth + (d + 1) := by
    change d < 0 + (d + 1)
    omega
  obtain ⟨_, ⟨short, deep⟩ | ⟨fine, same⟩⟩ :=
    Parser.raises_program (Stream.ofText source d) d' start le
  · refine .inl ⟨?_, deep⟩
    change d < 0 + (tokenize source).length + 2 at short
    omega
  · have read : parse source d' = parse source d := by
      rw [Prod.ext_iff] at same
      exact same.1
    exact .inr ⟨fine, read⟩

/-- Two levels more than there are tokens are always enough. -/
theorem inRoom_parse (source : String) :
    Parser.InRoom (parse source ((tokenize source).length + 2)) := by
  obtain ⟨short, _⟩ | ⟨fine, _⟩ := raises_ofText source (Nat.le_refl ((tokenize source).length + 2))
  · omega
  · exact fine

end Program

/-- Under a higher limit a compilation comes out the same, unless it was too deep. -/
theorem compile_raised (save : Bool) (script : Option ScriptId) (source : String) {d d' : Nat}
    (le : d ≤ d') :
    (∃ e, (compile ⟨d, save⟩ script source).result = .error e ∧ e.kind = .nestingTooDeep) ∨
      compile ⟨d', save⟩ script source = compile ⟨d, save⟩ script source := by
  have header : Header.ofScript ⟨d', save⟩ script = Header.ofScript ⟨d, save⟩ script := by
    cases script <;> rfl
  unfold compile
  rw [header]
  cases Header.ofScript ⟨d, save⟩ script with
  | error e => exact .inr rfl
  | ok made =>
    obtain ⟨_, line, deep⟩ | ⟨_, same⟩ := Program.raises_ofText source le
    · refine .inl ⟨CompileError.ofParse (.nestingTooDeep d line), ?_, rfl⟩
      simp only [deep]
    · right
      simp only [same]

/-- Every text has a number of levels below which it is too deep and from which on it is read in one
way; with a higher limit an output stays as it is, and so does every failure that is not one of
depth. -/
theorem exists_nesting_threshold (source : String) :
    ∃ m, (∀ d < m, ∃ line, Program.parse source d = .error (.nestingTooDeep d line)) ∧
      (∃ r, (∀ limit line, r ≠ .error (.nestingTooDeep limit line)) ∧
        ∀ d ≥ m, Program.parse source d = r) ∧
      ∀ (save : Bool) (script : Option ScriptId) (d d' : Nat), d ≤ d' →
        (∀ out, (compile ⟨d, save⟩ script source).result = .ok out →
          (compile ⟨d', save⟩ script source).result = .ok out) ∧
        ∀ e, (compile ⟨d, save⟩ script source).result = .error e → e.kind ≠ .nestingTooDeep →
          (compile ⟨d', save⟩ script source).result = .error e := by
  classical
  have some : ∃ d, Parser.InRoom (Program.parse source d) := ⟨_, Program.inRoom_parse source⟩
  refine ⟨Nat.find some, fun d less => ?_, ⟨Program.parse source (Nat.find some), ?_, ?_⟩, ?_⟩
  · obtain ⟨_, deep⟩ | ⟨fine, _⟩ := Program.raises_ofText source (Nat.le_refl d)
    · exact deep
    · exact absurd fine (Nat.find_min some less)
  · intro limit line deep
    cases Nat.find_spec some _ deep
  · intro d enough
    obtain ⟨_, line, deep⟩ | ⟨_, same⟩ := Program.raises_ofText source enough
    · cases Nat.find_spec some _ deep
    · exact same
  · intro save script d d' le
    obtain ⟨e, failed, deep⟩ | same := compile_raised save script source le
    · refine ⟨fun out made => ?_, fun e' other kind => ?_⟩
      · rw [failed] at made
        cases made
      · rw [failed] at other
        cases other
        exact absurd deep kind
    · rw [same]
      exact ⟨fun _ made => made, fun _ failed _ => failed⟩

end GraalScript
