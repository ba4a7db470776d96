import GraalScript.Proofs.Compilation
import GraalScript.Proofs.Parser.Faults
import GraalScript.Proofs.Scope.Extend
import GraalScript.Proofs.SourceLines
import GraalScript.Proofs.TokenSpans
import GraalScript.Session

/-! The lines of diagnostics. A failure that the script is to blame for is shown with its line,
which is a line of the source and the first line of one of its items; only a rejected header and an
empty source have none. -/
namespace GraalScript

theorem Cursor.line_of_mem_upTo {n : Nat} {cur : Cursor} {i : Except LexError Token}
    (h : i ∈ upTo n cur) :
    cur.pos.line ≤ itemLine i ∧ itemLine i ≤ cur.pos.line + cur.rest.count '\n' := by
  induction n generalizing cur with
  | zero => cases h
  | succ n ih =>
    unfold upTo at h
    split at h
    next e after next =>
      obtain ⟨gap, faulty, rest, -, -, line⟩ := error_of_next next
      cases List.mem_singleton.mp h
      rw [Pos.line_advance] at line
      rw [rest, List.count_append]
      change cur.pos.line ≤ e.line ∧ e.line ≤ _
      omega
    next t after next =>
      obtain ⟨gap, step⟩ := steps_of_next next
      have start : t.line = cur.pos.line + gap.count '\n' := by
        rw [Token.line, step.start, Pos.line_advance]
      have stop : after.pos.line = t.line := by
        rw [step.pos, step.stop, Pos.line_advance, List.count_eq_zero_of_not_mem step.line]
        rfl
      have rest : cur.rest.count '\n' = gap.count '\n' + after.rest.count '\n' := by
        rw [step.rest, List.count_append, List.count_append,
          List.count_eq_zero_of_not_mem step.line, Nat.zero_add]
      have here : cur.pos.line ≤ t.line ∧ t.line ≤ cur.pos.line + cur.rest.count '\n' := by omega
      split at h
      · cases List.mem_singleton.mp h
        exact here
      · rcases List.mem_cons.mp h with rfl | later
        · exact here
        · have behind := ih later
          omega

theorem line_of_mem_tokenize {source : String} {i : Except LexError Token}
    (h : i ∈ tokenize source) : 1 ≤ itemLine i ∧ itemLine i ≤ (Source.ofText source).lineCount := by
  rw [tokenize_eq_upTo] at h
  rw [Source.lineCount_ofText]
  exact Cursor.line_of_mem_upTo h

theorem ResolveError.line_relined (e : ResolveError) (line : Nat → Nat) :
    (e.relined line).line = line e.line := by
  cases e <;> rfl

theorem Program.line_of_resolve {source : String} {limit : Nat} {p : Program} {env : Environment}
    {e : ResolveError} (read : parse source limit = .ok p) (h : p.resolve env = .error e) :
    ∃ i ∈ tokenize source, itemLine i = e.line := by
  refine Classical.byContradiction fun none => ?_
  have apart : ∀ i ∈ tokenize source, itemLine i ≠ e.line := fun i inside same =>
    none ⟨i, inside, same⟩
  have same : env.Within env := ⟨fun _ known => known, fun _ known => known⟩
  have again := p.matches_resolve same (moved e.line)
  rw [recast_of_parse_moved read apart, h] at again
  have lines := congrArg ResolveError.line (Except.error.inj (again rfl))
  rw [ResolveError.line_relined] at lines
  exact moved_self_ne _ lines.symm

/-- The source has nothing in it but its end. -/
def EndsAtOnce (source : String) : Prop := ∃ t : Token, t.kind = .eos ∧ tokenize source = [.ok t]

theorem line_of_compile {settings : Settings} {script : Option ScriptId} {source : String}
    {e : CompileError} (h : (compile settings script source).result = .error e)
    (own : e.kind ≠ .internal) :
    (((∃ he, Header.ofScript settings script = .error he) ∨ EndsAtOnce source) ∧ e.line = 0) ∨
      (¬((∃ he, Header.ofScript settings script = .error he) ∨ EndsAtOnce source) ∧
        ∃ i ∈ tokenize source, itemLine i = e.line) := by
  rcases compile_result_eq_error_cases h with ⟨he, rejected, rfl⟩ | ⟨header, accepted, found⟩
  · exact .inl ⟨.inl ⟨he, rejected⟩, rfl⟩
  by_cases ends : EndsAtOnce source
  · obtain ⟨t, eos, items⟩ := ends
    have read : Program.parse source settings.maxNesting = .error .emptySource :=
      Program.parse_of_eos items eos
    rcases found with ⟨pe, unread, rfl⟩ | ⟨p, parsed, -⟩
    · cases unread.symm.trans read
      exact .inl ⟨.inr ⟨t, eos, items⟩, rfl⟩
    · cases parsed.symm.trans read
  · refine .inr ⟨?_, ?_⟩
    · rintro (⟨he, rejected⟩ | now)
      · cases rejected.symm.trans accepted
      · exact ends now
    rcases found with ⟨pe, unread, rfl⟩ | ⟨p, parsed, ⟨re, unbound, rfl⟩ | ⟨_, _, ce, -, -, rfl⟩⟩
    · refine Program.line_of_parse unread ?_
      rintro rfl
      exact ends (Program.tokenize_of_emptySource unread)
    · exact Program.line_of_resolve parsed unbound
    · exact absurd rfl own

/-- A failure that is the script's own is shown with its line. There is none just if the header is
rejected or the source is empty; otherwise it is a line of the source on which one of its tokens, or
its lexical fault, starts. -/
theorem Session.diagnostic_of_malformed (settings : Settings) (script : Option ScriptId)
    (source : String) {s : Session} {d : Diagnostic}
    (ran : (Session.new settings).compile script source = .ok s)
    (failed : s.outcome? = some (.error d)) (own : d.kind ≠ .internal) :
    d.message = s!"malformed input at line {d.line}: " ++
      (Source.ofText source).line d.line ++ "\n" ∧
    (d.line = 0 ↔ (∃ e, Header.ofScript settings script = .error e) ∨ EndsAtOnce source) ∧
    (d.line ≠ 0 → 1 ≤ d.line ∧ d.line ≤ (Source.ofText source).lineCount ∧
      ∃ i ∈ tokenize source, itemLine i = d.line) := by
  cases ran
  cases result : (GraalScript.compile settings script source).result with
  | ok out =>
    simp only [outcome?, new, Option.map_some, result] at failed
    cases failed
  | error e =>
    simp only [outcome?, new, Option.map_some, result] at failed
    cases failed
    have shown : e.kind.isMalformedInput = true := bne_iff_ne.mpr own
    refine ⟨if_pos shown, ?_⟩
    rcases line_of_compile result own with ⟨none, zero⟩ | ⟨some, i, inside, line⟩
    · exact ⟨⟨fun _ => none, fun _ => zero⟩, fun nonzero => absurd zero nonzero⟩
    · obtain ⟨pos, bound⟩ := line_of_mem_tokenize inside
      rw [line] at pos bound
      change 1 ≤ e.line at pos
      refine ⟨⟨fun zero => ?_, fun none => absurd none some⟩,
        fun _ => ⟨pos, bound, i, inside, line⟩⟩
      change e.line = 0 at zero
      omega

/-- A character that no token begins with, on the second line. -/
theorem Session.diagnostic_of_malformed_character :
    ∃ s d, (Session.new .default).compile none "\n$" = .ok s ∧
    s.outcome? = some (.error d) ∧ d.kind = .lex ∧ d.line = 2 ∧
    d.message = s!"malformed input at line {d.line}: " ++
      (Source.ofText "\n$").line d.line ++ "\n" ∧
    (d.line = 0 ↔ (∃ e, Header.ofScript .default none = .error e) ∨ EndsAtOnce "\n$") ∧
    (d.line ≠ 0 → 1 ≤ d.line ∧ d.line ≤ (Source.ofText "\n$").lineCount ∧
      ∃ i ∈ tokenize "\n$", itemLine i = d.line) := by
  have items : tokenize "\n$" = [.error ⟨.unknownCharacter '$', 2⟩] := by decide +kernel
  have read : Program.parse "\n$" Settings.default.maxNesting =
      .error (.token (.lex ⟨.unknownCharacter '$', 2⟩)) := by
    rw [Program.parse, Stream.ofText, items]
    rfl
  have ran : (Session.new .default).compile none "\n$" =
      .ok ⟨.default, .ofText "\n$", some (GraalScript.compile .default none "\n$")⟩ := rfl
  have failed :
      Session.outcome? ⟨.default, .ofText "\n$", some (GraalScript.compile .default none "\n$")⟩ =
      some (.error
        ((CompileError.ofParse (.token (.lex ⟨.unknownCharacter '$', 2⟩))).diagnostic
          (.ofText "\n$"))) := by
    simp only [Session.outcome?, Option.map_some, GraalScript.compile, Header.ofScript, read]
    rfl
  exact ⟨_, _, ran, failed, rfl, rfl,
    Session.diagnostic_of_malformed _ _ _ ran failed (by rintro ⟨⟩)⟩

end GraalScript
