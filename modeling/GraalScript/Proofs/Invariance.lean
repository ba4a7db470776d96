import GraalScript.Proofs.Compilation
import GraalScript.Proofs.Generate.Recast
import GraalScript.Proofs.Parser.Placed
import GraalScript.Proofs.Scope.Bound
import GraalScript.Proofs.Scope.Extend
import Mathlib.Data.List.Forall2

/-! What the output of a compilation does not depend on. A host puts its prologue in front and
changes nothing else; where the tokens stand in the text, and what stands between them, does not
matter at all. -/
namespace GraalScript

namespace Environment.Within

theorem empty (env : Environment) : Environment.empty.Within env := ⟨fun _ => nofun, fun _ => nofun⟩

theorem refl (env : Environment) : env.Within env := ⟨fun _ h => h, fun _ h => h⟩

end Environment.Within

theorem Command.isCoreName_of_ofRoot? {name : String} (h : Opcode.ofRoot? name ≠ none) :
    isCoreName name = true := by
  unfold Opcode.ofRoot? at h
  split at h
  case h_9 => exact absurd rfl h
  all_goals decide

theorem Recast.keepsCode_extended (env env' : Environment) (line : Nat → Nat) :
    (extended env env' line).KeepsCode := by
  refine ⟨fun name b _ => ?_⟩
  by_cases moved : b = .objectVar ∧ env.added env' name = true
  · obtain ⟨rfl, added⟩ := moved
    have unknown : Resolve.isBuiltinValue env name = false := by
      simpa using (Bool.and_eq_true_iff.mp added).2
    simp only [Resolve.isBuiltinValue, Command.isCoreFunction, Bool.or_eq_false_iff] at unknown
    obtain ⟨⟨_, notName⟩, notCommand, notFunction⟩ := unknown
    refine .inr ⟨rfl, by simp [extended, added], ?_, by simpa using notCommand, ?_⟩
    · by_contra root
      rw [Command.isCoreName_of_ofRoot? root] at notName
      cases notName
    · rintro rfl
      exact absurd notFunction (by decide)
  · exact .inl (if_neg (by simpa using moved))

/-- The tree of a program with other lines, bound where more names are known, has the same code. -/
theorem Program.exists_resolve_extended {env env' : Environment} (within : env.Within env')
    (line : Nat → Nat) {p bound : Program} {symbols : SymbolTable}
    (placed : ∀ i ∈ p.items, i.isPlaced = true) (resolved : p.resolve env = .ok (bound, symbols)) :
    ∃ bound' symbols', (p.recast (.lines line)).resolve env' = .ok (bound', symbols') ∧
      ∀ prologue, (bound'.generate prologue).toOption = (bound.generate prologue).toOption := by
  have found := p.matches_resolve within line
  rw [resolved] at found
  obtain ⟨⟨_, symbols'⟩, resolved', rfl⟩ := found
  have ready := Program.ready_of_resolve placed resolved
  exact ⟨_, symbols', resolved',
    Program.toOption_generate_recast (Recast.keepsCode_extended env env' line) bound ready.bound⟩

section host

theorem Image.write_prologue {functions : List FunctionEntry} {pool : List String}
    {code image : List UInt8} (prologue : List UInt8)
    (h : write [] functions pool code = .ok image) :
    write prologue functions pool code = .ok (prologue ++ image) := by
  simp only [write, bind_eq_ok_iff] at h ⊢
  obtain ⟨flags, hf, names, hn, strings, hs, bytecode, hb, written⟩ := h
  refine ⟨flags, hf, names, hn, strings, hs, bytecode, hb, ?_⟩
  rw [← Except.ok.inj written]
  simp [pure, Except.pure]

theorem Program.generate_prologue {p : Program} {out : Output} (prologue : List UInt8)
    (h : p.generate [] = .ok out) :
    p.generate prologue = .ok ⟨prologue ++ out.image, out.joined⟩ := by
  rw [generate_eq_ok_iff] at h ⊢
  obtain ⟨draft, drafted, written, joined⟩ := h
  exact ⟨draft, drafted, Image.write_prologue prologue written, joined⟩

theorem Program.recast_of_parse {source : String} {limit : Nat} {p : Program}
    (h : parse source limit = .ok p) : p.recast (.lines id) = p := by
  have agrees :=
    Parser.agrees_program (v := .recounted id id) ⟨rfl, rfl⟩ (Stream.ofText source limit)
  rw [View.stream_recounted] at agrees
  have read : parse source limit = (View.recounted id id).result (recast (.lines id))
      (parse source limit) :=
    congrArg Prod.fst agrees
  rw [h] at read
  exact (Except.ok.inj read).symm

/-- What compiles without a host compiles for every host that accepts the script's name, to the same
image behind the prologue. -/
theorem compile_result_of_raw (settings : Settings) (script : ScriptId) (source : String)
    {header : Header} {out : Output}
    (accepted : Header.make ScriptType.all settings.saveToDisk script.type script.name = .ok header)
    (raw : (compile settings none source).result = .ok out) :
    (compile settings (some script) source).result =
      .ok ⟨header.prologue ++ out.image, out.joined⟩ := by
  obtain ⟨_, parsed, bound, symbols, ⟨⟩, read, resolved, generated⟩ :=
    compile_result_eq_ok_iff.mp raw
  have placed := Program.isPlaced_of_parse read
  obtain ⟨bound', symbols', resolved', same⟩ :=
    Program.exists_resolve_extended (.empty header.env) id placed resolved
  rw [Program.recast_of_parse read] at resolved'
  refine compile_result_eq_ok_iff.mpr ⟨header, parsed, bound', symbols', accepted, read,
    resolved', ?_⟩
  have made := same header.prologue
  rw [Program.generate_prologue header.prologue generated] at made
  cases image : bound'.generate header.prologue with
  | error e => rw [image] at made; cases made
  | ok out' =>
    rw [image] at made
    exact congrArg _ (Option.some.inj made)

/-- A name of the host: without one it is a variable of the object. -/
theorem compile_result_of_raw_npc : ∃ header out,
    Header.make ScriptType.all true "npc" "Gate" = .ok header ∧
    (compile ⟨8, true⟩ none "x=1;").result = .ok out ∧
    (compile ⟨8, true⟩ (some ⟨"npc", "Gate"⟩) "x=1;").result =
      .ok ⟨header.prologue ++ out.image, out.joined⟩ := by
  have ran : (compile ⟨8, true⟩ none "x=1;").result.toOption.isSome = true := by decide +kernel
  obtain ⟨out, raw⟩ := exists_ok_of_isSome ran
  have accepted : Header.make ScriptType.all true "npc" "Gate" =
      .ok ⟨Header.prologueOf "npc" "Gate" true, Header.environmentOf .npc "Gate"⟩ := rfl
  exact ⟨_, out, accepted, raw, compile_result_of_raw ⟨8, true⟩ ⟨"npc", "Gate"⟩ _ accepted raw⟩

end host

section spacing

/-- Both items are tokens, of one kind and with one text. The text of a directive is its marker and
the blanks behind it, which do not count. -/
def Token.Alike : Except LexError Token → Except LexError Token → Prop
  | .ok t, .ok u => t.kind = u.kind ∧ (t.kind ≠ .directive → t.text = u.text)
  | _, _ => False

instance (x y : Except LexError Token) : Decidable (Token.Alike x y) := by
  unfold Token.Alike
  split <;> infer_instance

/-- The view that shows no places, and no texts of directives. -/
def View.placeless : View where
  line _ := Pos.origin.line
  token t := ⟨t.kind, if t.kind = .directive then "" else t.text, ⟨.origin, .origin⟩⟩
  loops := id
  switches := id
  kind_token _ := rfl
  line_token _ := rfl
  text_token _ h := if_neg h

theorem View.item_placeless {x y : Except LexError Token} (h : Token.Alike x y) :
    placeless.item x = placeless.item y := by
  rcases x with e | t <;> rcases y with e' | u
  case ok.ok =>
    obtain ⟨kind, text⟩ := h
    by_cases directive : t.kind = .directive
    · simp [item, placeless, ← kind, directive]
    · simp [item, placeless, ← kind, directive, text directive]
  all_goals cases h

theorem View.stream_placeless {a b : String}
    (h : List.Forall₂ Token.Alike (tokenize a) (tokenize b)) (limit : Nat) :
    placeless.stream (.ofText a limit) = placeless.stream (.ofText b limit) := by
  have pending : (tokenize a).map placeless.item = (tokenize b).map placeless.item := by
    rw [← List.forall₂_eq_eq_eq, List.forall₂_map_left_iff, List.forall₂_map_right_iff]
    exact h.imp fun _ _ => item_placeless
  simp only [stream, Stream.ofText, Stream.ofItems, pending, h.length_eq]

theorem Program.parse_placeless {a b : String}
    (h : List.Forall₂ Token.Alike (tokenize a) (tokenize b)) (limit : Nat) :
    View.placeless.result (recast View.placeless.tree) (parse a limit) =
      View.placeless.result (recast View.placeless.tree) (parse b limit) := by
  have agrees := Parser.agrees_program (v := .placeless) ⟨rfl, rfl⟩
  have first := agrees (.ofText a limit)
  rw [View.stream_placeless h, agrees (.ofText b limit)] at first
  exact (congrArg Prod.fst first).symm

theorem ParseError.kind_relined (line : Nat → Nat) (e : ParseError) :
    CompileError.parseKind (e.relined line) = CompileError.parseKind e := by
  rcases e with (_ | _ | _) | _ <;> rfl

/-- What becomes of a tree under a header: its output, or the kind of its first failure. -/
def Program.outcome (header : Header) (p : Program) : Except ErrorKind Output :=
  match p.resolve header.env with
  | .error e => .error (CompileError.resolveKind e)
  | .ok (bound, _) => (bound.generate header.prologue).mapError fun _ => .internal

theorem mapError_const_congr {ε δ α : Type} {x y : Except ε α} (h : x.toOption = y.toOption)
    (kind : δ) : x.mapError (fun _ => kind) = y.mapError fun _ => kind := by
  cases x <;> cases y
  case error.error => rfl
  case ok.ok => exact congrArg Except.ok (Option.some.inj h)
  all_goals cases h

theorem Program.outcome_recast (header : Header) (line : Nat → Nat) {p : Program}
    (placed : ∀ i ∈ p.items, i.isPlaced = true) :
    (p.recast (.lines line)).outcome header = p.outcome header := by
  unfold outcome
  cases resolved : p.resolve header.env with
  | error e =>
    have found := p.matches_resolve (.refl header.env) line
    rw [resolved] at found
    have resolved' : (p.recast (.lines line)).resolve header.env = .error (e.relined line) :=
      found rfl
    simp only [resolved', ResolveError.kind_relined]
  | ok r =>
    obtain ⟨bound', symbols', resolved', same⟩ :=
      exists_resolve_extended (.refl header.env) line placed resolved
    simp only [resolved']
    exact mapError_const_congr (same header.prologue) _

theorem compile_outcome (settings : Settings) (script : Option ScriptId) (source : String) :
    (compile settings script source).result.mapError CompileError.kind =
      match Header.ofScript settings script, Program.parse source settings.maxNesting with
      | .error _, _ => .error .unknownScriptType
      | .ok _, .error e => .error (CompileError.parseKind e)
      | .ok header, .ok p => p.outcome header := by
  have mapped (x : Except CodeError Output) :
      (x.mapError CompileError.ofCode).mapError CompileError.kind = x.mapError fun _ =>
        .internal := by
    cases x <;> rfl
  unfold compile
  cases Header.ofScript settings script with
  | error e => rfl
  | ok header =>
    cases Program.parse source settings.maxNesting with
    | error e => rfl
    | ok p =>
      simp only [Program.outcome]
      rcases p.resolve header.env with e | ⟨bound, symbols⟩
      · rfl
      · exact mapped _

/-- Texts with the same tokens have the same output, or failures of one kind. -/
theorem compile_result_of_alike (settings : Settings) (script : Option ScriptId) (a b : String)
    (alike : List.Forall₂ Token.Alike (tokenize a) (tokenize b)) :
    (compile settings script a).result.mapError CompileError.kind =
      (compile settings script b).result.mapError CompileError.kind := by
  rw [compile_outcome, compile_outcome]
  cases Header.ofScript settings script with
  | error e => rfl
  | ok header =>
    have same := Program.parse_placeless alike settings.maxNesting
    rcases read : Program.parse a settings.maxNesting with e | p <;>
      rcases read' : Program.parse b settings.maxNesting with e' | p' <;> rw [read, read'] at same
    · have kinds := congrArg CompileError.parseKind (Except.error.inj same)
      rw [ParseError.kind_relined, ParseError.kind_relined] at kinds
      exact congrArg _ kinds
    · cases same
    · cases same
    · have trees := congrArg (Program.outcome header) (Except.ok.inj same)
      rwa [View.tree, Program.outcome_recast _ _ (Program.isPlaced_of_parse read),
        Program.outcome_recast _ _ (Program.isPlaced_of_parse read')] at trees

theorem compile_result_of_alike_directive :
    List.Forall₂ Token.Alike (tokenize "//#CLIENTSIDE\nx=1;")
      (tokenize "//#CLIENTSIDE \n\n x = /* */ 1;") ∧
    (compile .default none "//#CLIENTSIDE\nx=1;").result.mapError CompileError.kind =
      (compile .default none "//#CLIENTSIDE \n\n x = /* */ 1;").result.mapError
        CompileError.kind := by
  have alike : List.Forall₂ Token.Alike (tokenize "//#CLIENTSIDE\nx=1;")
      (tokenize "//#CLIENTSIDE \n\n x = /* */ 1;") := by
    decide +kernel
  exact ⟨alike, compile_result_of_alike _ _ _ _ alike⟩

end spacing

end GraalScript
