import GraalScript.Compile

/-! A compilation with an output, taken apart into what its stages have found. -/
namespace GraalScript

theorem bind_eq_ok_iff {ε α β : Type} {x : Except ε α} {f : α → Except ε β} {b : β} :
    x >>= f = .ok b ↔ ∃ a, x = .ok a ∧ f a = .ok b := by
  cases x with
  | error e => exact ⟨nofun, fun ⟨_, h, _⟩ => nomatch h⟩
  | ok a => exact ⟨fun h => ⟨a, rfl, h⟩, fun ⟨_, same, h⟩ => by cases same; exact h⟩

theorem exists_ok_of_isSome {ε α : Type} {x : Except ε α} (h : x.toOption.isSome = true) :
    ∃ a, x = .ok a := by
  cases x with
  | error e => cases h
  | ok a => exact ⟨a, rfl⟩

theorem exists_ok_of_any {ε α : Type} {x : Except ε α} {f : α → Bool}
    (h : x.toOption.any f = true) : ∃ a, x = .ok a ∧ f a = true := by
  cases x with
  | error e => cases h
  | ok a => exact ⟨a, rfl, h⟩

theorem eq_ok_of_toOption {ε α : Type} {x : Except ε α} {a : α} (h : x.toOption = some a) :
    x = .ok a := by
  cases x with
  | error e => cases h
  | ok b => exact congrArg Except.ok (Option.some.inj h)

theorem Program.generate_eq_ok_iff {p : Program} {prologue : List UInt8} {out : Output} :
    p.generate prologue = .ok out ↔ ∃ draft, p.draft = .ok draft ∧
      draft.code.image prologue = .ok out.image ∧ draft.joined.toList = out.joined := by
  obtain ⟨image, joined⟩ := out
  simp only [generate, bind_eq_ok_iff, pure, Except.pure, Except.ok.injEq, Output.mk.injEq]
  constructor
  · rintro ⟨draft, drafted, _, written, rfl, rfl⟩
    exact ⟨draft, drafted, written, rfl⟩
  · rintro ⟨draft, drafted, written, rfl⟩
    exact ⟨draft, drafted, image, written, rfl, rfl⟩

theorem compile_result_eq_ok_iff {settings : Settings} {script : Option ScriptId} {source : String}
    {out : Output} :
    (compile settings script source).result = .ok out ↔ ∃ header parsed bound symbols,
      Header.ofScript settings script = .ok header ∧
      Program.parse source settings.maxNesting = .ok parsed ∧
      parsed.resolve header.env = .ok (bound, symbols) ∧
        bound.generate header.prologue = .ok out := by
  have mapped (x : Except CodeError Output) : x.mapError CompileError.ofCode = .ok out ↔
      x = .ok out := by
    cases x with
    | error e => exact ⟨nofun, nofun⟩
    | ok made =>
      exact ⟨fun h => congrArg _ (Except.ok.inj h), fun h => congrArg _ (Except.ok.inj h)⟩
  unfold compile
  cases Header.ofScript settings script with
  | error e => simp
  | ok header =>
    cases Program.parse source settings.maxNesting with
    | error e => simp
    | ok parsed =>
      cases resolved : parsed.resolve header.env with
      | error e => simp [resolved]
      | ok r =>
        obtain ⟨bound, symbols⟩ := r
        simp [resolved, mapped]

theorem compile_result_eq_error_cases {settings : Settings} {script : Option ScriptId}
    {source : String} {e : CompileError} (h : (compile settings script source).result = .error e) :
    (∃ he, Header.ofScript settings script = .error he ∧ e = .ofHeader he) ∨
    ∃ header, Header.ofScript settings script = .ok header ∧
      ((∃ pe, Program.parse source settings.maxNesting = .error pe ∧ e = .ofParse pe) ∨
        ∃ p, Program.parse source settings.maxNesting = .ok p ∧
          ((∃ re, p.resolve header.env = .error re ∧ e = .ofResolve re) ∨
            ∃ bound symbols ce, p.resolve header.env = .ok (bound, symbols) ∧
              bound.generate header.prologue = .error ce ∧ e = .ofCode ce)) := by
  unfold compile at h
  split at h
  next he rejected => exact .inl ⟨he, rejected, (Except.error.inj h).symm⟩
  next header accepted =>
    refine .inr ⟨header, accepted, ?_⟩
    split at h
    next pe unread => exact .inl ⟨pe, unread, (Except.error.inj h).symm⟩
    next p read =>
      refine .inr ⟨p, read, ?_⟩
      split at h
      next re unbound => exact .inl ⟨re, unbound, (Except.error.inj h).symm⟩
      next bound symbols resolved =>
        simp only at h
        cases generated : bound.generate header.prologue with
        | ok out =>
          rw [generated] at h
          cases h
        | error ce =>
          rw [generated] at h
          exact .inr ⟨bound, symbols, ce, resolved, generated, (Except.error.inj h).symm⟩

end GraalScript
