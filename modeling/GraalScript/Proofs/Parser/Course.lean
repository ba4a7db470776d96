import GraalScript.Proofs.Parser.Levels

/-! The course of a parser, step by step. A run is accounted for by the places it comes through:
after each look at the tokens, each token taken, and each way into a deeper level, a loop or a
switch and out of it again. Beside that it is kept how many tokens were taken, of which none is the
end of the source. -/
namespace GraalScript

/-- From `s` to `s'` tokens were taken, `n` of them at least, and not the end of the source. -/
def Stream.Crosses (n : Nat) (s s' : Stream) : Prop :=
  ∃ used : List Token, s.pending = used.map .ok ++ s'.pending ∧ n ≤ used.length ∧
    ∀ t ∈ used, t.kind ≠ .eos

theorem Stream.crosses_refl (s : Stream) : s.Crosses 0 s :=
  ⟨[], rfl, Nat.le_refl 0, List.forall_mem_nil _⟩

theorem Stream.Crosses.mono {n m : Nat} {s s' : Stream} (h : s.Crosses n s') (le : m ≤ n) :
    s.Crosses m s' := by
  obtain ⟨used, pending, count, real⟩ := h
  exact ⟨used, pending, Nat.le_trans le count, real⟩

theorem Stream.Crosses.trans {n m : Nat} {s s' s'' : Stream} (first : s.Crosses n s')
    (second : s'.Crosses m s'') : s.Crosses (n + m) s'' := by
  obtain ⟨used, pending, count, real⟩ := first
  obtain ⟨used', pending', count', real'⟩ := second
  refine ⟨used ++ used', ?_, ?_, ?_⟩
  · rw [pending, pending', List.map_append, List.append_assoc]
  · rw [List.length_append]
    omega
  · exact List.forall_mem_append.mpr ⟨real, real'⟩

theorem Stream.Crosses.length_le {n : Nat} {s s' : Stream} (h : s.Crosses n s') :
    s'.pending.length + n ≤ s.pending.length := by
  obtain ⟨used, pending, count, -⟩ := h
  rw [pending, List.length_append, List.length_map]
  omega

theorem Stream.crosses_one {s s' : Stream} {t : Token} (pending : s.pending = .ok t :: s'.pending)
    (real : t.kind ≠ .eos) : s.Crosses 1 s' := ⟨[t], pending, Nat.le_refl 1, by simpa using real⟩

namespace Parser

variable {α β : Type}

/-- What a parser does at one go: it gives a result or gives up, looks around, or takes a token. -/
inductive Single : {α : Type} → Parser α → Prop
  | pure {α : Type} (a : α) : Single (pure a : Parser α)
  | throw {α : Type} (e : ParseError) : Single (throw e : Parser α)
  | get : Single (get : Parser Stream)
  | peek : Single peek
  | advance : Single advance
  | consume (kind : TokenKind) : Single (consume kind)
  | accept (kind : TokenKind) : Single (accept kind)

/-- At the place `s`, the parser runs through the places `visited`. -/
inductive Runs : {α : Type} → Parser α → Stream → List Stream → Prop
  | single {α : Type} {p : Parser α} (h : Single p) (s : Stream) : Runs p s [(p.run s).2]
  | failed {α β : Type} {p : Parser α} {f : α → Parser β} {s s' : Stream} {e : ParseError}
      {visited : List Stream}
      (first : Runs p s visited) (run : p.run s = (.error e, s')) : Runs (p >>= f) s visited
  | bind {α β : Type} {p : Parser α} {f : α → Parser β} {s s' : Stream} {a : α}
      {front back : List Stream}
      (first : Runs p s front) (run : p.run s = (.ok a, s')) (second : Runs (f a) s' back) :
      Runs (p >>= f) s (front ++ back)
  | tooDeep {α : Type} (p : Parser α) {s : Stream} (full : s.enter = none) : Runs (nested p) s [s]
  | nested {α : Type} {p : Parser α} {s deeper : Stream} {visited : List Stream}
      (enter : s.enter = some deeper)
      (inner : Runs p deeper visited) :
        Runs (nested p) s (deeper :: visited ++ [(p.run deeper).2.leave])
  | insideLoop {α : Type} {p : Parser α} {s : Stream} {visited : List Stream}
      (inner : Runs p s.enterLoop visited) :
      Runs (insideLoop p) s (s.enterLoop :: visited ++ [(p.run s.enterLoop).2.leaveLoop])
  | insideSwitch {α : Type} {p : Parser α} {s : Stream} {visited : List Stream}
      (inner : Runs p s.enterSwitch visited) :
      Runs (insideSwitch p) s (s.enterSwitch :: visited ++ [(p.run s.enterSwitch).2.leaveSwitch])

theorem reaches_of_single {p : Parser α} (h : Single p) (s : Stream) : s.Reaches (p.run s).2 := by
  cases h with
  | pure | throw | get | peek => exact Stream.Reaches.refl s
  | advance => exact s.reaches_advance
  | consume kind => exact s.reaches_consume kind
  | accept kind => exact s.reaches_accept kind

theorem enter_eq_some {s deeper : Stream} (h : s.enter = some deeper) :
    s.depth < s.limit ∧ deeper = { s with depth := s.depth + 1 } := by
  unfold Stream.enter at h
  split at h <;> cases h
  exact ⟨‹_›, rfl⟩

theorem Runs.reaches {p : Parser α} {s : Stream} {visited : List Stream} (h : Runs p s visited) :
    s.Reaches (p.run s).2 := by
  induction h with
  | single h s => exact reaches_of_single h s
  | failed _ run ih =>
    rw [run] at ih
    rw [run_bind, run]
    exact ih
  | bind _ run _ ih ih' =>
    rw [run] at ih
    rw [run_bind, run]
    exact ih.trans ih'
  | tooDeep p full =>
    rw [run_nested, full]
    exact Stream.Reaches.refl _
  | nested enter _ ih =>
    obtain ⟨-, rfl⟩ := enter_eq_some enter
    rw [run_nested, enter]
    exact ⟨ih.pending, ih.size, congrArg (· - 1) ih.depth, ih.limit, ih.loops, ih.switches⟩
  | insideLoop _ ih =>
    exact ⟨ih.pending, ih.size, ih.depth, ih.limit, congrArg (· - 1) ih.loops, ih.switches⟩
  | insideSwitch _ ih =>
    exact ⟨ih.pending, ih.size, ih.depth, ih.limit, ih.loops, congrArg (· - 1) ih.switches⟩

/-- Nowhere on its way is a run deeper than the limit. -/
theorem Runs.depth_le {p : Parser α} {s : Stream} {visited : List Stream} (h : Runs p s visited)
    (start : s.depth ≤ s.limit) : ∀ m ∈ visited, m.depth ≤ s.limit := by
  induction h with
  | single h s =>
    have reaches := reaches_of_single h s
    simpa [reaches.depth] using start
  | failed _ _ ih => exact ih start
  | bind first run _ ih ih' =>
    have reaches := first.reaches
    rw [run] at reaches
    have later := ih' (by rw [reaches.depth, reaches.limit]; exact start)
    rw [reaches.limit] at later
    exact List.forall_mem_append.mpr ⟨ih start, later⟩
  | tooDeep => simpa using start
  | @nested _ p s deeper visited enter inner ih =>
    obtain ⟨room, rfl⟩ := enter_eq_some enter
    have back : (p.run _).2.depth = s.depth + 1 := inner.reaches.depth
    refine List.forall_mem_append.mpr ⟨List.forall_mem_cons.mpr ⟨room, ih room⟩,
      List.forall_mem_singleton.mpr ?_⟩
    rw [Stream.leave, back]
    exact start
  | insideLoop inner ih | insideSwitch inner ih =>
    have back := inner.reaches.depth
    refine List.forall_mem_append.mpr ⟨List.forall_mem_cons.mpr ⟨start, ih start⟩,
      List.forall_mem_singleton.mpr ?_⟩
    exact Nat.le_trans (Nat.le_of_eq back) start

theorem Runs.getLast_eq {p : Parser α} {s : Stream} {visited : List Stream} (h : Runs p s visited) :
    visited.getLast? = some (p.run s).2 := by
  induction h with
  | single => rfl
  | failed _ run ih =>
    rw [ih, run_bind, run]
  | bind _ run _ _ ih' =>
    rw [List.getLast?_append, ih', run_bind, run]
    rfl
  | tooDeep p full =>
    rw [run_nested, full]
    rfl
  | nested enter =>
    rw [List.getLast?_append, run_nested, enter]
    rfl
  | insideLoop | insideSwitch =>
    rw [List.getLast?_append]
    rfl

/-! How parsers are put together. -/

def Before (first : Option TokenKind) (s : Stream) : Prop :=
  ∀ kind ∈ first, ∃ t rest, s.pending = .ok t :: rest ∧ t.kind = kind

/-- Where the next token has the kind `first`, if one is given, `p` runs step by step; and if it
succeeds, it has taken tokens, `least` at least for what it found, and not the end of the source. -/
def Proceeds (first : Option TokenKind) (least : α → Nat) (p : Parser α) : Prop :=
  ∀ s : Stream, Before first s →
    (∃ visited, Runs p s visited) ∧ ∀ a s', p.run s = (.ok a, s') → s.Crosses (least a) s'

section steps

variable {first : Option TokenKind} {least : β → Nat} {c : α → Nat} {p q : Parser α}
  {f : α → Parser β}

theorem before_none (s : Stream) : Before none s := by
  rintro _ ⟨⟩

theorem proceeds_pure {a : α} (h : c a = 0) : Proceeds first c (pure a) := by
  refine fun s _ => ⟨⟨_, .single (.pure a) s⟩, ?_⟩
  rintro _ _ ⟨⟩
  rw [h]
  exact s.crosses_refl

theorem proceeds_throw (e : ParseError) : Proceeds first c (throw e) :=
  fun s _ => ⟨⟨_, .single (.throw e) s⟩, by rintro _ _ ⟨⟩⟩

/-- What is known of the next token holds for what comes first; behind it, fewer tokens are left to
be taken. -/
theorem Proceeds.bind (h : Proceeds first c p)
    (rest : ∀ a, Proceeds none (fun b => least b - c a) (f a)) :
    Proceeds first least (p >>= f) := by
  intro s before
  obtain ⟨⟨front, runs⟩, crosses⟩ := h s before
  rcases run : p.run s with ⟨e | a, s'⟩
  · refine ⟨⟨_, runs.failed run⟩, fun b s'' whole => ?_⟩
    rw [run_bind, run] at whole
    cases whole
  · obtain ⟨⟨back, runs'⟩, crosses'⟩ := rest a s' (before_none s')
    refine ⟨⟨_, runs.bind run runs'⟩, fun b s'' whole => ?_⟩
    rw [run_bind, run] at whole
    refine ((crosses a s' run).trans (crosses' b s'' whole)).mono ?_
    change least b ≤ c a + (least b - c a)
    omega

theorem proceeds_look {look : Parser α} {rest : α → Parser β}
    (runs : ∀ s, ∃ visited, Runs look s visited) (same : ∀ s, (look.run s).2 = s)
    (h : ∀ s a, Before first s → (look.run s).1 = .ok a →
      ∃ first', Before first' s ∧ Proceeds first' least (rest a)) :
    Proceeds first least (look >>= rest) := by
  intro s before
  obtain ⟨front, runs⟩ := runs s
  have stays : look.run s = ((look.run s).1, s) := Prod.ext rfl (same s)
  rcases found : (look.run s).1 with e | a <;> rw [found] at stays
  · refine ⟨⟨_, runs.failed stays⟩, fun b s' whole => ?_⟩
    rw [run_bind, stays] at whole
    cases whole
  · obtain ⟨first', known, proceeds⟩ := h s a before found
    obtain ⟨⟨back, runs'⟩, crosses⟩ := proceeds s known
    refine ⟨⟨_, runs.bind stays runs'⟩, fun b s' whole => crosses b s' ?_⟩
    rwa [run_bind, stays] at whole

theorem pending_of_peek {s : Stream} {t : Token} (h : (peek.run s).1 = .ok t) :
    ∃ rest, s.pending = .ok t :: rest := by
  change s.peek.mapError ParseError.token = .ok t at h
  unfold Stream.peek at h
  rcases pending : s.pending with _ | ⟨e | u, rest⟩ <;> rw [pending] at h <;> cases h
  exact ⟨rest, rfl⟩

theorem proceeds_peek {f : Token → Parser β}
    (h : ∀ t, (∀ kind ∈ first, t.kind = kind) → Proceeds (some t.kind) least (f t)) :
    Proceeds first least (peek >>= f) := by
  refine proceeds_look (fun s => ⟨_, .single .peek s⟩) (fun _ => rfl) fun s t before seen => ?_
  obtain ⟨rest, pending⟩ := pending_of_peek seen
  refine ⟨some t.kind, ?_, h t fun kind known => ?_⟩
  · rintro _ ⟨⟩
    exact ⟨t, rest, pending, rfl⟩
  · obtain ⟨t', rest', pending', same⟩ := before kind known
    rw [pending] at pending'
    cases pending'
    exact same

theorem proceeds_peekKind {f : TokenKind → Parser β}
    (h : ∀ kind, (∀ k ∈ first, kind = k) → Proceeds (some kind) least (f kind)) :
    Proceeds first least (peekKind >>= f) := by
  change Proceeds first least ((peek >>= fun t => pure t.kind) >>= f)
  rw [bind_assoc]
  refine proceeds_peek fun t known => ?_
  rw [pure_bind]
  exact h t.kind known

theorem pending_of_advance {s s' : Stream} {t : Token} (h : advance.run s = (.ok t, s')) :
    s.pending = .ok t :: s'.pending := by
  change (s.advance.1.mapError ParseError.token, s.advance.2) = _ at h
  unfold Stream.advance Stream.next at h
  rcases pending : s.pending with _ | ⟨e | u, rest⟩ <;> simp only [pending] at h <;> cases h
  rfl

theorem proceeds_advance {kind : TokenKind} {f : Token → Parser β} (real : kind ≠ .eos)
    (rest : ∀ t, Proceeds none (fun b => least b - 1) (f t)) :
    Proceeds (some kind) least (advance >>= f) := by
  refine Proceeds.bind (c := fun _ => 1)
    (fun s before => ⟨⟨_, .single .advance s⟩, fun t s' run => ?_⟩) rest
  obtain ⟨u, later, pending, same⟩ := before kind rfl
  have taken := pending_of_advance run
  obtain ⟨rfl, -⟩ : u = t ∧ later = s'.pending := by simpa using pending.symm.trans taken
  exact Stream.crosses_one taken (same ▸ real)

theorem crosses_consume {kind : TokenKind} {s s' : Stream} {t : Token} (real : kind ≠ .eos)
    (h : s.consume kind = (.ok t, s')) : s.Crosses 1 s' := by
  unfold Stream.consume Stream.peek Stream.advance Stream.next at h
  rcases pending : s.pending with _ | ⟨e | u, later⟩ <;> simp only [pending] at h
  · cases h
  · cases h
  · split at h <;> cases h
    next same => exact Stream.crosses_one pending (same ▸ real)

theorem proceeds_consume (kind : TokenKind) {f : Token → Parser β} (real : kind ≠ .eos)
    (rest : ∀ t, Proceeds none (fun b => least b - 1) (f t)) :
    Proceeds first least (consume kind >>= f) := by
  refine Proceeds.bind (c := fun _ => 1)
    (fun s _ => ⟨⟨_, .single (.consume kind) s⟩, fun t s' run => ?_⟩) rest
  change ((s.consume kind).1.mapError ParseError.token, (s.consume kind).2) = _ at run
  rcases eq : s.consume kind with ⟨e | u, s₁⟩ <;> rw [eq] at run <;> cases run
  exact crosses_consume real eq

theorem proceeds_accept (kind : TokenKind) {f : Bool → Parser β} (real : kind ≠ .eos)
    (yes : Proceeds none (fun b => least b - 1) (f true)) (no : Proceeds first least (f false)) :
    Proceeds first least (accept kind >>= f) := by
  intro s before
  have step : (accept kind).run s = (.ok (s.accept kind).1, (s.accept kind).2) := rfl
  have runs : Runs (accept kind) s _ := .single (.accept kind) s
  unfold Stream.accept at step
  rcases eq : s.consume kind with ⟨e | t, s'⟩ <;> rw [eq] at step
  · obtain ⟨⟨back, runs'⟩, crosses⟩ := no s before
    refine ⟨⟨_, runs.bind step runs'⟩, fun b s' whole => crosses b s' ?_⟩
    rwa [run_bind, step] at whole
  · obtain ⟨⟨back, runs'⟩, crosses⟩ := yes s' (before_none s')
    refine ⟨⟨_, runs.bind step runs'⟩, fun b s'' whole => ?_⟩
    rw [run_bind, step] at whole
    refine ((crosses_consume real eq).trans (crosses b s'' whole)).mono ?_
    change least b ≤ 1 + (least b - 1)
    omega

theorem Proceeds.mono {c' : α → Nat} (h : Proceeds first c p) (le : ∀ a, c' a ≤ c a) :
    Proceeds first c' p :=
  fun s before => ⟨(h s before).1, fun a s' run => ((h s before).2 a s' run).mono (le a)⟩

theorem Proceeds.anywhere (h : Proceeds none c p) : Proceeds first c p :=
  fun s _ => h s (before_none s)

theorem proceeds_get {f : Stream → Parser β} (h : ∀ s, Proceeds first least (f s)) :
    Proceeds first least (do f (← get)) :=
  proceeds_look (fun s => ⟨_, .single .get s⟩) (fun _ => rfl) fun s _ before found =>
    ⟨first, before, (Except.ok.inj found) ▸ h s⟩

theorem proceeds_lastLine : Proceeds first (fun _ => 0) lastLine :=
  proceeds_get fun _ => proceeds_pure rfl

theorem proceeds_ite {b : Prop} [Decidable b] (yes : Proceeds first c p) (no : Proceeds first c q) :
    Proceeds first c (if b then p else q) := by
  split
  · exact yes
  · exact no

theorem proceeds_guard {b : Prop} [Decidable b] {e : ParseError} (rest : Proceeds none c p) :
    Proceeds first c (if b then (do (throw e : Parser Unit); p) else p) :=
  proceeds_ite ((proceeds_throw (c := fun _ => 0) e).bind fun _ => rest) rest.anywhere

theorem proceeds_tooDeep :
    Proceeds first c (do throw (.nestingTooDeep (← get).limit (← get).faultLine)) :=
  proceeds_get fun _ => proceeds_get fun _ => proceeds_throw _

theorem proceeds_nested (h : Proceeds first c p) : Proceeds first c (nested p) := by
  intro s before
  rcases enter : s.enter with _ | deeper
  · refine ⟨⟨_, .tooDeep p enter⟩, fun a s' run => ?_⟩
    rw [run_nested, enter] at run
    cases run
  · obtain ⟨-, rfl⟩ := enter_eq_some enter
    obtain ⟨⟨visited, runs⟩, crosses⟩ := h { s with depth := s.depth + 1 } before
    refine ⟨⟨_, .nested enter runs⟩, fun a s' run => ?_⟩
    rw [run_nested, enter] at run
    obtain ⟨found, rfl⟩ := Prod.mk.inj run
    exact crosses a (p.run { s with depth := s.depth + 1 }).2 (Prod.ext found rfl)

theorem proceeds_insideLoop (h : Proceeds first c p) : Proceeds first c (insideLoop p) := by
  intro s before
  obtain ⟨⟨visited, runs⟩, crosses⟩ := h s.enterLoop before
  refine ⟨⟨_, .insideLoop runs⟩, fun a s' run => ?_⟩
  obtain ⟨found, rfl⟩ := Prod.mk.inj run
  exact crosses a (p.run s.enterLoop).2 (Prod.ext found rfl)

theorem proceeds_insideSwitch (h : Proceeds first c p) : Proceeds first c (insideSwitch p) := by
  intro s before
  obtain ⟨⟨visited, runs⟩, crosses⟩ := h s.enterSwitch before
  refine ⟨⟨_, .insideSwitch runs⟩, fun a s' run => ?_⟩
  obtain ⟨found, rfl⟩ := Prod.mk.inj run
  exact crosses a (p.run s.enterSwitch).2 (Prod.ext found rfl)

end steps

section rounds

variable {step : α → Parser (α ⊕ β)} {first : Option TokenKind} {m : Nat} {a : α}

/-- Every round that is followed by another one takes a token. -/
def Steady (step : α → Parser (α ⊕ β)) : Prop :=
  ∀ a, Proceeds none (Sum.elim (fun _ => 1) fun _ => 0) (step a)

theorem proceeds_iterate (h : Steady step) (n : Nat) (a : α) :
    Proceeds none (fun _ => 0) (iterate step n a) := by
  induction n generalizing a with
  | zero => exact proceeds_lastLine.bind fun _ => proceeds_throw _
  | succ n ih =>
    refine (h a).bind fun r => ?_
    cases r with
    | inl a => exact (ih a).mono fun _ => Nat.zero_le _
    | inr b => exact proceeds_pure rfl

theorem proceeds_loop (start : Proceeds first (fun _ => m) (step a)) (h : Steady step) :
    Proceeds first (fun _ => m) (loop a step) := by
  refine proceeds_get fun s => start.bind fun r => ?_
  cases r with
  | inl a => exact (proceeds_iterate h s.size a).mono fun _ => Nat.le_of_eq (Nat.sub_self m)
  | inr b => exact proceeds_pure (Nat.sub_self m)

theorem Steady.proceeds (h : Steady step) (a : α) : Proceeds first (fun _ => 0) (loop a step) :=
  (proceeds_loop ((h a).mono fun _ => Nat.zero_le _) h).anywhere

end rounds

section expressions

variable {first : Option TokenKind}

theorem proceeds_ident : Proceeds first (fun _ => 1) ident :=
  proceeds_consume _ (by decide) fun _ => proceeds_pure rfl

theorem proceeds_literal : Proceeds first (fun _ => 1) literal := by
  intro s _
  have runs : Runs advance s _ := .single .advance s
  rcases run : advance.run s with ⟨e | t, s'⟩
  · refine ⟨⟨_, runs.failed run⟩, fun a s'' whole => ?_⟩
    rw [literal, run_bind, run] at whole
    cases whole
  · rcases found : literalValue t with e | value
    · refine ⟨⟨_, runs.bind run (by rw [found]; exact .single (.throw e) s')⟩,
        fun a s'' whole => ?_⟩
      rw [literal, run_bind, run] at whole
      simp only [found] at whole
      cases whole
    · refine ⟨⟨_, runs.bind run (by rw [found]; exact .single (.pure (value, t.line)) s')⟩,
        fun a s'' whole => ?_⟩
      rw [literal, run_bind, run] at whole
      simp only [found] at whole
      cases whole
      have real : t.kind ≠ .eos := by
        intro eos
        rw [literalValue, eos] at found
        cases found
      exact Stream.crosses_one (pending_of_advance run) real

theorem proceeds_comma : Proceeds first (fun found => found.elim 0 fun _ => 1) comma := by
  refine proceeds_peekKind fun _ _ => proceeds_ite ?_ (proceeds_pure rfl)
  exact proceeds_consume _ (by decide) fun _ => proceeds_pure rfl

/-- Whatever the items are, it is the commas that keep a list going. -/
theorem steady_listedRound {p : Parser α} {c : α → Nat} (item : Proceeds none c p)
    (close : TokenKind) : Steady (listedRound p close) := by
  refine fun seen => proceeds_peekKind fun kind _ => proceeds_ite (proceeds_pure rfl) ?_
  refine item.anywhere.bind fun a => proceeds_comma.bind fun found => ?_
  cases found
  · exact proceeds_pure (Nat.zero_sub _)
  · exact proceeds_pure (Nat.sub_eq_zero_of_le (Nat.sub_le 1 _))

theorem steady_dimensionRound : Steady dimensionRound := by
  refine fun seen => proceeds_accept _ (by decide) ?_ (proceeds_pure rfl)
  refine proceeds_literal.bind fun l => ?_
  obtain ⟨value, line⟩ := l
  cases value with
  | int size => exact proceeds_consume _ (by decide) fun _ => proceeds_pure rfl
  | _ => exact proceeds_throw _

variable {deeper : Goal → Parser Expr} (below : ∀ g, Proceeds none (fun _ => 1) (deeper g))

include below

theorem proceeds_arguments {close : TokenKind} (real : close ≠ .eos) :
    Proceeds first (fun _ => 1) (arguments deeper close) := by
  refine ((steady_listedRound (below .assignment) close).proceeds _).bind fun args => ?_
  exact proceeds_consume _ real fun _ => proceeds_pure rfl

theorem proceeds_newExpr : Proceeds first (fun _ => 1) (newExpr deeper) := by
  refine proceeds_consume _ (by decide) fun t => proceeds_peekKind fun kind _ => proceeds_ite ?_ ?_
  · exact (steady_dimensionRound.proceeds _).bind fun dims => proceeds_pure rfl
  · refine proceeds_ident.bind fun cls => proceeds_consume _ (by decide) fun _ => ?_
    exact (proceeds_arguments below (by decide)).bind fun args => proceeds_pure rfl

theorem proceeds_nameExpr : Proceeds first (fun _ => 1) (nameExpr deeper) := by
  refine proceeds_ident.bind fun name => proceeds_peekKind fun kind _ => ?_
  cases CastKind.ofName? name.name with
  | none => exact proceeds_pure rfl
  | some cast =>
    by_cases call : kind = .leftParen
    · simp only [call, if_true]
      refine proceeds_advance (by decide) fun _ => (below .assignment).bind fun operand => ?_
      exact proceeds_consume _ (by decide) fun _ => proceeds_pure rfl
    · simp only [call, if_false]
      exact proceeds_pure rfl

theorem proceeds_primary : Proceeds first (fun _ => 1) (primary deeper) := by
  refine proceeds_peek fun t _ => ?_
  generalize kind : t.kind = k
  split
  iterate 6 exact proceeds_literal.bind fun l => proceeds_pure rfl
  · exact proceeds_nameExpr below
  · exact proceeds_newExpr below
  · refine proceeds_advance (by decide) fun _ => (below .assignment).bind fun e => ?_
    exact proceeds_consume _ (by decide) fun _ => proceeds_pure rfl
  · refine proceeds_advance (by decide) fun _ => ?_
    exact (proceeds_arguments below (by decide)).bind fun items => proceeds_pure rfl
  · exact proceeds_throw _

theorem steady_suffix : Steady (suffix deeper) := by
  refine fun e => proceeds_peekKind fun kind _ => ?_
  split
  · refine proceeds_advance (by decide) fun _ => ?_
    exact (proceeds_arguments below (by decide)).bind fun args => proceeds_pure rfl
  · exact proceeds_advance (by decide) fun _ => proceeds_ident.bind fun field => proceeds_pure rfl
  · refine proceeds_advance (by decide) fun _ => (below .assignment).bind fun i => ?_
    exact proceeds_consume _ (by decide) fun _ => proceeds_pure rfl
  · split
    next step =>
      refine proceeds_advance (by rintro rfl; cases step) fun t =>
        proceeds_guard (proceeds_pure rfl)
    next => exact proceeds_pure rfl

theorem proceeds_suffixed : Proceeds first (fun _ => 1) (suffixed deeper) :=
  (proceeds_primary below).bind fun e => (steady_suffix below).proceeds e

theorem proceeds_unary : Proceeds first (fun _ => 1) (unary deeper) := by
  refine proceeds_peekKind fun kind _ => ?_
  split
  next found =>
    refine proceeds_advance (by rintro rfl; cases found) fun t => ?_
    exact (below .unary).bind fun operand => proceeds_pure rfl
  next found =>
    refine proceeds_advance (by rintro rfl; cases found) fun t =>
      (below .unary).bind fun target => ?_
    exact proceeds_guard (proceeds_pure rfl)
  next => exact proceeds_suffixed below

theorem steady_connected (least : Nat) : Steady (connected deeper least) := by
  refine fun lhs => proceeds_peekKind fun kind _ => ?_
  split
  next => exact proceeds_pure rfl
  next c power found =>
    refine proceeds_ite (proceeds_pure rfl)
      (proceeds_advance (by rintro rfl; cases found) fun t => ?_)
    cases c <;> exact (below _).bind fun rhs => proceeds_pure rfl

theorem proceeds_binary (least : Nat) : Proceeds first (fun _ => 1) (binary deeper least) :=
  (proceeds_unary below).bind fun lhs => (steady_connected below least).proceeds lhs

theorem proceeds_membership (value : Expr) (line power : Nat) :
    Proceeds first (fun _ => 1) (membership deeper value line power) := by
  refine proceeds_accept _ (by decide) ?_
    ((proceeds_binary below power).bind fun object => proceeds_pure rfl)
  refine (below .assignment).bind fun lower => proceeds_consume _ (by decide) fun _ => ?_
  exact (below .assignment).bind fun upper => proceeds_consume _ (by decide) fun _ =>
    proceeds_pure rfl

theorem proceeds_ternary : Proceeds first (fun _ => 1) (ternary deeper) := by
  refine (proceeds_binary below 1).bind fun cond =>
    proceeds_accept _ (by decide) ?_ (proceeds_pure rfl)
  refine proceeds_lastLine.bind fun line => (below .assignment).bind fun yes => ?_
  exact proceeds_consume _ (by decide) fun _ => (below .assignment).bind fun no => proceeds_pure rfl

theorem proceeds_assignment : Proceeds first (fun _ => 1) (assignment deeper) := by
  refine (proceeds_ternary below).bind fun target => proceeds_peekKind fun kind _ => ?_
  split
  next => exact proceeds_pure rfl
  next op found =>
    refine proceeds_advance (by rintro rfl; cases found) fun t => proceeds_guard ?_
    exact (below .assignment).bind fun value => proceeds_pure rfl

theorem proceeds_goal (g : Goal) : Proceeds first (fun _ => 1) (goal deeper g) := by
  cases g with
  | assignment => exact proceeds_assignment below
  | binary power => exact proceeds_binary below power
  | membership value line power => exact proceeds_membership below value line power
  | unary => exact proceeds_unary below

omit below

theorem proceeds_exprAt (n : Nat) (g : Goal) : Proceeds none (fun _ => 1) (exprAt n g) := by
  induction n generalizing g with
  | zero => exact proceeds_tooDeep
  | succ n ih => exact proceeds_goal (fun g => proceeds_nested (ih g)) g

theorem proceeds_room : Proceeds first (fun _ => 0) room :=
  proceeds_get fun _ => proceeds_get fun _ => proceeds_pure rfl

theorem proceeds_deeperExpr (g : Goal) : Proceeds first (fun _ => 1) (deeperExpr g) :=
  proceeds_room.bind fun n => proceeds_nested (proceeds_exprAt n g)

theorem proceeds_expr : Proceeds first (fun _ => 1) expr := proceeds_deeperExpr .assignment

/-- How expressions are read: with the levels that a place has left, or inside another one with `n`
levels left. -/
inductive ExprReader : (Goal → Parser Expr) → Prop
  | here : ExprReader deeperExpr
  | inside (n : Nat) : ExprReader fun g => nested (exprAt n g)

theorem ExprReader.proceeds {deeper : Goal → Parser Expr} (h : ExprReader deeper) (g : Goal) :
    Proceeds first (fun _ => 1) (deeper g) := by
  cases h with
  | here => exact proceeds_deeperExpr g
  | inside n => exact (proceeds_nested (proceeds_exprAt n g)).anywhere

end expressions

section statements

variable {first : Option TokenKind}

theorem proceeds_condition : Proceeds first (fun _ => 1) condition :=
  proceeds_consume _ (by decide) fun _ => proceeds_expr.bind fun _ =>
    proceeds_consume _ (by decide) fun _ => proceeds_pure rfl

theorem proceeds_exprUnless (close : TokenKind) : Proceeds first (fun _ => 0) (exprUnless close) :=
  proceeds_peekKind fun _ _ => proceeds_ite (proceeds_pure rfl)
    (proceeds_expr.bind fun _ => proceeds_pure rfl)

theorem proceeds_exprStmt : Proceeds first (fun _ => 1) exprStmt :=
  proceeds_expr.bind fun _ => proceeds_consume _ (by decide) fun _ => proceeds_pure rfl

theorem proceeds_returnStmt : Proceeds first (fun _ => 1) returnStmt := by
  refine proceeds_consume _ (by decide) fun t => (proceeds_exprUnless _).bind fun value => ?_
  exact proceeds_consume _ (by decide) fun _ => proceeds_pure rfl

theorem proceeds_varDef : Proceeds first (fun _ => 1) varDef := by
  refine proceeds_ident.bind fun name => proceeds_accept _ (by decide) ?_ (proceeds_pure rfl)
  exact proceeds_expr.bind fun value => proceeds_pure rfl

theorem steady_varRound (line : Nat) : Steady (varRound line) :=
  fun _ => proceeds_varDef.bind fun _ =>
    proceeds_accept _ (by decide) (proceeds_pure rfl) (proceeds_pure rfl)

theorem proceeds_varDecl : Proceeds first (fun _ => 1) varDecl :=
  proceeds_consume _ (by decide) fun t => (steady_varRound t.line).proceeds []

theorem proceeds_varStmt : Proceeds first (fun _ => 1) varStmt :=
  proceeds_varDecl.bind fun _ => proceeds_consume _ (by decide) fun _ => proceeds_pure rfl

theorem proceeds_constStmt : Proceeds first (fun _ => 1) constStmt := by
  refine proceeds_consume _ (by decide) fun t => proceeds_ident.bind fun name => ?_
  refine proceeds_consume _ (by decide) fun _ => proceeds_expr.bind fun value => ?_
  exact proceeds_consume _ (by decide) fun _ => proceeds_pure rfl

theorem proceeds_jumpStmt {kind : TokenKind} (real : kind ≠ .eos) (line : Nat)
    (allowed : Stream → Bool) (what : Misplaced) (s : Stmt) :
    Proceeds (some kind) (fun _ => 1) (jumpStmt line allowed what s) := by
  refine proceeds_advance real fun _ => proceeds_get fun st => proceeds_guard ?_
  exact proceeds_consume _ (by decide) fun _ => proceeds_pure rfl

theorem proceeds_forInit : Proceeds first (fun _ => 0) forInit := by
  refine proceeds_peekKind fun kind _ => ?_
  split
  · exact proceeds_pure rfl
  · exact proceeds_varDecl.bind fun decl => proceeds_pure rfl
  · exact proceeds_expr.bind fun e => proceeds_pure rfl

theorem proceeds_label {kind : TokenKind}
    (isLabel : kind = .keyword .caseKw ∨ kind = .keyword .defaultKw) (seen : List (Option Expr)) :
    Proceeds (some kind) (fun _ => 1) (labelRound seen) := by
  refine proceeds_peekKind fun k known => ?_
  obtain rfl := known kind rfl
  rcases isLabel with rfl | rfl
  · refine proceeds_advance (by decide) fun _ => proceeds_expr.bind fun label => ?_
    exact proceeds_consume _ (by decide) fun _ => proceeds_pure rfl
  · exact proceeds_advance (by decide) fun _ => proceeds_consume _ (by decide) fun _ =>
      proceeds_pure rfl

theorem steady_labelRound : Steady labelRound := by
  refine fun seen => proceeds_peekKind fun kind _ => ?_
  split
  · refine proceeds_advance (by decide) fun _ => proceeds_expr.bind fun label => ?_
    exact proceeds_consume _ (by decide) fun _ => proceeds_pure rfl
  · exact proceeds_advance (by decide) fun _ => proceeds_consume _ (by decide) fun _ =>
      proceeds_pure rfl
  · exact proceeds_pure rfl

theorem proceeds_caseLabels {kind : TokenKind}
    (isLabel : kind = .keyword .caseKw ∨ kind = .keyword .defaultKw) :
    Proceeds (some kind) (fun _ => 1) caseLabels :=
  proceeds_loop (proceeds_label isLabel []) steady_labelRound

variable {stmt : Parser Stmt} (below : Proceeds none (fun _ => 1) stmt)

include below

theorem steady_blockRound : Steady (blockRound stmt) := by
  refine fun seen => proceeds_peekKind fun kind _ => ?_
  split
  · exact proceeds_pure rfl
  · exact proceeds_consume _ (by decide) fun _ => proceeds_pure rfl
  · exact below.anywhere.bind fun s => proceeds_pure rfl

theorem proceeds_block : Proceeds first (fun _ => 1) (block stmt) := by
  refine proceeds_consume _ (by decide) fun t =>
    ((steady_blockRound below).proceeds []).bind fun body => ?_
  exact proceeds_consume _ (by decide) fun _ => proceeds_pure rfl

theorem proceeds_blockStmt : Proceeds first (fun _ => 1) (blockStmt stmt) :=
  (proceeds_block below).bind fun _ => proceeds_pure rfl

theorem proceeds_ifStmt : Proceeds first (fun _ => 1) (ifStmt stmt) := by
  refine proceeds_consume _ (by decide) fun t => proceeds_condition.bind fun cond =>
    below.bind fun yes => ?_
  exact proceeds_accept _ (by decide) (below.bind fun no => proceeds_pure rfl) (proceeds_pure rfl)

theorem proceeds_whileStmt : Proceeds first (fun _ => 1) (whileStmt stmt) := by
  refine proceeds_consume _ (by decide) fun t => proceeds_condition.bind fun cond => ?_
  exact (proceeds_insideLoop below).bind fun body => proceeds_pure rfl

theorem proceeds_withStmt : Proceeds first (fun _ => 1) (withStmt stmt) :=
  proceeds_consume _ (by decide) fun _ => proceeds_condition.bind fun _ => below.bind fun _ =>
    proceeds_pure rfl

theorem proceeds_forStmt : Proceeds first (fun _ => 1) (forStmt stmt) := by
  have body := proceeds_insideLoop below
  refine proceeds_consume _ (by decide) fun t => proceeds_consume _ (by decide) fun _ =>
    proceeds_get fun s => ?_
  refine proceeds_ite ?_ ?_
  · refine proceeds_accept _ (by decide) ?_ ?_
    all_goals
      refine proceeds_ident.bind fun item => proceeds_consume _ (by decide) fun _ => ?_
      refine proceeds_expr.bind fun iterable => proceeds_consume _ (by decide) fun _ => ?_
      exact body.bind fun body => proceeds_pure rfl
  · refine proceeds_forInit.bind fun init => proceeds_consume _ (by decide) fun _ => ?_
    refine (proceeds_exprUnless _).bind fun cond => proceeds_consume _ (by decide) fun _ => ?_
    refine (proceeds_exprUnless _).bind fun step => proceeds_consume _ (by decide) fun _ => ?_
    exact body.bind fun body => proceeds_pure rfl

theorem steady_bodyRound : Steady (bodyRound stmt) := by
  refine fun seen => proceeds_peekKind fun kind _ => ?_
  split
  iterate 3 exact proceeds_pure rfl
  · exact proceeds_consume _ (by decide) fun _ => proceeds_pure rfl
  · exact below.anywhere.bind fun s => proceeds_pure rfl

theorem steady_caseRound : Steady (caseRound stmt) := by
  have one (line : Nat) (seen : List Case) {kind : TokenKind}
      (isLabel : kind = .keyword .caseKw ∨ kind = .keyword .defaultKw) :
      Proceeds (some kind) (Sum.elim (fun _ => 1) fun _ => 0) (do
        let labels ← caseLabels
        let c := Case.mk line labels (← caseBody stmt)
        if c.isDefault && seen.any Case.isDefault then throw (.misplaced .secondDefault c.line)
        return (.inl (c :: seen) : List Case ⊕ List Case)) := by
    refine (proceeds_caseLabels isLabel).bind fun labels =>
      ((steady_bodyRound below).proceeds []).bind fun body => ?_
    exact proceeds_guard (proceeds_pure rfl)
  refine fun seen => proceeds_peek fun t _ => ?_
  generalize kind : t.kind = k
  split
  · exact proceeds_pure rfl
  · exact one t.line seen (.inl rfl)
  · exact one t.line seen (.inr rfl)
  · exact proceeds_throw _

theorem proceeds_switchStmt : Proceeds first (fun _ => 1) (switchStmt stmt) := by
  refine proceeds_consume _ (by decide) fun t => proceeds_condition.bind fun value => ?_
  refine proceeds_consume _ (by decide) fun _ => ?_
  refine (proceeds_insideSwitch ((steady_caseRound below).proceeds [])).bind fun cs => ?_
  exact proceeds_consume _ (by decide) fun _ => proceeds_pure rfl

theorem proceeds_newStmt : Proceeds first (fun _ => 1) (newStmt stmt) := by
  refine (proceeds_newExpr proceeds_deeperExpr).bind fun e => proceeds_peekKind fun kind _ => ?_
  refine proceeds_ite (proceeds_consume _ (by decide) fun _ => proceeds_pure rfl) ?_
  split
  · exact (proceeds_block below).bind fun b => proceeds_pure rfl
  · exact proceeds_lastLine.bind fun line => proceeds_throw _

theorem proceeds_keywordStmt (t : Token) (word : Keyword) :
    Proceeds (some (.keyword word)) (fun _ => 1) (keywordStmt stmt t word) := by
  cases word with
  | ifKw => exact proceeds_ifStmt below
  | whileKw => exact proceeds_whileStmt below
  | forKw => exact proceeds_forStmt below
  | withKw => exact proceeds_withStmt below
  | returnKw => exact proceeds_returnStmt
  | switchKw => exact proceeds_switchStmt below
  | newKw => exact proceeds_newStmt below
  | breakKw | continueKw => exact proceeds_jumpStmt (by decide) _ _ _ _
  | varKw => exact proceeds_varStmt
  | constKw => exact proceeds_constStmt
  | functionKw | publicKw | elseKw | caseKw | defaultKw | inKw => exact proceeds_throw _
  | trueKw | falseKw | nullKw => exact proceeds_exprStmt

theorem proceeds_anyStmt : Proceeds none (fun _ => 1) (anyStmt stmt) := by
  refine proceeds_peek fun t _ => ?_
  generalize kind : t.kind = k
  split
  · exact proceeds_blockStmt below
  · exact proceeds_advance (by decide) fun _ => proceeds_pure rfl
  · exact proceeds_keywordStmt below t _
  · exact proceeds_throw _
  · exact proceeds_exprStmt

omit below

theorem proceeds_stmtAt (n : Nat) : Proceeds none (fun _ => 1) (stmtAt n) := by
  induction n with
  | zero => exact proceeds_tooDeep
  | succ n ih => exact proceeds_anyStmt (proceeds_nested ih)

theorem proceeds_stmt : Proceeds first (fun _ => 1) Parser.stmt :=
  proceeds_room.bind fun n => proceeds_nested (proceeds_stmtAt n)

/-- How statements are read: with the levels that a place has left, or inside another one with `n`
levels left. -/
inductive StmtReader : Parser Stmt → Prop
  | here : StmtReader Parser.stmt
  | inside (n : Nat) : StmtReader (nested (stmtAt n))

theorem StmtReader.proceeds (h : StmtReader stmt) : Proceeds first (fun _ => 1) stmt := by
  cases h with
  | here => exact proceeds_stmt
  | inside n => exact (proceeds_nested (proceeds_stmtAt n)).anywhere

theorem proceeds_func : Proceeds first (fun _ => 1) func := by
  have rest (line : Nat) (isPublic : Bool) (object : Option Ident) (name : Ident) :
      Proceeds none (fun _ => 0) (do
        let _ ← consume .leftParen
        let params ← listed ident .rightParen
        let _ ← consume .rightParen
        let body ← block Parser.stmt
        return (⟨line, isPublic, object, name, params.items, body⟩ : Func)) := by
    refine proceeds_consume _ (by decide) fun _ => ?_
    refine ((steady_listedRound proceeds_ident _).proceeds _).bind fun params => ?_
    refine proceeds_consume _ (by decide) fun _ => ?_
    exact (proceeds_block proceeds_stmt).bind fun body => proceeds_pure rfl
  -- the signature is the same behind `public` as without it
  refine proceeds_accept _ (by decide) ?_ ?_
  all_goals
    refine proceeds_consume _ (by decide) fun t => proceeds_ident.bind fun first =>
      proceeds_accept _ (by decide) ?_ ?_
    · simp only [pure_bind, if_true]
      exact proceeds_ident.bind fun name => rest t.line _ (some first) name
    · simp only [pure_bind]
      exact rest t.line _ none first

theorem steady_itemRound : Steady itemRound := by
  refine fun seen => proceeds_peek fun t _ => ?_
  generalize kind : t.kind = k
  split
  · exact proceeds_guard (proceeds_pure rfl)
  · exact proceeds_advance (by decide) fun _ => proceeds_guard (proceeds_pure rfl)
  iterate 2 exact proceeds_func.bind fun f => proceeds_pure rfl
  · exact proceeds_stmt.bind fun s => proceeds_pure rfl

theorem proceeds_program : Proceeds first (fun _ => 0) program := steady_itemRound.proceeds _

end statements

end Parser

end GraalScript
