import GraalScript.Proofs.Parser.Grammar
import GraalScript.Proofs.Parser.Levels
import GraalScript.Tree.Parser.Expr

/-! Parsers and readers side by side. A reader tracks a parser if it reads the same and leaves the
same tokens, and fails where the parser fails for another reason than its limit on nesting. What
they take is kept beside it: an expression never ends with `in`, so a bar behind one closes a
range. -/
namespace GraalScript

namespace Grammar

/-- Operators that bind more tightly than comparisons. -/
def isTight : TokenKind → Bool
  | .atSign | .plus | .minus | .star | .slash | .percent | .caret => true
  | _ => false

/-- No bar is followed by an operator that binds more tightly than comparisons, except right behind
`in`, where it opens a range. -/
def barsApart : Tokens → Bool
  | .ok t :: .ok bar :: .ok op :: rest =>
    (bar.kind != .pipe || t.kind == .keyword .inKw || !isTight op.kind) &&
      barsApart (.ok bar :: .ok op :: rest)
  | _ :: rest => barsApart rest
  | [] => true

/-- The tokens on which a reader is compared. -/
def Admits (rules : Grammar) (ts : Tokens) : Prop := rules = .loose ∨ barsApart ts = true

/-- Tokens were taken, the last of them not `in`. -/
def Full (used : Tokens) : Prop :=
  ∃ front t, used = front ++ [Except.ok t] ∧ t.kind ≠ .keyword .inKw

/-- If tokens were taken, the last of them is not `in`. -/
def Calm (used : Tokens) : Prop := used = [] ∨ Full used

variable {rules : Grammar} {u v ts : Tokens}

theorem barsApart_tail {i : Except LexError Token} (h : barsApart (i :: ts) = true) :
    barsApart ts = true := by
  unfold barsApart at h
  split at h
  next same =>
    cases same
    exact (Bool.and_eq_true_iff.mp h).2
  next same =>
    cases same
    exact h
  next same => cases same

theorem Admits.tail {i : Except LexError Token} (h : Admits rules (i :: ts)) : Admits rules ts :=
  h.imp_right barsApart_tail

theorem Admits.rest (h : Admits rules (u ++ v)) : Admits rules v := by
  induction u with
  | nil => exact h
  | cons i u ih => exact ih h.tail

/-- A bar behind a token other than `in` keeps tight operators away. -/
theorem isTight_of_barsApart {front back : Tokens} {t bar op : Token}
    (h : Admits .strict (front ++ .ok t :: .ok bar :: .ok op :: back)) (isBar : bar.kind = .pipe)
    (other : t.kind ≠ .keyword .inKw) : isTight op.kind = false := by
  have apart : barsApart (.ok t :: .ok bar :: .ok op :: back) = true := h.rest.resolve_left nofun
  rw [barsApart, Bool.and_eq_true_iff] at apart
  simpa [isBar, other] using apart.1

theorem full_single {t : Token} (h : t.kind ≠ .keyword .inKw) : Full [.ok t] := ⟨[], t, rfl, h⟩

theorem calm_nil : Calm [] := .inl rfl

theorem Full.append_left (h : Full v) : Full (u ++ v) := by
  obtain ⟨front, t, rfl, kind⟩ := h
  exact ⟨u ++ front, t, (List.append_assoc u front [.ok t]).symm, kind⟩

theorem Full.append (first : Full u) (second : Calm v) : Full (u ++ v) := by
  rcases second with rfl | second
  · rwa [List.append_nil]
  · exact second.append_left

theorem Calm.append (first : Calm u) (second : Calm v) : Calm (u ++ v) := by
  rcases first with rfl | first
  · exact second
  · exact .inr (first.append second)

theorem Full.ne_nil (h : Full u) : u ≠ [] := by
  obtain ⟨front, t, rfl, -⟩ := h
  simp

end Grammar

namespace Parser

open Grammar

variable {α β γ : Type} {rules : Grammar} {first : Option TokenKind}

/-- From the place `s`, `r` reads what was found or fails as it did, unless no level was left. `U`
holds of what was found and the tokens that were taken. -/
def Answers (U : α → Tokens → Prop) (r : Reader α) (s : Stream) :
    Except ParseError α × Stream → Prop
  | (.ok a, s') =>
    r.run s.pending = pure (a, s'.pending) ∧ s'.size = s.size ∧
      ∃ used, s.pending = used ++ s'.pending ∧ U a used
  | (.error e, _) => e.isTooDeep = true ∨ r.run s.pending = OptionT.fail

def TracksAt (U : α → Tokens → Prop) (p : Parser α) (r : Reader α) (s : Stream) : Prop :=
  Answers U r s (p.run s)

/-- So it is wherever the next token has the kind `first`, if one is given. -/
def Tracks (rules : Grammar) (first : Option TokenKind) (U : α → Tokens → Prop) (p : Parser α)
    (r : Reader α) : Prop :=
  ∀ s : Stream, s.pending.length ≤ s.size → Admits rules s.pending →
    (∀ kind ∈ first, ∃ t rest, s.pending = .ok t :: rest ∧ t.kind = kind) → TracksAt U p r s

abbrev TracksAny (rules : Grammar) (first : Option TokenKind) (p : Parser α) (r : Reader α) :
    Prop :=
  Tracks rules first (fun _ => Calm) p r

abbrev TracksSome (rules : Grammar) (first : Option TokenKind) (p : Parser α) (r : Reader α) :
    Prop :=
  Tracks rules first (fun _ => Full) p r

variable {U V : α → Tokens → Prop} {W X : β → Tokens → Prop} {p : Parser α} {r : Reader α}
  {f : α → Parser β}
  {g : α → Reader β} {s : Stream}

theorem TracksAt.imp (h : TracksAt U p r s) (weaker : ∀ a used, U a used → V a used) :
    TracksAt V p r s := by
  unfold TracksAt at h ⊢
  generalize p.run s = result at h ⊢
  rcases result with ⟨e | a, s'⟩
  · exact h
  · obtain ⟨same, size, used, taken, holds⟩ := h
    exact ⟨same, size, used, taken, weaker a used holds⟩

theorem Tracks.imp (h : Tracks rules first U p r) (weaker : ∀ a used, U a used → V a used) :
    Tracks rules first V p r := fun s rounds admits starts => (h s rounds admits starts).imp weaker

theorem Tracks.from (h : Tracks rules none U p r) : Tracks rules first U p r :=
  fun s rounds admits _ =>
  h s rounds admits nofun

theorem Tracks.any (h : TracksSome rules first p r) : TracksAny rules first p r :=
  h.imp fun _ _ => .inr

theorem TracksAt.bind (h : TracksAt U p r s)
    (next : ∀ a s' used, p.run s = (.ok a, s') → s.pending = used ++ s'.pending → s'.size = s.size →
      U a used → TracksAt (fun b more => W b (used ++ more)) (f a) (g a) s') :
    TracksAt W (p >>= f) (r >>= g) s := by
  unfold TracksAt at h ⊢
  rw [run_bind]
  rcases run : p.run s with ⟨e | a, s'⟩ <;> rw [run] at h
  · exact Or.imp_right bind_of_fail h
  · obtain ⟨same, size, used, taken, holds⟩ := h
    have rest := next a s' used run taken size holds
    unfold TracksAt at rest
    change Answers W (r >>= g) s ((f a).run s')
    generalize (f a).run s' = result at rest ⊢
    rcases result with ⟨e | b, s''⟩
    · exact Or.imp_right (bind_of_run same).trans rest
    · obtain ⟨same', size', more, taken', holds'⟩ := rest
      refine ⟨(bind_of_run same).trans same', size'.trans size, used ++ more, ?_, holds'⟩
      rw [taken, taken', List.append_assoc]

theorem Tracks.bindWith (h : Tracks rules first U p r) (next : ∀ a, Tracks rules none W (f a) (g a))
    (join : ∀ a b u v, U a u → W b v → X b (u ++ v)) :
    Tracks rules first X (p >>= f) (r >>= g) := by
  intro s rounds admits starts
  refine (h s rounds admits starts).bind fun a s' used _ taken size holds => ?_
  have shorter : s'.pending.length ≤ s'.size := by
    rw [taken, List.length_append] at rounds
    omega
  rw [taken] at admits
  exact (next a s' shorter admits.rest nofun).imp fun b more => join a b used more holds

theorem Tracks.bind (h : TracksAny rules first p r) (next : ∀ a, TracksAny rules none (f a) (g a)) :
    TracksAny rules first (p >>= f) (r >>= g) := h.bindWith next fun _ _ _ _ => .append

theorem Tracks.bind_some (h : TracksAny rules first p r)
    (next : ∀ a, TracksSome rules none (f a) (g a)) :
    TracksSome rules first (p >>= f) (r >>= g) := h.bindWith next fun _ _ _ _ _ => .append_left

theorem Tracks.some_bind (h : TracksSome rules first p r)
    (next : ∀ a, TracksAny rules none (f a) (g a)) :
    TracksSome rules first (p >>= f) (r >>= g) := h.bindWith next fun _ _ _ _ => .append

theorem tracks_pure (a : α) : TracksAny rules first (pure a) (pure a) := fun _ _ _ _ =>
  ⟨rfl, rfl, [], rfl, calm_nil⟩

theorem tracks_throw (e : ParseError) : Tracks rules first U (throw e) (fail : Reader α) :=
  fun _ _ _ _ => .inr rfl

section tokens

theorem tracks_peekKind {f : TokenKind → Parser β} {g : TokenKind → Reader β}
    (next : ∀ kind, Tracks rules (some kind) W (f kind) (g kind)) :
    Tracks rules first W (peekKind >>= f) (lookKind >>= g) := by
  intro s rounds admits _
  obtain ⟨pending, size, lastLine, depth, limit, loops, switches⟩ := s
  rcases pending with _ | ⟨e | t, rest⟩
  · exact .inr rfl
  · exact .inr rfl
  · refine next t.kind ⟨.ok t :: rest, size, lastLine, depth, limit, loops,
      switches⟩ rounds admits ?_
    rintro _ ⟨⟩
    exact ⟨t, rest, rfl, rfl⟩

theorem tracks_peek {f : Token → Parser β} {g : Token → Reader β}
    (next : ∀ t, Tracks rules (some t.kind) W (f t) (g t)) :
    Tracks rules first W (peek >>= f) (look >>= g) := by
  intro s rounds admits _
  obtain ⟨pending, size, lastLine, depth, limit, loops, switches⟩ := s
  rcases pending with _ | ⟨e | t, rest⟩
  · exact .inr rfl
  · exact .inr rfl
  · refine next t ⟨.ok t :: rest, size, lastLine, depth, limit, loops, switches⟩ rounds admits ?_
    rintro _ ⟨⟩
    exact ⟨t, rest, rfl, rfl⟩

theorem tracks_advance {kind : TokenKind} (other : kind ≠ .keyword .inKw) {f : Token → Parser β}
    {g : Token → Reader β} (next : ∀ t, TracksAny rules none (f t) (g t)) :
    TracksSome rules (some kind) (advance >>= f) (take >>= g) := by
  refine Tracks.some_bind (fun s rounds admits starts => ?_) next
  obtain ⟨pending, size, lastLine, depth, limit, loops, switches⟩ := s
  obtain ⟨t, rest, rfl, rfl⟩ := starts kind rfl
  exact ⟨rfl, rfl, [.ok t], rfl, full_single other⟩

theorem tracks_consume {kind : TokenKind} (other : kind ≠ .keyword .inKw) {f : Token → Parser β}
    {g : Token → Reader β} (next : ∀ t, TracksAny rules none (f t) (g t)) :
    TracksSome rules first (consume kind >>= f) (expect kind >>= g) := by
  refine Tracks.some_bind (fun s rounds admits starts => ?_) next
  obtain ⟨pending, size, lastLine, depth, limit, loops, switches⟩ := s
  rcases pending with _ | ⟨e | t, rest⟩
  · exact .inr rfl
  · exact .inr rfl
  · let s : Stream := ⟨.ok t :: rest, size, lastLine, depth, limit, loops, switches⟩
    change Answers _ (expect kind) s ((s.consume kind).1.mapError .token, (s.consume kind).2)
    by_cases same : t.kind = kind
    · have found : s.consume kind = s.advance := if_pos same
      have read : (expect kind).run s.pending = pure (t, rest) := if_pos same
      rw [found]
      exact ⟨read, rfl, [.ok t], rfl, full_single (same ▸ other)⟩
    · have missed : s.consume kind = (.error (.mismatch kind t.kind t.line), s) := if_neg same
      rw [missed]
      exact .inr (if_neg same)

theorem ok_of_bind {b : β} {s' : Stream} (h : (p >>= f).run s = (.ok b, s')) :
    ∃ a s₁, p.run s = (.ok a, s₁) ∧ (f a).run s₁ = (.ok b, s') := by
  rw [run_bind] at h
  rcases run : p.run s with ⟨e | a, s₁⟩ <;> rw [run] at h
  · cases h
  · exact ⟨a, s₁, rfl, h⟩

theorem peekKind_token {t : Token} {rest : Tokens} (h : s.pending = .ok t :: rest) :
    peekKind.run s = (.ok t.kind, s) := by
  obtain ⟨pending, size, lastLine, depth, limit, loops, switches⟩ := s
  obtain rfl : pending = .ok t :: rest := h
  rfl

theorem advance_token {t : Token} {rest : Tokens} (h : s.pending = .ok t :: rest) :
    advance.run s = (.ok t, { s with pending := rest, lastLine := t.line }) := by
  obtain ⟨pending, size, lastLine, depth, limit, loops, switches⟩ := s
  obtain rfl : pending = .ok t :: rest := h
  rfl

theorem ok_of_consume {kind : TokenKind} {t : Token} {s' : Stream}
    (h : (consume kind).run s = (.ok t, s')) :
    s.pending = .ok t :: s'.pending ∧ t.kind = kind ∧ s'.size = s.size := by
  obtain ⟨pending, size, lastLine, depth, limit, loops, switches⟩ := s
  rcases pending with _ | ⟨e | u, rest⟩
  · cases h
  · cases h
  · let s : Stream := ⟨.ok u :: rest, size, lastLine, depth, limit, loops, switches⟩
    change ((s.consume kind).1.mapError ParseError.token, (s.consume kind).2) = _ at h
    by_cases same : u.kind = kind
    · rw [show s.consume kind = s.advance from if_pos same] at h
      cases h
      exact ⟨rfl, same, rfl⟩
    · rw [show s.consume kind = (.error (.mismatch kind u.kind u.line), s) from if_neg same] at h
      cases h

theorem accept_token {kind : TokenKind} {t : Token} {rest : Tokens} (h : s.pending = .ok t :: rest)
    (same : t.kind = kind) :
    (accept kind).run s = (.ok true, { s with pending := rest, lastLine := t.line }) := by
  obtain ⟨pending, size, lastLine, depth, limit, loops, switches⟩ := s
  obtain rfl : pending = .ok t :: rest := h
  let s : Stream := ⟨.ok t :: rest, size, lastLine, depth, limit, loops, switches⟩
  change (Except.ok (s.accept kind).1, (s.accept kind).2) = _
  rw [Stream.accept, show s.consume kind = s.advance from if_pos same]
  rfl

theorem accept_other {kind : TokenKind} (h : ∀ t rest, s.pending = .ok t :: rest → t.kind ≠ kind) :
    (accept kind).run s = (.ok false, s) := by
  obtain ⟨pending, size, lastLine, depth, limit, loops, switches⟩ := s
  rcases pending with _ | ⟨e | t, rest⟩
  · rfl
  · rfl
  · let s : Stream := ⟨.ok t :: rest, size, lastLine, depth, limit, loops, switches⟩
    have missed : s.consume kind = (.error (.mismatch kind t.kind t.line), s) :=
      if_neg (h t rest rfl)
    change (Except.ok (s.accept kind).1, (s.accept kind).2) = _
    rw [Stream.accept, missed]

theorem token_or_other (kind : TokenKind) (s : Stream) :
    (∃ t rest, s.pending = .ok t :: rest ∧ t.kind = kind) ∨ ∀ t rest, s.pending = .ok t :: rest →
      t.kind ≠ kind := by
  by_cases next : ∃ t rest, s.pending = .ok t :: rest ∧ t.kind = kind
  · exact .inl next
  · exact .inr fun t rest pending same => next ⟨t, rest, pending, same⟩

theorem tracks_accept {kind : TokenKind} (other : kind ≠ .keyword .inKw) {f : Bool → Parser β}
    {g : Bool → Reader β} (weaker : ∀ b used, Full used → W b used)
    (yes : TracksAny rules none (f true) (g true)) (no : Tracks rules none W (f false) (g false)) :
    Tracks rules first W (accept kind >>= f) (took kind >>= g) := by
  intro s rounds admits _
  rcases token_or_other kind s with ⟨t, rest, pending, same⟩ | missing
  · have found := accept_token pending same
    have taken : TracksAt (fun _ => Full) (accept kind) (took kind) s := by
      rw [TracksAt, found]
      refine ⟨?_, rfl, [.ok t], pending, full_single (same ▸ other)⟩
      rw [pending]
      exact took_of_kind same
    refine taken.bind fun a s' used run front size full => ?_
    cases found.symm.trans run
    rw [pending] at rounds admits
    have behind := yes { s with pending := rest, lastLine := t.line } (Nat.le_of_succ_le rounds)
      admits.tail nofun
    exact behind.imp fun b more calm => weaker b _ (full.append calm)
  · have here := no s rounds admits nofun
    unfold TracksAt Answers at here ⊢
    rw [run_bind, accept_other missing, bind_of_run (took_of_ne missing)]
    exact here

theorem ne_in_of_literalValue {t : Token} {value : Literal} (h : literalValue t = .ok value) :
    t.kind ≠ .keyword .inKw := by
  intro same
  rw [literalValue, same] at h
  cases h

theorem tracks_literal : TracksSome rules first Parser.literal Grammar.literal := by
  intro s rounds admits _
  obtain ⟨pending, size, lastLine, depth, limit, loops, switches⟩ := s
  rcases pending with _ | ⟨e | t, rest⟩
  · exact .inr rfl
  · exact .inr rfl
  · have taken : TracksAt (fun _ => (· = [.ok t])) advance take
        ⟨.ok t :: rest, size, lastLine, depth, limit, loops, switches⟩ :=
          ⟨rfl, rfl, [.ok t], rfl, rfl⟩
    refine taken.bind fun a s' used run _ _ single => ?_
    cases run
    subst single
    cases value : literalValue t with
    | error e => exact .inr rfl
    | ok v => exact ⟨rfl, rfl, [], rfl, full_single (ne_in_of_literalValue value)⟩

theorem tracks_ident {f : Ident → Parser β} {g : Token → Reader β}
    (next : ∀ t : Token, TracksAny rules none (f ⟨t.text, t.line⟩) (g t)) :
    TracksSome rules first (ident >>= f) (expect .ident >>= g) := by
  rw [ident, bind_assoc]
  simp only [pure_bind]
  exact tracks_consume (by decide) next

theorem tracks_comma {f : Option Token → Parser β} {g : Token → Reader β} {r : Reader β}
    (yes : ∀ t, TracksAny rules none (f (some t)) (g t)) (no : TracksAny rules none (f none) r) :
    TracksAny rules first (comma >>= f)
      (do if (← lookKind) = .comma then expect .comma >>= g else r) := by
  rw [comma, bind_assoc]
  refine tracks_peekKind fun kind => ?_
  split
  · rw [bind_assoc]
    simp only [pure_bind]
    exact (tracks_consume (by decide) yes).any
  · rw [pure_bind]
    exact no.from

theorem run_accept {kind : TokenKind} {t : Token} {rest : Tokens} (h : s.pending = .ok t :: rest)
    (f : Nat → Parser α) (p : Parser α) :
    (do if !(← accept kind) then p else f (← lastLine) : Parser α).run s =
      (do if (← peekKind) = kind then f (← advance).line else p : Parser α).run s := by
  rw [run_bind, run_bind, peekKind_token h]
  by_cases same : t.kind = kind
  · rw [accept_token h same]
    simp only [if_pos same, run_bind, advance_token h]
    rfl
  · have other : ∀ u more, s.pending = .ok u :: more → u.kind ≠ kind := by
      intro u more pending
      rw [h] at pending
      cases pending
      exact same
    rw [accept_other other]
    simp only [if_neg same]
    rfl

end tokens

section places

theorem tracks_nested (h : Tracks rules none U p r) : Tracks rules first U (nested p) r := by
  intro s rounds admits _
  unfold TracksAt
  rw [run_nested]
  by_cases room : s.depth < s.limit
  · have here : s.enter = some { s with depth := s.depth + 1 } := if_pos room
    have inner := h { s with depth := s.depth + 1 } rounds admits nofun
    unfold TracksAt at inner
    rw [here]
    simp only
    generalize p.run { s with depth := s.depth + 1 } = result at inner ⊢
    rcases result with ⟨e | a, s'⟩ <;> exact inner
  · have here : s.enter = none := if_neg room
    rw [here]
    exact .inl rfl

theorem ok_of_nested {a : α} {s' : Stream} (h : (nested p).run s = (.ok a, s')) :
    ∃ s₁ s₂, p.run s₁ = (.ok a, s₂) ∧ s₁.pending = s.pending ∧ s₁.size = s.size ∧
      s₂.pending = s'.pending := by
  rw [run_nested] at h
  by_cases room : s.depth < s.limit
  · have here : s.enter = some { s with depth := s.depth + 1 } := if_pos room
    rw [here] at h
    obtain ⟨read, rfl⟩ := Prod.mk.inj h
    exact ⟨_, _, Prod.ext read rfl, rfl, rfl, rfl⟩
  · have here : s.enter = none := if_neg room
    rw [here] at h
    cases h

theorem Tracks.ran {s' : Stream} {a : α} (h : TracksSome rules none p r)
    (run : p.run s = (.ok a, s')) (rounds : s.pending.length ≤ s.size)
    (admits : Admits rules s.pending) :
    s'.pending.length ≤ s'.size ∧ Admits rules s'.pending ∧ ∃ used, s.pending = used ++ s'.pending ∧
      Full used := by
  have here := h s rounds admits nofun
  rw [TracksAt, run] at here
  obtain ⟨-, size, used, taken, full⟩ := here
  rw [taken] at admits
  refine ⟨?_, admits.rest, used, taken, full⟩
  rw [taken, List.length_append] at rounds
  omega

theorem tracks_target (e : Expr) (fault : ParseError) {g : Expr → Reader α}
    (next : Tracks rules first U p (g e)) :
    Tracks rules first U (if !e.isAssignable then (do (throw fault : Parser Unit); p) else p)
      (target e >>= g) := by
  intro s rounds admits starts
  unfold target
  by_cases passes : e.isAssignable = true
  · have here := next s rounds admits starts
    simpa [passes] using here
  · simp only [passes]
    exact .inr rfl

/-- What one round of a loop leaves to be read. -/
def Remains (φ : β → γ) (r : α → Reader γ) (a : α) (s : Stream) :
    Except ParseError (α ⊕ β) × Stream → Prop
  | (.ok (.inl a'), s') => (r a).run s.pending = (r a').run s'.pending ∧ s'.size = s.size ∧
      ∃ used, s.pending = used ++ s'.pending ∧ Full used
  | (.ok (.inr b), s') => (r a).run s.pending = pure (φ b, s'.pending) ∧ s'.size = s.size ∧
      ∃ used, s.pending = used ++ s'.pending ∧ Calm used
  | (.error e, _) => e.isTooDeep = true ∨ (r a).run s.pending = OptionT.fail

/-- If every round leaves what is still to be read, the loop reads it. -/
theorem tracks_rounds {step : α → Parser (α ⊕ β)} {r : α → Reader γ} (φ : β → γ)
    (each : ∀ a s, s.pending.length ≤ s.size → Admits rules s.pending →
      Remains φ r a s ((step a).run s))
    (a : α) : TracksAny rules first (φ <$> loop a step) (r a) := by
  have rounds (n : Nat) (a : α) (s : Stream) (enough : s.pending.length < n)
      (size : s.pending.length ≤ s.size)
      (admits : Admits rules s.pending) : TracksAt (fun _ => Calm) (φ <$> iterate step n a)
        (r a) s := by
    induction n generalizing a s with
    | zero => exact absurd enough (Nat.not_lt_zero _)
    | succ n ih =>
      have round := each a s size admits
      unfold TracksAt
      rw [iterate, map_bind, run_bind]
      generalize (step a).run s = result at round ⊢
      rcases result with ⟨e | a' | b, s'⟩
      · exact round
      · obtain ⟨same, size', used, taken, full⟩ := round
        have some := List.length_pos_iff.mpr full.ne_nil
        have length : used.length + s'.pending.length = s.pending.length := by
          rw [taken, List.length_append]
        rw [taken] at admits
        have rest := ih a' s' (by omega) (by omega) admits.rest
        unfold TracksAt at rest
        change Answers _ (r a) s ((φ <$> iterate step n a').run s')
        generalize (φ <$> iterate step n a').run s' = result at rest ⊢
        rcases result with ⟨e | c, s''⟩
        · exact Or.imp_right same.trans rest
        · obtain ⟨read, size'', more, taken', calm⟩ := rest
          refine ⟨same.trans read, size''.trans size', used ++ more, ?_, .inr (full.append calm)⟩
          rw [taken, taken', List.append_assoc]
      · exact round
  intro s size admits _
  exact rounds (s.size + 1) a s (Nat.lt_succ_of_le size) size admits

def Progress : α ⊕ β → Tokens → Prop
  | .inl _ => Full
  | .inr _ => Calm

theorem progress_of_full (r : α ⊕ β) (used : Tokens) (h : Full used) : Progress r used := by
  cases r with
  | inl a => exact h
  | inr b => exact .inr h

theorem Tracks.progress {p : Parser (α ⊕ β)} {r : Reader (α ⊕ β)} (h : TracksSome rules first p r) :
    Tracks rules first Progress p r := h.imp progress_of_full

theorem tracks_done (b : β) :
    Tracks rules first Progress (pure (.inr b) : Parser (α ⊕ β)) (pure (.inr b)) :=
  fun _ _ _ _ => ⟨rfl, rfl, [], rfl, calm_nil⟩

theorem tracks_loop {step : α → Parser (α ⊕ β)} {stepR : α → Reader (α ⊕ β)} {r : α → Reader γ}
    (φ : β → γ) (each : ∀ a, Tracks rules none Progress (step a) (stepR a))
    (again : ∀ a, r a = stepR a >>= Sum.elim r fun b => pure (φ b)) (a : α) :
    TracksAny rules first (φ <$> loop a step) (r a) := by
  refine tracks_rounds φ (fun a s size admits => ?_) a
  have round := each a s size admits nofun
  rw [TracksAt] at round
  unfold Remains
  generalize (step a).run s = result at round ⊢
  rcases result with ⟨e | a' | b, s'⟩
  · exact Or.imp_right (fun failed => by rw [again]; exact bind_of_fail failed) round
  · obtain ⟨read, size', taken⟩ := round
    exact ⟨by rw [again]; exact bind_of_run read, size', taken⟩
  · obtain ⟨read, size', taken⟩ := round
    exact ⟨by rw [again]; exact bind_of_run read, size', taken⟩

end places

section expressions

def dimensionR (seen : List UInt32) : Reader (List UInt32 ⊕ List UInt32) := do
  if ← took .leftBracket then
    match ← Grammar.literal with
    | (.int size, _) =>
      let _ ← expect .rightBracket
      return .inl (size :: seen)
    | _ => fail
  else return .inr seen.reverse

theorem dimensionR_bind (seen : List UInt32) :
    (do return seen.reverse ++ (← Grammar.dimensions rules)) =
    dimensionR seen >>=
      Sum.elim (fun seen => do return seen.reverse ++ (← Grammar.dimensions rules)) pure := by
  conv => lhs; rw [Grammar.dimensions]
  rw [dimensionR, bind_assoc, bind_assoc]
  congr
  funext found
  cases found with
  | false => simp
  | true =>
    simp only [if_true, bind_assoc]
    congr
    funext l
    obtain ⟨value, line⟩ := l
    cases value with
    | int size =>
      simp only [bind_assoc, pure_bind, Sum.elim_inl, List.reverse_cons, List.append_assoc,
        List.singleton_append]
    | _ => rfl

theorem tracks_dimensions : TracksAny rules first Parser.dimensions (Grammar.dimensions rules) := by
  have whole :
      Grammar.dimensions rules = do return [].reverse ++ (← Grammar.dimensions rules) := by simp
  rw [Parser.dimensions, whole, ← id_map (loop _ _)]
  refine tracks_loop id (fun seen => ?_) dimensionR_bind []
  refine tracks_accept (by decide) progress_of_full ?_ (tracks_done _)
  refine tracks_literal.any.bind fun l => ?_
  obtain ⟨value, line⟩ := l
  cases value with
  | int size => exact (tracks_consume (by decide) fun _ => tracks_pure _).any
  | _ => exact tracks_throw _

def itemR (rules : Grammar) (close : TokenKind) (seen : Listed Expr) :
    Reader (Listed Expr ⊕ Listed Expr) := do
  if (← lookKind) = close then return .inr { seen with items := seen.items.reverse }
  else
    let e ← Grammar.assignment rules
    if (← lookKind) = .comma then
      let _ ← expect .comma
      return .inl ⟨e :: seen.items, true⟩
    else return .inr ⟨(e :: seen.items).reverse, false⟩

theorem itemR_bind (close : TokenKind) (seen : Listed Expr) :
    (do return seen.items.reverse ++ (← items rules close)) =
      itemR rules close seen >>=
        Sum.elim (fun seen => do return seen.items.reverse ++ (← items rules close))
        fun listed => pure listed.items := by
  conv => lhs; rw [items]
  rw [itemR, bind_assoc, bind_assoc]
  congr
  funext kind
  split
  · simp
  · simp only [bind_assoc]
    congr
    funext e
    congr
    funext kind
    split
    · simp only [bind_assoc, pure_bind, Sum.elim_inl, List.reverse_cons, List.append_assoc,
        List.singleton_append]
    · simp

variable {deeper : Goal → Parser Expr}
  (inside : TracksSome rules none (deeper .assignment) (Grammar.assignment rules))

include inside

theorem tracks_items {close : TokenKind} :
    TracksAny rules first (Listed.items <$> listed (deeper .assignment) close)
      (items rules close) := by
  have whole : items rules close =
      do return (⟨[], false⟩ : Listed Expr).items.reverse ++ (← items rules close) := by
    simp
  rw [listed, whole]
  refine tracks_loop Listed.items (fun seen => ?_) (itemR_bind close) _
  refine tracks_peekKind fun kind => ?_
  split
  · exact tracks_done _
  · refine Tracks.progress (inside.from.some_bind fun e => ?_)
    exact tracks_comma (fun _ => tracks_pure _) (tracks_pure _)

theorem tracks_arguments {close : TokenKind} (other : close ≠ .keyword .inKw) :
    TracksSome rules first (Parser.arguments deeper close) (Grammar.arguments rules close) := by
  have split : Parser.arguments deeper close =
      (Listed.items <$> listed (deeper .assignment) close) >>= fun args => do
      let _ ← consume close
      return args := by
    rw [bind_map_left]
    rfl
  rw [split, Grammar.arguments]
  exact (tracks_items inside).bind_some fun args => tracks_consume other fun _ => tracks_pure _

theorem tracks_newExpr : TracksSome rules first (newExpr deeper) (Grammar.new rules) := by
  rw [Grammar.new]
  refine tracks_consume (by decide) fun t => tracks_peekKind fun kind => ?_
  split
  · exact tracks_dimensions.bind fun dims => tracks_pure _
  · refine (tracks_ident fun cls => ?_).any
    refine (tracks_consume (by decide) fun _ => ?_).any
    exact ((tracks_arguments inside (by decide)).some_bind fun args => tracks_pure _).any

theorem tracks_nameExpr : TracksSome rules first (nameExpr deeper) (named rules) := by
  rw [named]
  refine tracks_ident fun t => tracks_peekKind fun kind => ?_
  cases CastKind.ofName? t.text with
  | none => exact tracks_pure _
  | some cast =>
    by_cases call : kind = .leftParen
    · subst call
      refine (tracks_advance (by decide) fun _ => ?_).any
      refine inside.any.bind fun operand => ?_
      exact (tracks_consume (by decide) fun _ => tracks_pure _).any
    · dsimp only
      rw [if_neg call]
      split
      · contradiction
      · exact tracks_pure _

theorem tracks_primary :
    TracksSome rules first (Parser.primary deeper) (Grammar.primary rules) := by
  rw [Grammar.primary]
  refine tracks_peek fun t => ?_
  split <;> rename_i kind
  iterate 6
    rw [kind]
    exact tracks_literal.some_bind fun l => tracks_pure _
  · rw [kind]
    exact tracks_nameExpr inside
  · rw [kind]
    exact tracks_newExpr inside
  · rw [kind]
    refine tracks_advance (by decide) fun _ => ?_
    refine inside.any.bind fun e => ?_
    exact (tracks_consume (by decide) fun _ => tracks_pure _).any
  · rw [kind]
    refine tracks_advance (by decide) fun _ => ?_
    exact ((tracks_arguments inside (by decide)).some_bind fun items => tracks_pure _).any
  · split
    iterate 10 contradiction
    exact tracks_throw _

omit inside in
theorem step?_eq_some {kind : TokenKind} {op : StepOp} (h : step? kind = some op) :
    (kind = .plusPlus ∧ op = .inc) ∨ (kind = .minusMinus ∧ op = .dec) := by
  unfold step? at h
  split at h <;> cases h
  · exact .inl ⟨rfl, rfl⟩
  · exact .inr ⟨rfl, rfl⟩

omit inside in
theorem unary?_eq_some {kind : TokenKind} {op : UnaryOp} (h : unary? kind = some op) :
    (kind = .minus ∧ op = .neg) ∨ (kind = .bang ∧ op = .not) := by
  unfold unary? at h
  split at h <;> cases h
  · exact .inl ⟨rfl, rfl⟩
  · exact .inr ⟨rfl, rfl⟩

def suffixR (rules : Grammar) (e : Expr) : Reader (Expr ⊕ Expr) := do
  match ← lookKind with
  | .leftParen =>
    let _ ← take
    return .inl (.call e.line e (← Grammar.arguments rules .rightParen))
  | .dot =>
    let _ ← take
    let t ← expect .ident
    return .inl (.member e.line e ⟨t.text, t.line⟩)
  | .leftBracket =>
    let _ ← take
    let i ← Grammar.assignment rules
    let _ ← expect .rightBracket
    return .inl (.index e.line e i)
  | .plusPlus =>
    let _ ← take
    return .inl (.step e.line .inc false (← target e))
  | .minusMinus =>
    let _ ← take
    return .inl (.step e.line .dec false (← target e))
  | _ => return .inr e

omit inside in
theorem suffixR_bind (e : Expr) :
    suffixes rules e = suffixR rules e >>= Sum.elim (suffixes rules) pure := by
  conv => lhs; rw [suffixes]
  rw [suffixR, bind_assoc]
  congr
  funext kind
  split <;> simp only [bind_assoc, pure_bind, Sum.elim_inl, Sum.elim_inr]

theorem tracks_suffix (e : Expr) :
    Tracks rules first Progress (suffix deeper e) (suffixR rules e) := by
  refine tracks_peekKind fun kind => ?_
  split
  · refine Tracks.progress (tracks_advance (by decide) fun _ => ?_)
    exact ((tracks_arguments inside (by decide)).some_bind fun args => tracks_pure _).any
  · refine Tracks.progress (tracks_advance (by decide) fun _ => ?_)
    refine Tracks.any ?_
    exact tracks_ident fun t => tracks_pure _
  · refine Tracks.progress (tracks_advance (by decide) fun _ => ?_)
    refine inside.any.bind fun i => ?_
    exact (tracks_consume (by decide) fun _ => tracks_pure _).any
  · cases found : step? kind with
    | some op =>
      rcases step?_eq_some found with ⟨rfl, rfl⟩ | ⟨rfl, rfl⟩
      all_goals
        refine Tracks.progress (tracks_advance (by decide) fun _ => ?_)
        exact tracks_target e _ (tracks_pure _)
    | none =>
      dsimp only
      split
      iterate 3 contradiction
      iterate 2 cases found
      exact tracks_done e

theorem tracks_suffixed :
    TracksSome rules first (suffixed deeper) (do suffixes rules (← Grammar.primary rules)) := by
  refine (tracks_primary inside).some_bind fun e => ?_
  rw [← id_map (loop _ _)]
  exact tracks_loop id (tracks_suffix inside) suffixR_bind e

theorem tracks_unary (signed : TracksSome rules none (deeper .unary) (Grammar.unary rules)) :
    TracksSome rules first (Parser.unary deeper) (Grammar.unary rules) := by
  rw [Grammar.unary]
  refine tracks_peekKind fun kind => ?_
  cases sign : unary? kind with
  | some op =>
    rcases unary?_eq_some sign with ⟨rfl, rfl⟩ | ⟨rfl, rfl⟩
    all_goals
      refine tracks_advance (by decide) fun _ => ?_
      exact signed.any.bind fun operand => tracks_pure _
  | none =>
    cases found : step? kind with
    | some op =>
      rcases step?_eq_some found with ⟨rfl, rfl⟩ | ⟨rfl, rfl⟩
      all_goals
        refine tracks_advance (by decide) fun _ => ?_
        exact signed.any.bind fun e => tracks_target e _ (tracks_pure _)
    | none =>
      dsimp only
      split
      iterate 2 cases sign
      iterate 2 cases found
      exact (tracks_suffixed inside).from

end expressions

end Parser

end GraalScript
