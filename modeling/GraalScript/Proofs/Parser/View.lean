import GraalScript.Proofs.Tree.Recast
import GraalScript.Tree.Parser.Basic

/-! Streams seen with other lines and other counts of loops and switches. A parser that agrees with
a view reads the same from the stream and from what the view shows of it: the same tree up to lines,
or the same failure up to its line. -/
namespace GraalScript

def LexError.relined (line : Nat → Nat) (e : LexError) : LexError := ⟨e.fault, line e.line⟩

def TokenError.relined (line : Nat → Nat) : TokenError → TokenError
  | mismatch expected found l => mismatch expected found (line l)
  | endOfSource l => endOfSource (line l)
  | lex e => lex (e.relined line)

def ParseError.relined (line : Nat → Nat) : ParseError → ParseError
  | token e => token (e.relined line)
  | unexpected expected found l => unexpected expected found (line l)
  | invalidTarget l => invalidTarget (line l)
  | misplaced what l => misplaced what (line l)
  | invalidLiteral l => invalidLiteral (line l)
  | nestingTooDeep limit l => nestingTooDeep limit (line l)
  | emptySource => emptySource

/-- A way to see a stream, which keeps the kinds of tokens and their texts, those of directives
apart. -/
structure View where
  line : Nat → Nat
  token : Token → Token
  loops : Nat → Nat
  switches : Nat → Nat
  kind_token : ∀ t, (token t).kind = t.kind
  line_token : ∀ t, (token t).line = line t.line
  text_token : ∀ t, t.kind ≠ .directive → (token t).text = t.text

namespace View

variable {α β : Type} (v : View) (s : Stream)

def item : Except LexError Token → Except LexError Token
  | .ok t => .ok (v.token t)
  | .error e => .error (e.relined v.line)

def stream : Stream where
  pending := s.pending.map v.item
  size := s.size
  lastLine := v.line s.lastLine
  depth := s.depth
  limit := s.limit
  loops := v.loops s.loops
  switches := v.switches s.switches

def step (f : α → β) : Except TokenError α → Except TokenError β
  | .ok a => .ok (f a)
  | .error e => .error (e.relined v.line)

def result (f : α → β) : Except ParseError α → Except ParseError β
  | .ok a => .ok (f a)
  | .error e => .error (e.relined v.line)

def tree : Recast := .lines v.line

theorem peek_stream : (v.stream s).peek = v.step v.token s.peek := by
  unfold Stream.peek
  rcases h : s.pending with _ | ⟨_ | _, rest⟩ <;> simp [stream, h, item, step, TokenError.relined]

theorem advance_stream :
    (v.stream s).advance = (v.step v.token s.advance.1, v.stream s.advance.2) := by
  rcases h : s.pending with _ | ⟨e | t, rest⟩ <;>
    simp [Stream.advance, Stream.next, stream, h, item, step, TokenError.relined, v.line_token]

theorem consume_stream (kind : TokenKind) :
    (v.stream s).consume kind =
      (v.step v.token (s.consume kind).1, v.stream (s.consume kind).2) := by
  simp only [Stream.consume, peek_stream, advance_stream]
  cases s.peek with
  | error e => rfl
  | ok t =>
    simp only [step, v.kind_token, v.line_token]
    split <;> rfl

theorem accept_stream (kind : TokenKind) :
    (v.stream s).accept kind = ((s.accept kind).1, v.stream (s.accept kind).2) := by
  simp only [Stream.accept, consume_stream]
  rcases h : s.consume kind with ⟨_ | _, _⟩ <;> simp [step]

theorem kindAt_stream (n : Nat) : (v.stream s).kindAt n = s.kindAt n := by
  simp only [Stream.kindAt, stream, List.getElem?_map]
  rcases s.pending[n]? with _ | _ | _ <;> simp [item, v.kind_token]

theorem faultLine_stream : (v.stream s).faultLine = v.line s.faultLine := by
  simp only [Stream.faultLine, peek_stream]
  rcases s.peek with e | t
  · cases e <;> rfl
  · exact v.line_token t

end View

namespace Parser

variable {α β γ δ : Type} {v : View} {f : α → β} {g : γ → δ} {p : Parser α} {q : Parser β}

/-- What `q` reads in the view is what `p` reads, seen through `f`. -/
def Agrees (v : View) (f : α → β) (p : Parser α) (q : Parser β) : Prop :=
  ∀ s, q.run (v.stream s) = (v.result f (p.run s).1, v.stream (p.run s).2)

theorem agrees_pure {a : α} {b : β} (h : b = f a) : Agrees v f (pure a) (pure b) := fun _ => by
  rw [h]
  rfl

theorem agrees_throw {e e' : ParseError} (h : e' = e.relined v.line) :
    Agrees v f (throw e) (throw e') := fun _ => by
  rw [h]
  rfl

theorem run_bind (p : Parser α) (k : α → Parser γ) (s : Stream) :
    (p >>= k).run s = match p.run s with
      | (.ok a, s') => (k a).run s'
      | (.error e, s') => (.error e, s') := by
  rw [ExceptT.run_bind]
  simp only [bind, StateT.bind]
  rcases p.run s with ⟨_ | _, _⟩ <;> rfl

theorem Agrees.bind {k : α → Parser γ} {k' : β → Parser δ} (first : Agrees v f p q)
    (second : ∀ a, Agrees v g (k a) (k' (f a))) : Agrees v g (p >>= k) (q >>= k') := by
  intro s
  rw [run_bind, run_bind, first s]
  rcases p.run s with ⟨e | a, s'⟩
  · rfl
  · exact second a s'

theorem Agrees.bind_of_mem {k : α → Parser γ} {k' : β → Parser δ} (first : Agrees v f p q)
    (second : ∀ s a s', p.run s = (.ok a, s') → Agrees v g (k a) (k' (f a))) :
    Agrees v g (p >>= k) (q >>= k') := by
  intro s
  rw [run_bind, run_bind, first s]
  rcases h : p.run s with ⟨e | a, s'⟩
  · rfl
  · exact second s a s' h s'

theorem agrees_get {k : Stream → Parser α} {k' : Stream → Parser β}
    (h : ∀ s, Agrees v f (k s) (k' (v.stream s))) : Agrees v f (do k (← get)) (do k' (← get)) :=
  fun s => h s s

theorem agrees_ite {c : Prop} [Decidable c] {p' : Parser α} {q' : Parser β} (yes : Agrees v f p q)
    (no : Agrees v f p' q') : Agrees v f (if c then p else p') (if c then q else q') := by
  split
  · exact yes
  · exact no

theorem agrees_guard {c : Prop} [Decidable c] {e e' : ParseError} (h : e' = e.relined v.line)
    (rest : Agrees v f p q) :
    Agrees v f (if c then (do (throw e : Parser Unit); p) else p)
      (if c then (do (throw e' : Parser Unit); q) else q) :=
  agrees_ite (Agrees.bind (f := id) (agrees_throw h) fun _ => rest) rest

theorem agrees_tooDeep :
    Agrees v f (do throw (.nestingTooDeep (← get).limit (← get).faultLine))
      (do throw (.nestingTooDeep (← get).limit (← get).faultLine)) := by
  refine agrees_get fun s => agrees_get fun s' => agrees_throw ?_
  rw [v.faultLine_stream]
  rfl

theorem agrees_liftStep {step : Stream → Except TokenError α × Stream}
    {step' : Stream → Except TokenError β × Stream}
    (h : ∀ s, step' (v.stream s) = (v.step f (step s).1, v.stream (step s).2)) :
    Agrees v f (liftStep step) (liftStep step') := by
  intro s
  change ((step' (v.stream s)).1.mapError ParseError.token, (step' (v.stream s)).2) = _
  rw [h]
  change _ = (v.result f ((step s).1.mapError ParseError.token), v.stream (step s).2)
  rcases (step s).1 with _ | _ <;> rfl

theorem agrees_peek : Agrees v v.token peek peek :=
  agrees_liftStep fun s => by rw [v.peek_stream]

theorem agrees_peekKind : Agrees v id peekKind peekKind :=
  agrees_peek.bind fun t => agrees_pure (v.kind_token t)

theorem agrees_advance : Agrees v v.token advance advance := agrees_liftStep v.advance_stream

theorem agrees_consume (kind : TokenKind) : Agrees v v.token (consume kind) (consume kind) :=
  agrees_liftStep fun s => v.consume_stream s kind

theorem agrees_accept (kind : TokenKind) : Agrees v id (accept kind) (accept kind) := by
  intro s
  change (Except.ok ((v.stream s).accept kind).1, ((v.stream s).accept kind).2) = _
  rw [v.accept_stream]
  rfl

theorem agrees_lastLine : Agrees v v.line lastLine lastLine := fun _ => rfl

theorem agrees_room : Agrees v id room room := fun _ => rfl

theorem run_nested (p : Parser α) (s : Stream) :
    (nested p).run s = match s.enter with
      | none => (.error (.nestingTooDeep s.limit s.faultLine), s)
      | some deeper => ((p.run deeper).1, (p.run deeper).2.leave) := by
  change StateT.run (ExceptT.run (nested p)) s = _
  cases h : s.enter <;> simp [nested, h] <;> rfl

theorem agrees_nested (h : Agrees v f p q) : Agrees v f (nested p) (nested q) := by
  intro s
  rw [run_nested, run_nested]
  by_cases room : s.depth < s.limit
  · have here : s.enter = some { s with depth := s.depth + 1 } := if_pos room
    have there : (v.stream s).enter = some (v.stream { s with depth := s.depth + 1 }) := if_pos room
    simp only [here, there]
    rw [h]
    rfl
  · have here : s.enter = none := if_neg room
    have there : (v.stream s).enter = none := if_neg room
    simp only [here, there, v.faultLine_stream]
    rfl

theorem agrees_iterate {step : α → Parser (α ⊕ γ)} {step' : β → Parser (β ⊕ δ)}
    (h : ∀ a, Agrees v (Sum.map f g) (step a) (step' (f a))) (n : Nat) (a : α) :
    Agrees v g (iterate step n a) (iterate step' n (f a)) := by
  induction n generalizing a with
  | zero => exact agrees_lastLine.bind fun line => agrees_throw rfl
  | succ n ih =>
    refine (h a).bind fun r => ?_
    cases r with
    | inl a => exact ih a
    | inr c => exact agrees_pure rfl

theorem agrees_loop {step : α → Parser (α ⊕ γ)} {step' : β → Parser (β ⊕ δ)} {a : α} {b : β}
    (start : b = f a) (h : ∀ a, Agrees v (Sum.map f g) (step a) (step' (f a))) :
    Agrees v g (loop a step) (loop b step') := by
  intro s
  rw [start]
  exact agrees_iterate h (s.size + 1) a s

def Listed.map (f : α → β) (l : Listed α) : Listed β := ⟨l.items.map f, l.trailing⟩

theorem agrees_comma : Agrees v (Option.map v.token) comma comma := by
  refine agrees_peekKind.bind fun kind => agrees_ite ?_ (agrees_pure rfl)
  exact (agrees_consume .comma).bind fun t => agrees_pure rfl

theorem agrees_listed (item : Agrees v f p q) (close : TokenKind) :
    Agrees v (Listed.map f) (listed p close) (listed q close) := by
  refine agrees_loop (f := Listed.map f) rfl fun seen => agrees_peekKind.bind fun kind => ?_
  refine agrees_ite ?_ ?_
  · exact agrees_pure (by simp [Listed.map])
  · refine item.bind fun a => agrees_comma.bind fun found => ?_
    cases found with
    | none => exact agrees_pure (by simp [Listed.map])
    | some t => exact agrees_pure rfl

theorem kind_of_consume {kind : TokenKind} {s s' : Stream} {t : Token}
    (h : (consume kind).run s = (.ok t, s')) : t.kind = kind := by
  have step : (s.consume kind).1.mapError ParseError.token = .ok t := congrArg Prod.fst h
  rcases pending : s.pending with _ | ⟨_ | next, rest⟩
  · simp only [Stream.consume, Stream.peek, pending] at step
    cases step
  · simp only [Stream.consume, Stream.peek, pending] at step
    cases step
  · simp only [Stream.consume, Stream.peek, pending, Stream.advance, Stream.next] at step
    split at step
    next same => cases step; exact same
    next => cases step

theorem agrees_ident : Agrees v (Ident.relined v.line) ident ident := by
  refine (agrees_consume .ident).bind_of_mem fun s t s' found => agrees_pure ?_
  have text := v.text_token t (by rw [kind_of_consume found]; decide)
  rw [Ident.relined, text, v.line_token]

theorem literalValue_token (t : Token) :
    literalValue (v.token t) = v.result id (literalValue t) := by
  have text := v.text_token t
  unfold literalValue
  rw [v.kind_token, v.line_token]
  split
  next kind =>
    rw [text (by rw [kind]; decide)]
    split <;> rfl
  next kind => rw [text (by rw [kind]; decide)]; rfl
  next kind => rw [text (by rw [kind]; decide)]; rfl
  all_goals rfl

theorem agrees_literal : Agrees v (fun l => (l.1, v.line l.2)) literal literal := by
  refine agrees_advance.bind fun t => ?_
  rw [literalValue_token, v.line_token]
  cases literalValue t with
  | error e => exact agrees_throw rfl
  | ok value => exact agrees_pure rfl

end Parser

end GraalScript
