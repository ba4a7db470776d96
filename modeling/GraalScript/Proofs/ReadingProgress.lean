import GraalScript.Proofs.Parser.Course
import GraalScript.Proofs.Token.Prefix

/-! Reading makes progress. Whatever is read with success takes a token, and never the end of the
source, so that every repetition of the grammar ends by itself on any tokens; and a program is read
only from a text without a fault, and read to its end. -/
namespace GraalScript

theorem Cursor.exists_upTo_eq {n : Nat} {cur : Cursor} (enough : cur.rest.length < n) :
    ∃ (tokens : List Token) (last : Except LexError Token), cur.upTo n = tokens.map .ok ++ [last] ∧
      ∀ t ∈ tokens, t.kind ≠ .eos := by
  induction n generalizing cur with
  | zero => exact absurd enough (Nat.not_lt_zero _)
  | succ n ih =>
    unfold upTo
    split
    next e after next => exact ⟨[], .error e, rfl, List.forall_mem_nil _⟩
    next t after next =>
      split
      · exact ⟨[], .ok t, rfl, List.forall_mem_nil _⟩
      next real =>
        have shorter : after.rest.length < n :=
          Nat.lt_of_lt_of_le (next_rest_lt next real) (Nat.le_of_lt_succ enough)
        obtain ⟨tokens, last, items, others⟩ := ih shorter
        exact ⟨t :: tokens, last, by rw [items]; rfl, List.forall_mem_cons.mpr ⟨real, others⟩⟩

theorem exists_tokenize_eq (source : String) :
    ∃ (tokens : List Token) (last : Except LexError Token),
    tokenize source = tokens.map .ok ++ [last] ∧ ∀ t ∈ tokens, t.kind ≠ .eos := by
  rw [tokenize_eq_upTo]
  exact Cursor.exists_upTo_eq (Nat.lt_succ_self _)

/-- The stream stands somewhere in the tokens of the source. -/
structure Stream.Over (source : String) (s : Stream) : Prop where
  suffix : ∃ taken, tokenize source = taken ++ s.pending
  size : s.size = (tokenize source).length

theorem Stream.over_ofText (source : String) (limit : Nat) :
    (Stream.ofText source limit).Over source :=
  ⟨⟨[], rfl⟩, rfl⟩

theorem Stream.Over.length_le {source : String} {s : Stream} (h : s.Over source) :
    s.pending.length ≤ s.size := by
  obtain ⟨taken, items⟩ := h.suffix
  rw [h.size, items, List.length_append]
  exact Nat.le_add_left _ _

namespace Parser

/-- What is read as a whole: expressions, statements, blocks and functions. -/
inductive Phrase : {α : Type} → Parser α → Prop
  | expr {deeper : Goal → Parser Expr} (h : ExprReader deeper) (g : Goal) : Phrase (deeper g)
  | stmt {stmt : Parser Stmt} (h : StmtReader stmt) : Phrase stmt
  | block {stmt : Parser Stmt} (h : StmtReader stmt) : Phrase (block stmt)
  | func : Phrase func

theorem Phrase.proceeds {α : Type} {p : Parser α} (h : Phrase p) :
    Proceeds none (fun _ => 1) p := by
  cases h with
  | expr h g => exact h.proceeds g
  | stmt h => exact h.proceeds
  | block h => exact proceeds_block h.proceeds
  | func => exact proceeds_func

/-- What is read again and again until something else comes. -/
inductive Repeats : {α β : Type} → (α → Parser (α ⊕ β)) → Prop
  | items : Repeats itemRound
  | block {stmt : Parser Stmt} (h : StmtReader stmt) : Repeats (blockRound stmt)
  | cases {stmt : Parser Stmt} (h : StmtReader stmt) : Repeats (caseRound stmt)
  | labels : Repeats labelRound
  | caseBody {stmt : Parser Stmt} (h : StmtReader stmt) : Repeats (bodyRound stmt)
  | arguments {deeper : Goal → Parser Expr} (h : ExprReader deeper) (close : TokenKind) :
      Repeats (listedRound (deeper .assignment) close)
  | params (close : TokenKind) : Repeats (listedRound ident close)
  | vars (line : Nat) : Repeats (varRound line)
  | dimensions : Repeats dimensionRound
  | suffixes {deeper : Goal → Parser Expr} (h : ExprReader deeper) : Repeats (suffix deeper)
  | operators {deeper : Goal → Parser Expr} (h : ExprReader deeper) (least : Nat) :
      Repeats (connected deeper least)

theorem Repeats.steady {α β : Type} {step : α → Parser (α ⊕ β)} (h : Repeats step) :
    Steady step := by
  cases h with
  | items => exact steady_itemRound
  | block h => exact steady_blockRound h.proceeds
  | cases h => exact steady_caseRound h.proceeds
  | labels => exact steady_labelRound
  | caseBody h => exact steady_bodyRound h.proceeds
  | arguments h close => exact steady_listedRound (h.proceeds .assignment) close
  | params close => exact steady_listedRound proceeds_ident close
  | vars line => exact steady_varRound line
  | dimensions => exact steady_dimensionRound
  | suffixes h => exact steady_suffix h.proceeds
  | operators h least => exact steady_connected h.proceeds least

section rounds

variable {α β : Type} {step : α → Parser (α ⊕ β)} {a : α}

/-- Repeating `step` from `a` with no bound on the rounds comes to an end, which is `r`. -/
inductive Finishes (step : α → Parser (α ⊕ β)) : α → Stream → Except ParseError β × Stream → Prop
  | done {a : α} {s s' : Stream} {b : β} (run : (step a).run s = (.ok (.inr b), s')) :
      Finishes step a s (.ok b, s')
  | failed {a : α} {s s' : Stream} {e : ParseError} (run : (step a).run s = (.error e, s')) :
      Finishes step a s (.error e, s')
  | again {a a' : α} {s s' : Stream} {r : Except ParseError β × Stream}
      (run : (step a).run s = (.ok (.inl a'), s'))
      (rest : Finishes step a' s' r) : Finishes step a s r

theorem finishes_iterate (h : Steady step) {n : Nat} {s : Stream} (enough : s.pending.length < n) :
    Finishes step a s ((iterate step n a).run s) := by
  induction n generalizing a s with
  | zero => exact absurd enough (Nat.not_lt_zero _)
  | succ n ih =>
    have crosses := (h a s (before_none s)).2
    rw [iterate, run_bind]
    rcases run : (step a).run s with ⟨e | a' | b, s'⟩
    · exact .failed run
    · have fewer := (crosses _ s' run).length_le
      exact .again run (ih (Nat.lt_of_lt_of_le fewer (Nat.le_of_lt_succ enough)))
    · exact .done run

/-- The tokens still to come bound the rounds, so that it makes no difference whether they are
counted. -/
theorem Steady.exists_finishes (h : Steady step) (a : α) (s : Stream) :
    ∃ r, Finishes step a s r ∧ (s.pending.length ≤ s.size → (loop a step).run s = r) := by
  by_cases enough : s.pending.length ≤ s.size
  · exact ⟨_, finishes_iterate h (Nat.lt_succ_of_le enough), fun _ => rfl⟩
  · exact ⟨_, finishes_iterate h (Nat.lt_succ_self _), fun le => absurd le enough⟩

theorem Finishes.last {s s' : Stream} {b : β} (h : Steady step) {r : Except ParseError β × Stream}
    (finishes : Finishes step a s r) (found : r = (.ok b, s')) :
    ∃ a' s₁, s.Crosses 0 s₁ ∧ (step a').run s₁ = (.ok (.inr b), s') := by
  induction finishes with
  | @done a s _ _ run =>
    cases found
    exact ⟨a, s, s.crosses_refl, run⟩
  | failed => cases found
  | @again a a' s s₁ r run _ ih =>
    obtain ⟨a₂, s₂, later, last⟩ := ih found
    have crosses := ((h a s (before_none s)).2 _ s₁ run).trans later
    exact ⟨a₂, s₂, crosses.mono (Nat.zero_le _), last⟩

end rounds

theorem run_bind_ne_inr {α β γ : Type} {p : Parser γ} {f : γ → Parser (α ⊕ β)} {b : β}
    (h : ∀ c s s', (f c).run s ≠ (.ok (.inr b), s')) (s s' : Stream) :
    (p >>= f).run s ≠ (.ok (.inr b), s') := by
  rw [run_bind]
  rcases p.run s with ⟨e | c, s₁⟩
  · rintro ⟨⟩
  · exact h c s₁ s'

theorem run_itemRound_inr {seen : Reading} {s s' : Stream} {tree : Program}
    (h : (itemRound seen).run s = (.ok (.inr tree), s')) :
    s' = s ∧ ∃ t rest, s.pending = .ok t :: rest ∧ t.kind = .eos := by
  have stays : peek.run s = ((peek.run s).1, s) := rfl
  rw [itemRound, run_bind, stays] at h
  rcases look : (peek.run s).1 with e | t <;> rw [look] at h
  · cases h
  · obtain ⟨rest, pending⟩ := pending_of_peek look
    dsimp only at h
    split at h
    next eos =>
      split at h <;> cases h
      exact ⟨rfl, t, rest, pending, eos⟩
    next =>
      refine absurd h (run_bind_ne_inr (fun _ s₁ s₂ => ?_) s s')
      split <;> rintro ⟨⟩
    iterate 3
      next => exact absurd h (run_bind_ne_inr (fun _ s₁ s₂ => by rintro ⟨⟩) s s')

theorem pending_of_program {source : String} {s s' : Stream} (stands : s.Over source)
    {tree : Program} (h : program.run s = (.ok tree, s')) :
    ∃ (tokens : List Token) (last : Token), tokenize source = tokens.map Except.ok ++
      [Except.ok last] ∧
      (∀ t ∈ tokens, t.kind ≠ .eos) ∧ last.kind = .eos ∧ s'.pending = [.ok last] := by
  obtain ⟨r, finishes, same⟩ := steady_itemRound.exists_finishes ⟨[], 0, none⟩ s
  have found : r = (.ok tree, s') := (same stands.length_le).symm.trans h
  obtain ⟨seen, s₁, ⟨used, pending, -, -⟩, last⟩ := finishes.last steady_itemRound found
  obtain ⟨rfl, t, rest, next, eos⟩ := run_itemRound_inr last
  obtain ⟨taken, items⟩ := stands.suffix
  obtain ⟨tokens, last, shape, others⟩ := exists_tokenize_eq source
  rw [pending, next, ← List.append_assoc, shape] at items
  rcases List.eq_nil_or_concat rest with rfl | ⟨front, i, rfl⟩
  · obtain ⟨-, same⟩ := List.append_inj' items rfl
    cases same
    exact ⟨tokens, t, shape, others, eos, next⟩
  · -- behind the end of the source there would be another item
    rw [List.concat_eq_append, ← List.cons_append, ← List.append_assoc] at items
    obtain ⟨same, -⟩ := List.append_inj' items rfl
    have inside : (.ok t : Except LexError Token) ∈ tokens.map .ok := by simp [same]
    exact absurd eos (others t (by simpa using inside))

/-- Every expression, statement, block and function that is read takes a token and never the end of
the source. So each repetition comes to an end by itself, on whatever tokens, and the count of
rounds never stops one in a source; and a program is read only where the source has no fault, and up
to the end of the source. -/
theorem reading_progresses (source : String) :
    (∀ {α : Type} {p : Parser α}, Phrase p → ∀ s a s', p.run s = (.ok a, s') → s.Crosses 1 s') ∧
    (∀ {α β : Type} {step : α → Parser (α ⊕ β)}, Repeats step → ∀ a s, ∃ r, Finishes step a s r ∧
      (s.Over source → (loop a step).run s = r)) ∧
    ∀ s tree s', s.Over source → program.run s = (.ok tree, s') →
      ∃ (tokens : List Token) (last : Token), tokenize source = tokens.map .ok ++ [.ok last] ∧
        (∀ t ∈ tokens, t.kind ≠ .eos) ∧ last.kind = .eos ∧ s'.pending = [.ok last] := by
  refine ⟨fun h s => (h.proceeds s (before_none s)).2, fun h a s => ?_, fun s tree s' stands => ?_⟩
  · obtain ⟨r, finishes, same⟩ := h.steady.exists_finishes a s
    exact ⟨r, finishes, fun stands => same stands.length_le⟩
  · exact pending_of_program stands

/-- A function with a switch and a call is read from its first token to the end of the source, and
its rounds end. -/
theorem reading_progresses_switch :
    let source := "function f(a,) \x7b switch (a) \x7b case 1: g(-a); \x7d \x7d"
    let s := Stream.ofText source 20
    s.Over source ∧ (func.run s).1.isOk ∧ s.Crosses 1 (func.run s).2 ∧
      Finishes itemRound ⟨[], 0, none⟩ s (program.run s) ∧ (program.run s).1.isOk ∧
      ∃ (tokens : List Token) (last : Token), tokenize source = tokens.map .ok ++ [.ok last] ∧
        last.kind = .eos ∧
        (program.run s).2.pending = [.ok last] := by
  intro source s
  obtain ⟨phrases, rounds, whole⟩ := reading_progresses source
  have stands : s.Over source := Stream.over_ofText source 20
  have read : (func.run s).1.isOk := by decide +kernel
  have succeeds : (program.run s).1.isOk := by decide +kernel
  refine ⟨stands, read, ?_, ?_, succeeds, ?_⟩
  · rcases run : func.run s with ⟨e | f, s'⟩
    · rw [run] at read
      cases read
    · exact phrases .func s f s' run
  · obtain ⟨r, finishes, same⟩ := rounds .items ⟨[], 0, none⟩ s
    exact (same stands).symm ▸ finishes
  · rcases run : program.run s with ⟨e | tree, s'⟩
    · rw [run] at succeeds
      cases succeeds
    · obtain ⟨tokens, last, items, -, eos, pending⟩ := whole s tree s' stands run
      exact ⟨tokens, last, items, eos, pending⟩

end Parser

end GraalScript
