import GraalScript.Proofs.Token.Prefix
import GraalScript.Token.Feed

/-! Tokens that come through a buffer. However a reader mixes looking ahead with taking, what it has
taken and what is still to come are the tokens of the text in their order. The buffer itself is any
that keeps what it has looked at, hands it out in order, and looks from the front again once it is
rewound or something is taken. -/
namespace GraalScript

abbrev Items := List (Except LexError Token)

namespace Scanner

def rest (s : Scanner) : Items :=
  if s.finished then [] else s.cursor.upTo (s.cursor.rest.length + 1)

theorem rest_ofText (source : String) : (ofText source).rest = tokenize source :=
  (tokenize_eq_upTo source).symm

theorem next_eq (s : Scanner) : s.next.1 = s.rest.head? ∧ s.next.2.rest = s.rest.tail := by
  by_cases finished : s.finished = true
  · simp [next, rest, finished]
  · rcases step : s.cursor.next with ⟨e | t, after⟩
    · simp [next, nextToken, rest, finished, step, Cursor.upTo]
    · by_cases last : t.kind = .eos
      · simp [next, nextToken, rest, finished, step, last, Cursor.upTo]
      · have shorter := Cursor.next_rest_lt step last
        have here : s.cursor.upTo (s.cursor.rest.length + 1) =
            .ok t :: after.upTo s.cursor.rest.length := by
          simp [Cursor.upTo, step, last]
        simp [next, nextToken, rest, finished, step, last, here,
          Cursor.upTo_eq (Nat.lt_succ_self _) shorter]

end Scanner

namespace Lookahead

variable {σ : Type}

/-- A buffer keeps what it has looked at until it is taken. `view` shows what it keeps, and how far
it has looked. -/
structure Buffers (b : Lookahead σ) (view : σ → Ahead) : Prop where
  next_held : ∀ {a item rest}, (view a).held = item :: rest →
    (b.next a).1 = some item ∧ view (b.next a).2 = ⟨(view a).scanner, rest, 0⟩
  next_empty : ∀ {a}, (view a).held = [] →
    (b.next a).1 = (view a).scanner.next.1 ∧ view (b.next a).2 = ⟨(view a).scanner.next.2, [], 0⟩
  look_held : ∀ {a item}, (view a).held[(view a).cursor]? = some item →
    (b.look a).1 = some item ∧ view (b.look a).2 = { view a with cursor := (view a).cursor + 1 }
  look_new : ∀ {a item}, (view a).cursor = (view a).held.length →
    (view a).scanner.next.1 = some item →
    (b.look a).1 = some item ∧
      view (b.look a).2 = ⟨(view a).scanner.next.2, (view a).held ++ [item], (view a).cursor + 1⟩
  look_end : ∀ {a}, (view a).cursor = (view a).held.length → (view a).scanner.next.1 = none →
    (b.look a).1 = none ∧ view (b.look a).2 = { view a with scanner := (view a).scanner.next.2 }
  rewind : ∀ a, view (b.rewind a) = { view a with cursor := 0 }

end Lookahead

namespace Ahead

theorem buffers : lookahead.Buffers id where
  next_held held := by simp_all [lookahead, next]
  next_empty held := by simp_all [lookahead, next]
  look_held found := by simp_all [lookahead, look]
  look_new {a item} edge new := by
    have none : a.held[a.cursor]? = none := List.getElem?_eq_none (Nat.le_of_eq edge.symm)
    rcases step : a.scanner.next with ⟨_ | i, scanner⟩ <;> simp_all [lookahead, look]
  look_end {a} edge new := by
    have none : a.held[a.cursor]? = none := List.getElem?_eq_none (Nat.le_of_eq edge.symm)
    rcases step : a.scanner.next with ⟨_ | i, scanner⟩ <;> simp_all [lookahead, look]
  rewind _ := rfl

def toCome (a : Ahead) : Items := a.held ++ a.scanner.rest

end Ahead

namespace Lookahead

variable {σ : Type} {b : Lookahead σ} {view : σ → Ahead} (buffers : b.Buffers view) {a : σ}

include buffers

theorem next_eq (a : σ) : (b.next a).1 = (view a).toCome.head? ∧
    (view (b.next a).2).toCome = (view a).toCome.tail ∧ (view (b.next a).2).cursor = 0 := by
  rcases held : (view a).held with _ | ⟨item, rest⟩
  · obtain ⟨given, after⟩ := buffers.next_empty held
    obtain ⟨first, others⟩ := (view a).scanner.next_eq
    rw [given, after]
    simp [Ahead.toCome, held, first, others]
  · obtain ⟨given, after⟩ := buffers.next_held held
    rw [given, after]
    simp [Ahead.toCome, held]

/-- A look shows the item that the cursor stands at, and moves the cursor on if there is one. -/
theorem look_eq (inside : (view a).cursor ≤ (view a).held.length) :
    (b.look a).1 = (view a).toCome[(view a).cursor]? ∧
      (view (b.look a).2).toCome = (view a).toCome ∧
      (view (b.look a).2).cursor = (view a).cursor + (b.look a).1.toList.length ∧
      (view (b.look a).2).cursor ≤ (view (b.look a).2).held.length := by
  rcases Nat.lt_or_eq_of_le inside with before | edge
  · have found : (view a).held[(view a).cursor]? = some (view a).held[(view a).cursor] :=
      List.getElem?_eq_getElem before
    obtain ⟨given, after⟩ := buffers.look_held found
    rw [given, after, Ahead.toCome, List.getElem?_append_left before]
    exact ⟨found.symm, rfl, rfl, before⟩
  · obtain ⟨first, others⟩ := (view a).scanner.next_eq
    have position : (view a).toCome[(view a).cursor]? = (view a).scanner.rest.head? := by
      rw [Ahead.toCome, edge, List.getElem?_append_right (Nat.le_refl _), Nat.sub_self,
        List.head?_eq_getElem?]
    rw [position, ← first]
    rcases new : (view a).scanner.next.1 with _ | item
    · obtain ⟨given, after⟩ := buffers.look_end edge new
      have none : (view a).scanner.rest = [] := List.head?_eq_none_iff.mp (first.symm.trans new)
      rw [given, after]
      simp [Ahead.toCome, others, none, edge]
    · obtain ⟨given, after⟩ := buffers.look_new edge new
      obtain ⟨later, some⟩ := List.head?_eq_some_iff.mp (first.symm.trans new)
      rw [given, after]
      refine ⟨rfl, ?_, rfl, by simp [edge]⟩
      rw [Ahead.toCome, Ahead.toCome, others, some]
      simp

theorem lookAt_eq (n : Nat) (inside : (view a).cursor ≤ (view a).held.length) :
    (b.lookAt n a).1 = (view a).toCome[(view a).cursor + n]? ∧
      (view (b.lookAt n a).2).toCome = (view a).toCome := by
  induction n generalizing a with
  | zero => exact ⟨(look_eq buffers inside).1, (look_eq buffers inside).2.1⟩
  | succ n ih =>
    obtain ⟨given, same, cursor, further⟩ := look_eq buffers inside
    obtain ⟨last, kept⟩ := ih further
    refine ⟨?_, kept.trans same⟩
    rw [lookAt, last, same, cursor]
    rcases here : (view a).toCome[(view a).cursor]? with _ | item
    -- Behind the last item the cursor stays where it is, and there is nothing further on either.
    · have short := List.getElem?_eq_none_iff.mp here
      rw [List.getElem?_eq_none (by omega), List.getElem?_eq_none (by omega)]
    · rw [given, here]
      simp only [Option.toList_some, List.length_singleton]
      congr 1
      omega

theorem rewind_eq (a : σ) :
    (view (b.rewind a)).toCome = (view a).toCome ∧ (view (b.rewind a)).cursor = 0 := by
  rw [buffers.rewind a]
  exact ⟨rfl, rfl⟩

end Lookahead

namespace Feed

variable {σ : Type}

/-- The feed has the items of the stream to come, and has come to the same line. -/
structure At (view : σ → Ahead) (f : Feed σ) (s : Stream) : Prop where
  pending : (view f.ahead).toCome = s.pending
  lastLine : f.lastLine = s.lastLine

section steps

variable {b : Lookahead σ} {view : σ → Ahead} (buffers : b.Buffers view) {f : Feed σ} {s : Stream}

include buffers

theorem at_next (h : f.At view s) : (f.next b).1 = s.next.1 ∧ (f.next b).2.At view s.next.2 := by
  obtain ⟨given, after, -⟩ := Lookahead.next_eq buffers f.ahead
  rw [h.pending] at given after
  unfold Feed.next Stream.next
  rcases step : b.next f.ahead with ⟨item, ahead⟩
  rw [step] at given after
  rcases pending : s.pending with _ | ⟨e | t, rest⟩ <;> rw [pending] at given after <;> cases given
  · exact ⟨rfl, after.trans pending.symm, h.lastLine⟩
  · exact ⟨rfl, after, h.lastLine⟩
  · exact ⟨rfl, after, rfl⟩

theorem at_rewind (h : f.At view s) : (f.rewind b).At view s :=
  ⟨(Lookahead.rewind_eq buffers f.ahead).1.trans h.pending, h.lastLine⟩

theorem look_of_at (n : Nat) (h : f.At view s) : (b.lookAt n (f.rewind b).ahead).1 = s.pending[n]? ∧
    At view { f with ahead := (b.lookAt n (f.rewind b).ahead).2 } s := by
  obtain ⟨same, cursor⟩ := Lookahead.rewind_eq buffers f.ahead
  obtain ⟨given, kept⟩ :=
    Lookahead.lookAt_eq buffers (a := b.rewind f.ahead) n (by rw [cursor]; exact Nat.zero_le _)
  rw [same, h.pending, cursor, Nat.zero_add] at given
  exact ⟨given, kept.trans (same.trans h.pending), h.lastLine⟩

theorem at_peek (h : f.At view s) : (f.peek b).1 = s.peek ∧ (f.peek b).2.At view s := by
  obtain ⟨given, kept⟩ := look_of_at buffers 0 h
  unfold Feed.peek Stream.peek
  rcases step : b.look (f.rewind b).ahead with ⟨item, ahead⟩
  rw [Lookahead.lookAt, step] at given kept
  rcases pending : s.pending with _ | ⟨e | t, rest⟩ <;> rw [pending] at given <;> cases given
  · exact ⟨by rw [h.lastLine], kept⟩
  · exact ⟨rfl, kept⟩
  · exact ⟨rfl, kept⟩

theorem at_peekKind (h : f.At view s) :
    (f.peekKind b).1 = s.peek.map Token.kind ∧ (f.peekKind b).2.At view s := by
  obtain ⟨given, kept⟩ := at_peek buffers h
  exact ⟨congrArg (Except.map Token.kind) given, kept⟩

theorem at_kindAt (n : Nat) (h : f.At view s) :
    (f.kindAt b n).1 = s.kindAt n ∧ (f.kindAt b n).2.At view s := by
  obtain ⟨given, kept⟩ := look_of_at buffers n h
  refine ⟨?_, at_rewind buffers kept⟩
  rw [Stream.kindAt, ← given]
  rfl

theorem at_advance (h : f.At view s) :
    (f.advance b).1 = s.advance.1 ∧ (f.advance b).2.At view s.advance.2 := by
  obtain ⟨given, kept⟩ := at_next buffers h
  unfold Feed.advance Stream.advance
  rcases step : f.next b with ⟨item, after⟩
  rcases ref : s.next with ⟨item', s'⟩
  rw [step, ref] at given kept
  cases given
  rcases item with _ | e | t
  · refine ⟨?_, kept⟩
    have line : s'.lastLine = s.lastLine := by
      unfold Stream.next at ref
      split at ref <;> cases ref
      rfl
    rw [← line, ← kept.lastLine]
  · exact ⟨rfl, kept⟩
  · exact ⟨rfl, kept⟩

theorem at_consume (kind : TokenKind) (h : f.At view s) :
    (f.consume b kind).1 = (s.consume kind).1 ∧
      (f.consume b kind).2.At view (s.consume kind).2 := by
  obtain ⟨given, kept⟩ := at_peek buffers h
  unfold Feed.consume Stream.consume
  rcases step : f.peek b with ⟨e | t, after⟩ <;> rw [step] at given kept <;> rw [← given]
  · exact ⟨rfl, kept⟩
  · by_cases same : t.kind = kind
    · simpa only [same, if_true] using at_advance buffers kept
    · simpa only [same, if_false] using ⟨trivial, kept⟩

theorem at_accept (kind : TokenKind) (h : f.At view s) :
    (f.accept b kind).1 = (s.accept kind).1 ∧ (f.accept b kind).2.At view (s.accept kind).2 := by
  obtain ⟨given, kept⟩ := look_of_at buffers 0 h
  have after := at_rewind buffers kept
  unfold Feed.accept Stream.accept Stream.consume Stream.peek
  rcases step : b.look (f.rewind b).ahead with ⟨item, ahead⟩
  rw [Lookahead.lookAt, step] at given after
  rcases pending : s.pending with _ | ⟨e | t, rest⟩ <;> rw [pending] at given <;> cases given
  · exact ⟨rfl, after⟩
  · exact ⟨rfl, after⟩
  · by_cases same : t.kind = kind
    · have taken := (at_next buffers after).2
      simpa [same, Stream.advance, Stream.next, pending] using taken
    · simpa [same] using after

end steps

/-- What a reader can ask for. -/
inductive Call where
  | next
  | advance
  | accept (kind : TokenKind)
  | consume (kind : TokenKind)
  | peek
  | peekKind
  | kindAt (n : Nat)
  | rewind

section calls

variable (b : Lookahead σ) (f : Feed σ)

def after : Call → Feed σ
  | .next => (f.next b).2
  | .advance => (f.advance b).2
  | .accept kind => (f.accept b kind).2
  | .consume kind => (f.consume b kind).2
  | .peek => (f.peek b).2
  | .peekKind => (f.peekKind b).2
  | .kindAt n => (f.kindAt b n).2
  | .rewind => f.rewind b

/-- The items that a call hands out. Where it only says that it has found its token, this is the one
that would have been handed out. -/
def taken : Call → Items
  | .next => (f.next b).1.toList
  | .advance =>
    match (f.advance b).1 with
    | .ok t => [.ok t]
    | .error (.lex e) => [.error e]
    | .error _ => []
  | .accept kind => if (f.accept b kind).1 then (f.next b).1.toList else []
  | .consume kind =>
    match (f.consume b kind).1 with
    | .ok t => [.ok t]
    | .error _ => []
  | .peek | .peekKind | .kindAt _ | .rewind => []

def run (calls : List Call) : Feed σ := calls.foldl (after b) f

def takenBy (f : Feed σ) : List Call → Items
  | [] => []
  | c :: calls => f.taken b c ++ takenBy (f.after b c) calls

/-- The items that are handed out when one is taken after the other, `n` of them at most. -/
def items : Nat → Feed σ → Items
  | 0, _ => []
  | n + 1, f =>
    match f.next b with
    | (none, _) => []
    | (some item, f) => item :: items n f

/-- Between two feeds nothing was taken: the same items come from both, and the line is the same. -/
def Same (f g : Feed σ) : Prop := g.lastLine = f.lastLine ∧ ∀ n, items b n g = items b n f

/-- The feed answers as the stream does, and only what takes a token changes what is to come. -/
structure Shows (s : Stream) : Prop where
  items : ∀ n, items b n f = s.pending.take n
  lastLine : f.lastLine = s.lastLine
  peek : (f.peek b).1 = s.peek ∧ Same b f (f.peek b).2
  peekKind : (f.peekKind b).1 = s.peek.map Token.kind ∧ Same b f (f.peekKind b).2
  kindAt : ∀ n, (f.kindAt b n).1 = s.kindAt n ∧ Same b f (f.kindAt b n).2
  rewind : Same b f (f.rewind b)
  found : ∀ kind, (f.accept b kind).1 = true ↔ ∃ t rest, s.pending = .ok t :: rest ∧ t.kind = kind
  missed : ∀ kind, (f.accept b kind).1 = false → Same b f (f.accept b kind).2
  consumed : ∀ kind t, (f.consume b kind).1 = .ok t ↔ ∃ rest, s.pending = .ok t :: rest ∧
    t.kind = kind
  refused : ∀ kind e, (f.consume b kind).1 = .error e → Same b f (f.consume b kind).2

end calls

variable {b : Lookahead σ} {view : σ → Ahead} {f : Feed σ} {s : Stream}

/-- The line of the last token among some items, or a line before them. -/
def lineBehind (line : Nat) (items : Items) : Nat :=
  (items.filterMap Except.toOption).getLast?.elim line Token.line

theorem lineBehind_append (line : Nat) (front back : Items) :
    lineBehind line (front ++ back) = lineBehind (lineBehind line front) back := by
  unfold lineBehind
  rw [List.filterMap_append, List.getLast?_append]
  cases (back.filterMap Except.toOption).getLast? <;> rfl

def Passes (view : σ → Ahead) (taken : Items) (f : Feed σ) (s : Stream) : Prop :=
  ∃ s', f.At view s' ∧ taken ++ s'.pending = s.pending ∧ s'.lastLine = lineBehind s.lastLine taken

theorem passes_nothing (h : f.At view s) : Passes view [] f s := ⟨s, h, rfl, rfl⟩

section passes

variable (buffers : b.Buffers view)

include buffers

theorem passes_next (h : f.At view s) : Passes view (f.next b).1.toList (f.next b).2 s := by
  obtain ⟨given, after⟩ := at_next buffers h
  refine ⟨s.next.2, after, ?_⟩
  rw [given, Stream.next]
  rcases pending : s.pending with _ | ⟨e | t, rest⟩ <;> simp [pending, lineBehind, Except.toOption]

theorem passes_advance (h : f.At view s) :
    Passes view (f.taken b .advance) (f.after b .advance) s := by
  have passes := passes_next buffers h
  rw [taken, after, Feed.advance]
  rcases step : f.next b with ⟨_ | e | t, g⟩ <;> rw [step] at passes <;> exact passes

theorem passes_consume (kind : TokenKind) (h : f.At view s) :
    Passes view (f.taken b (.consume kind)) (f.after b (.consume kind)) s := by
  obtain ⟨given, kept⟩ := at_peek buffers h
  rw [taken, after, Feed.consume]
  rcases step : f.peek b with ⟨e | t, g⟩ <;> rw [step] at given kept
  · exact passes_nothing kept
  · by_cases same : t.kind = kind
    · -- What was looked at is what is taken, so that the taking cannot fail.
      have passes := passes_advance buffers kept
      have answer : (g.advance b).1 = .ok t := by
        rw [(at_advance buffers kept).1]
        unfold Stream.peek at given
        split at given <;> cases given
        simp [Stream.advance, Stream.next, *]
      rw [taken, after, answer] at passes
      simpa only [same, if_true, answer] using passes
    · simpa only [same, if_false] using passes_nothing kept

theorem passes_accept (kind : TokenKind) (h : f.At view s) :
    Passes view (f.taken b (.accept kind)) (f.after b (.accept kind)) s := by
  obtain ⟨given, kept⟩ := at_accept buffers kind h
  rw [taken, after, given, (at_next buffers h).1]
  refine ⟨(s.accept kind).2, kept, ?_⟩
  unfold Stream.accept Stream.consume Stream.peek Stream.advance Stream.next
  rcases pending : s.pending with _ | ⟨e | t, rest⟩
  · simp [pending, lineBehind]
  · simp [pending, lineBehind]
  · by_cases same : t.kind = kind <;> simp [pending, same, lineBehind, Except.toOption]

theorem passes_call (c : Call) (h : f.At view s) : Passes view (f.taken b c) (f.after b c) s := by
  cases c with
  | next => exact passes_next buffers h
  | advance => exact passes_advance buffers h
  | accept kind => exact passes_accept buffers kind h
  | consume kind => exact passes_consume buffers kind h
  | peek => exact passes_nothing (at_peek buffers h).2
  | peekKind => exact passes_nothing (at_peekKind buffers h).2
  | kindAt n => exact passes_nothing (at_kindAt buffers n h).2
  | rewind => exact passes_nothing (at_rewind buffers h)

theorem passes_run (calls : List Call) (h : f.At view s) :
    Passes view (f.takenBy b calls) (f.run b calls) s := by
  induction calls generalizing f s with
  | nil => exact passes_nothing h
  | cons c calls ih =>
    obtain ⟨mid, here, first, line⟩ := passes_call buffers c h
    obtain ⟨last, there, rest, line'⟩ := ih here
    refine ⟨last, there, ?_, ?_⟩
    · rw [takenBy, List.append_assoc, rest, first]
    · rw [takenBy, lineBehind_append, ← line, line']

theorem items_of_at (n : Nat) (h : f.At view s) : items b n f = s.pending.take n := by
  induction n generalizing f s with
  | zero => rfl
  | succ n ih =>
    obtain ⟨given, after⟩ := at_next buffers h
    rw [items]
    rcases step : f.next b with ⟨item, g⟩
    rw [step] at given after
    unfold Stream.next at given after
    rcases pending : s.pending with _ | ⟨e | t, rest⟩ <;> simp only [pending] at given after <;>
      subst given
    · rfl
    · exact congrArg (_ :: ·) (ih after)
    · exact congrArg (_ :: ·) (ih after)

theorem same_of_at {g : Feed σ} (h : f.At view s) (h' : g.At view s) : Same b f g :=
  ⟨h'.lastLine.trans h.lastLine.symm,
    fun n => (items_of_at buffers n h').trans (items_of_at buffers n h).symm⟩

theorem shows_of_at (h : f.At view s) : f.Shows b s where
  items n := items_of_at buffers n h
  lastLine := h.lastLine
  peek := (at_peek buffers h).imp_right (same_of_at buffers h)
  peekKind := (at_peekKind buffers h).imp_right (same_of_at buffers h)
  kindAt n := (at_kindAt buffers n h).imp_right (same_of_at buffers h)
  rewind := same_of_at buffers h (at_rewind buffers h)
  found kind := by
    rw [(at_accept buffers kind h).1]
    unfold Stream.accept Stream.consume Stream.peek Stream.advance Stream.next
    rcases s.pending with _ | ⟨e | t, rest⟩
    · simp
    · simp
    · by_cases same : t.kind = kind <;> simp [same]
  missed kind none := by
    obtain ⟨given, after⟩ := at_accept buffers kind h
    refine same_of_at buffers h ?_
    rw [none] at given
    unfold Stream.accept at given after
    rcases step : s.consume kind with ⟨e | t, s'⟩
    · rwa [step] at after
    · rw [step] at given
      cases given
  consumed kind t := by
    rw [(at_consume buffers kind h).1]
    unfold Stream.consume Stream.peek Stream.advance Stream.next
    rcases s.pending with _ | ⟨e | u, rest⟩
    · simp
    · simp
    · by_cases same : u.kind = kind
      · simp only [same, if_true, Except.ok.injEq, List.cons.injEq]
        constructor
        · rintro rfl
          exact ⟨rest, ⟨rfl, rfl⟩, same⟩
        · rintro ⟨_, ⟨rfl, -⟩, -⟩
          rfl
      · simp only [same, if_false]
        constructor
        · rintro ⟨⟩
        · rintro ⟨_, ⟨⟩, here⟩
          exact absurd here same
  refused kind e failed := by
    obtain ⟨given, after⟩ := at_consume buffers kind h
    refine same_of_at buffers h ?_
    rw [failed] at given
    unfold Stream.consume at given after
    unfold Stream.peek Stream.advance Stream.next at given after
    rcases pending : s.pending with _ | ⟨e | u, rest⟩ <;> simp only [pending] at given after
    · exact after
    · exact after
    · by_cases same : u.kind = kind
      · simp only [same, if_true] at given
        cases given
      · simpa only [same, if_false] using after

end passes

/-- After any calls, what was taken and what is still to come are the tokens of the text in their
order; the feed answers from what is to come, whatever was looked at before, and knows the line of
the token taken last. -/
theorem shows_of_calls (buffers : b.Buffers view) {a : σ} {source : String}
    (fresh : view a = .ofText source) (calls : List Call) :
    ∃ s : Stream, (start a).takenBy b calls ++ s.pending = tokenize source ∧
      s.lastLine = lineBehind 0 ((start a).takenBy b calls) ∧
        ((start a).run b calls).Shows b s := by
  have begin : (start a).At view (.ofText source 0) := by
    refine ⟨?_, rfl⟩
    change (view a).toCome = tokenize source
    rw [fresh, Ahead.toCome, Ahead.ofText, Scanner.rest_ofText]
    rfl
  obtain ⟨s, here, taken, line⟩ := passes_run buffers calls begin
  exact ⟨s, taken, line, shows_of_at buffers here⟩

/-- Looking past a fault before two tokens are taken. -/
theorem shows_of_calls_past_fault :
    let calls :=
      [Call.kindAt 5, .consume .ident, .accept .comma, .peek, .kindAt 1, .next, .consume .semicolon]
    ((start (Ahead.ofText "a += \"b")).takenBy Ahead.lookahead calls).length = 2 ∧
      ∃ s : Stream,
        (start (Ahead.ofText "a += \"b")).takenBy Ahead.lookahead calls ++ s.pending =
          tokenize "a += \"b" ∧
        s.lastLine =
          lineBehind 0 ((start (Ahead.ofText "a += \"b")).takenBy Ahead.lookahead calls) ∧
        ((start (Ahead.ofText "a += \"b")).run Ahead.lookahead calls).Shows Ahead.lookahead s :=
  ⟨by decide +kernel, shows_of_calls Ahead.buffers rfl _⟩

end Feed

end GraalScript
