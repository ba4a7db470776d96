import GraalScript.Proofs.Token.Gap
import GraalScript.Text.Utf8
import GraalScript.Token.Feed
import Mathlib.Data.List.Induction

/-! Where the tokens of a source text stand. The text is cut into tokens and gaps, in order and
without a remainder, up to the end of the source or the first fault; the place of a token is that of
its text, counted in bytes, lines and columns from the start of the source. -/
namespace GraalScript

namespace Pos

theorem advance_concat (p : Pos) (cs : List Char) (c : Char) :
    p.advance (cs ++ [c]) = (p.advance cs).next c := by
  rw [advance_append]
  rfl

theorem byte_advance (p : Pos) (cs : List Char) :
    (p.advance cs).byte = p.byte + (String.ofList cs).utf8ByteSize := by
  induction cs generalizing p with
  | nil => rfl
  | cons c cs ih =>
    have step : (p.next c).byte = p.byte + c.utf8Size := by
      unfold next
      split <;> rfl
    rw [advance_cons, ih, step, String.ofList_cons, String.utf8ByteSize_append,
      String.utf8ByteSize_singleton, Nat.add_assoc]

theorem line_advance (p : Pos) (cs : List Char) : (p.advance cs).line = p.line + cs.count '\n' := by
  induction cs generalizing p with
  | nil => rfl
  | cons c cs ih =>
    rw [advance_cons, ih, List.count_cons]
    unfold next
    split
    next feed => simp [feed]; omega
    next other => simp [other]

/-- The characters behind the last line feed. -/
def lastLine (cs : List Char) : List Char := (cs.reverse.takeWhile (· != '\n')).reverse

theorem lastLine_append {cs : List Char} (ds : List Char) (h : '\n' ∉ cs) :
    lastLine (ds ++ cs) = lastLine ds ++ cs := by
  have whole : ∀ c ∈ cs.reverse, (c != '\n') = true := by
    intro c inside
    have other : c ≠ '\n' := ne_of_mem_of_not_mem (List.mem_reverse.mp inside) h
    simpa using other
  rw [lastLine, lastLine, List.reverse_append, List.takeWhile_append_of_pos whole,
    List.reverse_append, List.reverse_reverse]

theorem column_advance (cs : List Char) : (origin.advance cs).column = (lastLine cs).length := by
  induction cs using List.reverseRecOn with
  | nil => rfl
  | append_singleton cs c ih =>
    rw [advance_concat, next]
    split
    next feed =>
      subst feed
      simp [lastLine]
    next other =>
      simp [lastLine_append, Ne.symm other, ih]

end Pos

namespace Text

theorem slice?_append (front middle back : String) :
    slice? (front ++ middle ++ back) front.utf8ByteSize (front ++ middle).utf8ByteSize =
      some middle := by
  have start : (bytes (front ++ middle ++ back)).take front.utf8ByteSize = bytes front := by
    rw [bytes_append, bytes_append, List.append_assoc, ← length_bytes, List.take_left]
  have stop : (bytes (front ++ middle ++ back)).take (front ++ middle).utf8ByteSize =
      bytes (front ++ middle) := by
    rw [bytes_append, ← length_bytes, List.take_left]
  have piece : (bytes (front ++ middle)).drop front.utf8ByteSize = bytes middle := by
    rw [bytes_append, ← length_bytes, List.drop_left]
  unfold slice?
  dsimp only
  rw [start, stop, piece, ofBytes?_bytes, ofBytes?_bytes, length_bytes, if_pos]
  simp [String.utf8ByteSize_append]

end Text

namespace Cursor

open Lexer

/-- A step over the gap `gap` and the token `t`. -/
structure Steps (cur : Cursor) (gap : List Char) (t : Token) (after : Cursor) : Prop where
  rest : cur.rest = gap ++ (t.text.toList ++ after.rest)
  between : Gap gap (t.text.toList ++ after.rest)
  start : t.span.start = cur.pos.advance gap
  stop : t.span.stop = t.span.start.advance t.text.toList
  pos : after.pos = t.span.stop
  line : '\n' ∉ t.text.toList
  empty : t.text.toList = [] ↔ t.kind = .eos
  last : t.kind = .eos → after.rest = []

theorem steps_of_next {cur after : Cursor} {t : Token} (h : cur.next = (.ok t, after)) :
    ∃ gap, cur.Steps gap t after := by
  fun_induction next cur with
  | case1 pos =>
    cases h
    exact ⟨[], rfl, .nil _, rfl, rfl, rfl, by simp, by simp, fun _ => rfl⟩
  | case2 c cs pos lexeme behind piece ih =>
    obtain ⟨gap, step⟩ := ih h
    refine ⟨(c :: cs).take lexeme.length ++ gap, ?_, ?_, ?_, step.stop, step.pos, step.line,
      step.empty, step.last⟩
    · have whole := List.take_append_drop lexeme.length (c :: cs)
      rw [List.append_assoc, ← step.rest]
      exact whole.symm
    · exact (gap_scan piece).append step.rest step.between
    · rw [step.start, Pos.advance_append]
      rfl
  | case3 c cs pos lexeme behind kind piece =>
    rw [Prod.mk.injEq, Except.ok.injEq] at h
    obtain ⟨rfl, rfl⟩ := h
    obtain ⟨kind, line⟩ := token_scan piece
    have taken : 0 < lexeme.length := scan_length_pos c cs
    refine ⟨[], ?_, .nil _, rfl, ?_, rfl, ?_, ?_, fun eos => absurd eos kind⟩
    · simp [behind, skip]
    · simp [behind, skip]
    · simpa using line
    · simp [kind]
      omega
  | case4 => cases h

theorem error_of_next {cur after : Cursor} {e : LexError} (h : cur.next = (.error e, after)) :
    ∃ gap faulty, cur.rest = gap ++ faulty ∧ Gap gap faulty ∧ faulty ≠ [] ∧
      e.line = (cur.pos.advance gap).line := by
  fun_induction next cur with
  | case1 => cases h
  | case2 c cs pos lexeme behind piece ih =>
    obtain ⟨gap, faulty, rest, isGap, nonempty, line⟩ := ih h
    refine ⟨(c :: cs).take lexeme.length ++ gap, faulty, ?_, (gap_scan piece).append rest isGap,
      nonempty, ?_⟩
    · have whole := List.take_append_drop lexeme.length (c :: cs)
      rw [List.append_assoc, ← rest]
      exact whole.symm
    · rw [line, Pos.advance_append]
      rfl
  | case3 => cases h
  | case4 c cs pos =>
    rw [Prod.mk.injEq, Except.error.injEq] at h
    obtain ⟨rfl, rfl⟩ := h
    exact ⟨[], c :: cs, rfl, .nil _, List.cons_ne_nil c cs, rfl⟩

end Cursor

/-- The token stands in the source where the text `before` ends: its text lies between the two byte
positions, which are places between characters, its line is one more than the line feeds in front of
it, and its columns are those of its first and its last character. Only the end of the source is
empty, and it stands at the end. -/
structure Token.StandsAt (source : String) (before : List Char) (t : Token) : Prop where
  slice : Text.slice? source t.span.start.byte t.span.stop.byte = some t.text
  startByte : t.span.start.byte = (String.ofList before).utf8ByteSize
  stopByte : t.span.stop.byte = (String.ofList (before ++ t.text.toList)).utf8ByteSize
  bound : t.span.stop.byte ≤ source.utf8ByteSize
  startLine : t.span.start.line = 1 + before.count '\n'
  stopLine : t.span.stop.line = t.span.start.line
  startColumn : t.span.startColumn = (Pos.lastLine before).length + 1
  endColumn : t.span.endColumn = (Pos.lastLine (before ++ t.text.toList.dropLast)).length + 1
  empty : t.span.isEmpty = true ↔ t.kind = .eos
  eos : t.kind = .eos → t.span.start.byte = source.utf8ByteSize

namespace Cursor.Steps

variable {cur after : Cursor} {gap before : List Char} {t : Token}

theorem start_eq (h : cur.Steps gap t after) (place : cur.pos = Pos.origin.advance before) :
    t.span.start = Pos.origin.advance (before ++ gap) := by
  rw [h.start, place, Pos.advance_append]

theorem stop_eq (h : cur.Steps gap t after) (place : cur.pos = Pos.origin.advance before) :
    t.span.stop = Pos.origin.advance (before ++ gap ++ t.text.toList) := by
  rw [h.stop, h.start_eq place, ← Pos.advance_append]

theorem endColumn (h : cur.Steps gap t after) (place : cur.pos = Pos.origin.advance before)
    (empty : t.span.isEmpty = true ↔ t.text.toList = []) :
    t.span.endColumn = (Pos.lastLine (before ++ gap ++ t.text.toList.dropLast)).length + 1 := by
  have plain : '\n' ∉ t.text.toList.dropLast := fun inside => h.line (List.dropLast_subset _ inside)
  rw [Pos.lastLine_append _ plain, List.length_append, List.length_dropLast, Span.endColumn]
  split
  next isEmpty =>
    rw [Span.startColumn, h.start_eq place, Pos.column_advance, empty.mp isEmpty]
    rfl
  next other =>
    have some : 0 < t.text.toList.length := List.length_pos_iff.mpr fun none =>
      other (empty.mpr none)
    rw [h.stop_eq place, Pos.column_advance, Pos.lastLine_append _ h.line, List.length_append]
    omega

theorem standsAt (h : cur.Steps gap t after) (place : cur.pos = Pos.origin.advance before)
    {source : String} (whole : source.toList = before ++ cur.rest) :
    t.StandsAt source (before ++ gap) := by
  have parts : source = String.ofList (before ++ gap) ++ t.text ++ String.ofList after.rest := by
    rw [← String.toList_inj, whole, h.rest]
    simp
  have startByte : t.span.start.byte = (String.ofList (before ++ gap)).utf8ByteSize := by
    rw [h.start_eq place, Pos.byte_advance]
    exact Nat.zero_add _
  have joined : String.ofList (before ++ gap ++ t.text.toList) = String.ofList (before ++ gap) ++
      t.text := by
    rw [String.ofList_append, String.ofList_toList]
  have stopByte : t.span.stop.byte = (String.ofList (before ++ gap) ++ t.text).utf8ByteSize := by
    rw [h.stop_eq place, Pos.byte_advance, joined]
    exact Nat.zero_add _
  have empty : t.span.isEmpty = true ↔ t.text.toList = [] := by
    rw [Span.isEmpty, beq_iff_eq, startByte, stopByte, String.utf8ByteSize_append]
    simp
  refine ⟨?_, startByte, ?_, ?_, ?_, ?_, ?_, h.endColumn place empty, empty.trans h.empty,
    fun eos => ?_⟩
  · rw [startByte, stopByte, parts]
    exact Text.slice?_append _ t.text _
  · rw [stopByte, joined]
  · rw [stopByte, parts, String.utf8ByteSize_append (t := String.ofList after.rest)]
    exact Nat.le_add_right _ _
  · rw [h.start_eq place, Pos.line_advance]
    rfl
  · rw [h.stop, Pos.line_advance, List.count_eq_zero.mpr h.line]
    rfl
  · rw [Span.startColumn, h.start_eq place, Pos.column_advance]
  · rw [startByte, parts, h.last eos, String.toList_eq_nil_iff.mp (h.empty.mpr eos)]
    simp

end Cursor.Steps

/-- A token, and the text that is passed over in front of it. -/
structure Cut where
  gap : List Char
  token : Token

namespace Cut

/-- The text that cuts take, one behind the other. -/
def texts (cuts : List Cut) : List Char := cuts.flatMap fun c => c.gap ++ c.token.text.toList

theorem texts_cons (c : Cut) (cuts : List Cut) :
    texts (c :: cuts) = c.gap ++ c.token.text.toList ++ texts cuts :=
  rfl

/-- Behind the text `before`, a cut passes over a gap and takes the token that stands there. The end
of the source comes last, behind all text. -/
structure Fits (source : String) (before : List Char) (c : Cut) (back : List Cut)
  (left : List Char) : Prop where
  gap : Lexer.Gap c.gap (c.token.text.toList ++ (texts back ++ left))
  token : c.token.StandsAt source (before ++ c.gap)
  last : c.token.kind = .eos ↔ back = [] ∧ left = []

/-- Every cut fits where it stands. -/
def InPlace (source : String) (before : List Char) (cuts : List Cut) (left : List Char) : Prop :=
  ∀ front c back, cuts = front ++ c :: back → c.Fits source (before ++ texts front) back left

/-- The items end with the end of the source, and no text is left, or with a fault behind one more
gap. -/
def Ends (before : List Char) (cuts : List Cut) (left : List Char)
    (faults : List (Except LexError Token)) : Prop :=
  (faults = [] ∧ left = [] ∧ cuts ≠ []) ∨
    ∃ gap faulty e, faults = [.error e] ∧ left = gap ++ faulty ∧ Lexer.Gap gap faulty ∧
      faulty ≠ [] ∧
      e.line = 1 + (before ++ texts cuts ++ gap).count '\n'

variable {source : String} {before left : List Char} {cuts : List Cut}
  {faults : List (Except LexError Token)}

theorem inPlace_nil : InPlace source before [] left := fun _ _ _ same => absurd same (by simp)

theorem InPlace.cons {c : Cut} (first : c.Fits source before cuts left)
    (rest : InPlace source (before ++ c.gap ++ c.token.text.toList) cuts left) :
    InPlace source before (c :: cuts) left := by
  intro front d back same
  rcases List.cons_eq_append_iff.mp same with ⟨rfl, here⟩ | ⟨front, rfl, later⟩
  · obtain ⟨rfl, rfl⟩ := List.cons.inj here
    simpa [texts] using first
  · have fits := rest front d back later
    simpa [texts_cons] using fits

theorem Ends.cons {c : Cut} (h : Ends (before ++ c.gap ++ c.token.text.toList) cuts left faults) :
    Ends before (c :: cuts) left faults := by
  rcases h with ⟨rfl, rfl, -⟩ | ⟨gap, faulty, e, rfl, rfl, isGap, nonempty, line⟩
  · exact .inl ⟨rfl, rfl, List.cons_ne_nil c cuts⟩
  · refine .inr ⟨gap, faulty, e, rfl, rfl, isGap, nonempty, ?_⟩
    rw [line, texts_cons]
    simp

theorem Ends.more (h : Ends before cuts left faults) : ¬(cuts = [] ∧ left = []) := by
  rintro ⟨rfl, rfl⟩
  rcases h with ⟨-, -, some⟩ | ⟨gap, faulty, e, -, none, -, nonempty, -⟩
  · exact some rfl
  · exact nonempty (List.append_eq_nil_iff.mp none.symm).2

/-- Tokens come one behind the other. -/
def Before (t u : Token) : Prop :=
  t.span.start.byte < u.span.start.byte ∧ t.span.stop.byte ≤ u.span.start.byte

theorem InPlace.tail {c : Cut} (h : InPlace source before (c :: cuts) left) :
    InPlace source (before ++ (c.gap ++ c.token.text.toList)) cuts left := by
  intro front d back same
  have fits := h (c :: front) d back (by rw [same]; rfl)
  rwa [texts_cons, ← List.append_assoc] at fits

theorem InPlace.pairwise (h : InPlace source before cuts left) :
    (cuts.map Cut.token).Pairwise Before := by
  induction cuts generalizing before with
  | nil => exact .nil
  | cons c cuts ih =>
    have first := h [] c cuts rfl
    rw [List.map_cons, List.pairwise_cons]
    constructor
    · intro u inside
      obtain ⟨d, mem, rfl⟩ := List.mem_map.mp inside
      obtain ⟨front, back, rfl⟩ := List.append_of_mem mem
      have later := (h (c :: front) d back rfl).token.startByte
      have stop := first.token.stopByte
      have start := first.token.startByte
      have some : c.token.span.start.byte ≠ c.token.span.stop.byte := by
        intro same
        have eos := first.token.empty.mp (beq_iff_eq.mpr same)
        exact List.ne_nil_of_mem mem (first.last.mp eos).1
      rw [texts_cons] at later
      simp only [texts, List.flatMap_nil, List.append_nil, String.ofList_append,
        String.utf8ByteSize_append, String.ofList_toList] at later stop start
      constructor <;> omega
    · exact ih h.tail

end Cut

open Cut in
theorem Cursor.cuts_upTo (source : String) (n : Nat) {cur : Cursor} (before : List Char)
    (enough : cur.rest.length < n) (place : cur.pos = Pos.origin.advance before)
    (whole : source.toList = before ++ cur.rest) :
    ∃ cuts left faults, upTo n cur = cuts.map (fun c => .ok c.token) ++ faults ∧
      cur.rest = texts cuts ++ left ∧
      InPlace source before cuts left ∧ Ends before cuts left faults := by
  induction n generalizing cur before with
  | zero => exact absurd enough (Nat.not_lt_zero _)
  | succ n ih =>
    unfold upTo
    split
    next e after next =>
      obtain ⟨gap, faulty, rest, isGap, nonempty, line⟩ := error_of_next next
      refine ⟨[], cur.rest, [.error e], rfl, rfl, inPlace_nil,
        .inr ⟨gap, faulty, e, rfl, rest, isGap, nonempty, ?_⟩⟩
      rw [line, place, ← Pos.advance_append, Pos.line_advance]
      simp [texts, Pos.origin]
    next t after next =>
      obtain ⟨gap, step⟩ := steps_of_next next
      have placed := step.standsAt place whole
      split
      next eos =>
        refine ⟨[⟨gap, t⟩], [], [], rfl, ?_, .cons ⟨?_, placed, by simp [eos]⟩ inPlace_nil,
          .inl ⟨rfl, rfl, by simp⟩⟩
        · simp [texts, step.rest, step.last eos]
        · have between := step.between
          rwa [step.last eos] at between
      next more =>
        have shorter := next_rest_lt next more
        have stop : after.pos = Pos.origin.advance (before ++ gap ++ t.text.toList) := by
          rw [step.pos, step.stop_eq place]
        obtain ⟨cuts, left, faults, items, rest, inPlace, ends⟩ :=
          ih (before ++ gap ++ t.text.toList)
            (Nat.lt_of_lt_of_le shorter (Nat.le_of_lt_succ enough)) stop
            (by rw [whole, step.rest]; simp)
        refine ⟨⟨gap, t⟩ :: cuts, left, faults,
          by rw [items]; rfl, ?_, .cons ⟨?_, placed, ?_⟩ inPlace, ends.cons⟩
        · rw [step.rest, rest, texts_cons]
          simp
        · have between := step.between
          rwa [rest] at between
        · exact ⟨fun eos => absurd eos more, fun none => absurd none ends.more⟩

namespace Scanner

/-- The first `n` items that are handed out, or fewer if the source is finished before. -/
def items : Nat → Scanner → List (Except LexError Token)
  | 0, _ => []
  | n + 1, s =>
    match s.next with
    | (none, _) => []
    | (some item, after) => item :: items n after

theorem items_finished (n : Nat) {s : Scanner} (h : s.finished = true) : s.items n = [] := by
  cases n with
  | zero => rfl
  | succ n => simp [items, next, h]

theorem items_eq_upTo (n : Nat) {s : Scanner} (h : s.finished = false) :
    s.items n = s.cursor.upTo n := by
  induction n generalizing s with
  | zero => rfl
  | succ n ih =>
    rw [items, next, Cursor.upTo, nextToken, h]
    rcases s.cursor.next with ⟨e | t, after⟩
    · simp [items_finished]
    · by_cases eos : t.kind = .eos
      · simp [eos, items_finished]
      · simp [eos, ih]

end Scanner

theorem Cursor.upTo_eq_take (n : Nat) {m : Nat} {cur : Cursor} (enough : cur.rest.length < m) :
    cur.upTo n = (cur.upTo m).take n := by
  induction n generalizing m cur with
  | zero => rfl
  | succ n ih =>
    obtain ⟨m, rfl⟩ := Nat.exists_eq_succ_of_ne_zero (Nat.ne_zero_of_lt enough)
    unfold upTo
    split
    next => simp
    next t after next =>
      split
      next => simp
      next more =>
        have shorter := next_rest_lt next more
        rw [List.take_succ_cons, ih (m := m) (by omega)]

theorem Scanner.items_ofText (source : String) (n : Nat) :
    (ofText source).items n = (tokenize source).take n := by
  rw [items_eq_upTo n rfl, tokenize_eq_upTo]
  exact Cursor.upTo_eq_take n (Nat.lt_succ_self _)

/-- A source text is cut without a remainder into gaps and tokens that stand one behind the other,
up to the end of the source or the first fault. -/
theorem tokenize_inPlace (source : String) :
    (∀ n, (Scanner.ofText source).items n = (tokenize source).take n) ∧
    ∃ cuts left faults, tokenize source = cuts.map (fun c => .ok c.token) ++ faults ∧
      source.toList = Cut.texts cuts ++ left ∧ Cut.InPlace source [] cuts left ∧
      (cuts.map Cut.token).Pairwise Cut.Before ∧ Cut.Ends [] cuts left faults := by
  obtain ⟨cuts, left, faults, items, rest, inPlace, ends⟩ :=
    (Cursor.ofText source).cuts_upTo source (source.toList.length + 1) []
      (Nat.lt_succ_self _) rfl rfl
  refine ⟨Scanner.items_ofText source, cuts, left, faults, ?_, rest, inPlace,
    inPlace.pairwise, ends⟩
  rw [tokenize_eq_upTo, items]

end GraalScript
