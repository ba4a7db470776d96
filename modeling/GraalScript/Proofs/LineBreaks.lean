import GraalScript.Proofs.ErrorLines
import GraalScript.Proofs.LongestMatch
import Mathlib.Data.List.Find

/-! Cutting a text line by line. A line feed ends every token and every line comment, so what is cut
in front of it does not depend on what follows; and what is cut behind it depends on what stands
before only in its place. -/
namespace GraalScript

/-- The place as it is behind more text: so many bytes and lines later, in the same column. -/
def Pos.shift (bytes lines : Nat) (p : Pos) : Pos := ⟨p.byte + bytes, p.line + lines, p.column⟩

def Span.shift (bytes lines : Nat) (s : Span) : Span :=
  ⟨s.start.shift bytes lines, s.stop.shift bytes lines⟩

def Token.shift (bytes lines : Nat) (t : Token) : Token :=
  { t with span := t.span.shift bytes lines }

def LexError.shift (lines : Nat) (e : LexError) : LexError := { e with line := e.line + lines }

def shiftItem (bytes lines : Nat) : Except LexError Token → Except LexError Token
  | .ok t => .ok (t.shift bytes lines)
  | .error e => .error (e.shift lines)

namespace Pos

variable (bytes lines : Nat) (p : Pos)

theorem next_shift (c : Char) : (p.shift bytes lines).next c = (p.next c).shift bytes lines := by
  unfold next shift
  split <;> simp only [mk.injEq, and_true] <;> omega

theorem advance_shift (cs : List Char) :
    (p.shift bytes lines).advance cs = (p.advance cs).shift bytes lines := by
  induction cs generalizing p with
  | nil => rfl
  | cons c cs ih => rw [advance_cons, advance_cons, next_shift, ih]

theorem advance_line (cs : List Char) : origin.advance (cs ++ ['\n']) =
    origin.shift ((String.ofList cs).utf8ByteSize + 1) (1 + cs.count '\n') := by
  have byte := byte_advance origin cs
  have line := line_advance origin cs
  rw [advance_concat, next, if_pos rfl, byte, line, shift]
  simp only [origin, mk.injEq, and_true]
  exact ⟨by rw [Nat.zero_add, Nat.zero_add]; rfl, by omega⟩

end Pos

namespace Cursor

variable (bytes lines : Nat)

def shift (cur : Cursor) : Cursor := ⟨cur.rest, cur.pos.shift bytes lines⟩

theorem next_shift (cur : Cursor) :
    (cur.shift bytes lines).next =
      (shiftItem bytes lines cur.next.1, cur.next.2.shift bytes lines) := by
  fun_induction next cur with
  | case1 pos =>
    rw [shift, next]
    rfl
  | case2 c cs pos lexeme after piece ih =>
    rw [← ih, shift, next]
    simp only [lexeme] at piece
    simp only [piece, skip, Pos.advance_shift]
    rfl
  | case3 c cs pos lexeme after kind piece =>
    rw [shift, next]
    simp only [lexeme] at piece
    simp only [piece, skip, Pos.advance_shift]
    rfl
  | case4 c cs pos lexeme after cause piece =>
    rw [shift, next]
    simp only [lexeme] at piece
    simp only [piece, skip, Pos.advance_shift]
    rfl

theorem upTo_shift (n : Nat) (cur : Cursor) :
    (cur.shift bytes lines).upTo n = (cur.upTo n).map (shiftItem bytes lines) := by
  induction n generalizing cur with
  | zero => rfl
  | succ n ih =>
    rw [upTo, upTo, next_shift]
    rcases cur.next with ⟨e | t, after⟩
    · rfl
    · simp only [shiftItem, Token.shift]
      split
      · rfl
      · rw [ih]
        rfl

end Cursor

namespace Lexer

variable {c : Char} {cs : List Char}

theorem run_append_stop {p : Char → Bool} {d : Char} (stop : p d = false) (cs rest : List Char) :
    run p (cs ++ d :: rest) = run p cs := by
  induction cs with
  | nil => simp [run, stop]
  | cons c cs ih =>
    unfold run at ih ⊢
    rw [List.cons_append, List.takeWhile_cons, List.takeWhile_cons]
    split
    · exact congrArg (· + 1) ih
    · rfl

theorem stringEnd_append {quote : Char} (quotes : quote = '"' ∨ quote = '\'') {n m : Nat}
    (closed : stringEnd quote n cs = (true, m)) (more : List Char) :
    stringEnd quote n (cs ++ more) = (true, m) := by
  have slash : quote ≠ '\\' := by rcases quotes with rfl | rfl <;> decide
  have feed : quote ≠ '\n' := by rcases quotes with rfl | rfl <;> decide
  obtain ⟨inner, rest, rfl, quoted, rfl⟩ := quoted_of_stringEnd closed
  rw [List.append_assoc, List.cons_append, stringEnd_quoted slash feed quoted]

theorem commentEnd_append {n m : Nat} (closed : commentEnd n cs = (true, m)) (more : List Char) :
    commentEnd n (cs ++ more) = (true, m) := by
  fun_induction commentEnd n cs with
  | case1 => cases closed
  | case2 => cases closed
  | case3 n c d cs ends =>
    rw [List.cons_append, List.cons_append, commentEnd, if_pos ends]
    exact closed
  | case4 n c d cs goesOn ih =>
    rw [List.cons_append, List.cons_append, commentEnd, if_neg goesOn]
    exact ih closed

theorem isPrefixOf_append_feed {front : List Char} (feed : '\n' ∉ front) (cs rest : List Char) :
    front.isPrefixOf (cs ++ '\n' :: rest) = front.isPrefixOf cs := by
  induction front generalizing cs with
  | nil => simp
  | cons d front ih =>
    rw [List.mem_cons, not_or] at feed
    cases cs with
    | nil =>
      have other : (d == '\n') = false := beq_false_of_ne (Ne.symm feed.1)
      rw [List.nil_append, List.isPrefixOf_cons_cons, other]
      rfl
    | cons c cs =>
      rw [List.cons_append, List.isPrefixOf_cons_cons, List.isPrefixOf_cons_cons, ih feed.2]

/-! What is scanned lies inside the text. -/

theorem run_le (p : Char → Bool) (cs : List Char) : run p cs ≤ cs.length :=
  (List.takeWhile_prefix p).length_le

theorem stringEnd_le (quote : Char) (n : Nat) (cs : List Char) :
    (stringEnd quote n cs).2 ≤ n + cs.length := by
  fun_induction stringEnd quote n cs <;> grind

theorem commentEnd_le (n : Nat) (cs : List Char) : (commentEnd n cs).2 ≤ n + cs.length := by
  fun_induction commentEnd n cs <;> grind

theorem scanHex_length_le (cs : List Char) : (scanHex cs).length ≤ cs.length + 2 := by
  have := run_le isHexDigit cs
  unfold scanHex
  split <;> dsimp only <;> omega

theorem scanDecimal_length_le (cs : List Char) : (scanDecimal cs).length ≤ cs.length := by
  have whole := run_le Char.isDigit cs
  unfold scanDecimal
  dsimp only
  split
  next d part behind =>
    have size := congrArg List.length behind
    have fraction := run_le Char.isDigit part
    rw [List.length_drop, List.length_cons, List.length_cons] at size
    split <;> dsimp only <;> omega
  next => exact whole

theorem scanNumber_length_le (c : Char) (cs : List Char) :
    (scanNumber c cs).length ≤ (c :: cs).length := by
  unfold scanNumber
  split
  · exact scanHex_length_le _
  · exact scanHex_length_le _
  · exact scanDecimal_length_le _

theorem scanSymbol_length_le (c : Char) (cs : List Char) :
    (scanSymbol c cs).length ≤ (c :: cs).length := by
  unfold scanSymbol
  split
  next kind found =>
    have front : kind.text.toList.isPrefixOf (c :: cs) = true :=
      List.find?_some (p := fun k : TokenKind => k.text.toList.isPrefixOf (c :: cs)) found
    rw [← String.length_toList]
    exact (List.isPrefixOf_iff_prefix.mp front).length_le
  next => exact Nat.le_add_left _ _

theorem scan_length_le (c : Char) (cs : List Char) : (scan c cs).length ≤ (c :: cs).length := by
  rcases scan_cases c cs with ⟨-, same⟩ | ⟨-, same⟩ | ⟨-, same⟩ | ⟨-, same⟩ | ⟨-, -, same⟩ |
    ⟨rest, whole, same⟩ |
    same <;> rw [same]
  · have := run_le isSpace cs
    simp only [List.length_cons]
    omega
  · have := stringEnd_le c 1 cs
    unfold scanString
    split <;> simp_all <;> omega
  · exact scanNumber_length_le c cs
  · exact run_le _ _
  · exact run_le _ _
  · have := commentEnd_le 2 rest
    rw [whole]
    unfold scanBlockComment
    split <;> simp_all <;> omega
  · exact scanSymbol_length_le c cs

/-! What is scanned in front of a line feed. -/

section feed

variable (rest : List Char)

theorem scanHex_feed (cs : List Char) : scanHex (cs ++ '\n' :: rest) = scanHex cs := by
  rw [scanHex, scanHex, run_append_stop rfl]

theorem scanDecimal_feed (cs : List Char) : scanDecimal (cs ++ '\n' :: rest) = scanDecimal cs := by
  unfold scanDecimal
  dsimp only
  rw [run_append_stop rfl, List.drop_append_of_le_length (run_le _ cs)]
  rcases cs.drop (run Char.isDigit cs) with _ | ⟨point, _ | ⟨d, part⟩⟩
  · simp
  · by_cases isPoint : point = '.'
    · subst isPoint
      simp
    · simp [isPoint]
  · by_cases isPoint : point = '.'
    · subst isPoint
      simp only [List.cons_append, run_append_stop (p := Char.isDigit) (d := '\n') rfl]
    · simp [isPoint]

theorem scanNumber_feed (c : Char) (cs : List Char) :
    scanNumber c (cs ++ '\n' :: rest) = scanNumber c cs := by
  cases cs with
  | nil =>
    rw [List.nil_append, scanNumber_decimal c (by decide) (by decide)]
    exact (scanDecimal_feed rest [c]).trans
      (by unfold scanNumber; split <;> first | rfl | contradiction)
  | cons d cs =>
    by_cases marked : c = '0' ∧ (d = 'x' ∨ d = 'X')
    · obtain ⟨rfl, marked⟩ := marked
      rw [List.cons_append, scanNumber_hex marked, scanNumber_hex marked, scanHex_feed]
    · have decimal (ds : List Char) : scanNumber c (d :: ds) = scanDecimal (c :: d :: ds) := by
        unfold scanNumber
        split
        next same => exact absurd ⟨rfl, .inl (List.cons.inj same).1⟩ marked
        next same => exact absurd ⟨rfl, .inr (List.cons.inj same).1⟩ marked
        next => rfl
      rw [List.cons_append, decimal, decimal]
      exact scanDecimal_feed rest (c :: d :: cs)

theorem scanWord_feed (cs : List Char) : scanWord (cs ++ '\n' :: rest) = scanWord cs := by
  rw [scanWord, scanWord, run_append_stop rfl, List.take_append_of_le_length (run_le _ cs)]

theorem scanLineComment_feed (cs : List Char) :
    scanLineComment (cs ++ '\n' :: rest) = scanLineComment cs := by
  rw [scanLineComment, scanLineComment, run_append_stop rfl,
    List.take_append_of_le_length (run_le _ cs)]

theorem scanSymbol_feed (c : Char) (cs : List Char) :
    scanSymbol c (cs ++ '\n' :: rest) = scanSymbol c cs := by
  have same : symbol? (c :: (cs ++ '\n' :: rest)) = symbol? (c :: cs) := by
    refine List.find?_congr fun k known => ?_
    exact isPrefixOf_append_feed (feed_notMem_symbol known) (c :: cs) rest
  rw [scanSymbol, scanSymbol, same]

theorem scan_other (solid : isSpace c = false) (quotes : ¬(c = '"' ∨ c = '\''))
    (digit : ¬c.isDigit = true) (start : ¬isWordStart c = true)
    (comment : c = '/' → ∀ d ∈ cs.head?, d ≠ '/' ∧ d ≠ '*') : scan c cs = scanSymbol c cs := by
  unfold scan
  rw [if_neg (by simp [solid]), if_neg quotes, if_neg digit, if_neg start]
  split
  · exact absurd rfl (comment rfl _ rfl).1
  · exact absurd rfl (comment rfl _ rfl).2
  · rfl

/-- What is scanned in front of a line feed does not depend on what follows, white space and what is
not closed apart. -/
theorem scan_feed (solid : isSpace c = false) (whole : ∀ cause, (scan c cs).piece ≠ .fault cause) :
    scan c (cs ++ '\n' :: rest) = scan c cs := by
  by_cases quotes : c = '"' ∨ c = '\''
  · rw [scan_quote quotes, scanString] at whole
    rw [scan_quote quotes, scan_quote quotes, scanString, scanString]
    rcases ends : stringEnd c 1 cs with ⟨_ | _, n⟩
    · rw [ends] at whole
      exact absurd rfl (whole _)
    · rw [stringEnd_append quotes ends]
  by_cases digit : c.isDigit = true
  · rw [scan_digit digit, scan_digit digit, scanNumber_feed]
  by_cases start : isWordStart c = true
  · rw [scan_wordStart start, scan_wordStart start]
    exact scanWord_feed rest (c :: cs)
  by_cases comment : ∃ d ds, c = '/' ∧ cs = d :: ds ∧ (d = '/' ∨ d = '*')
  · obtain ⟨d, ds, rfl, rfl, rfl | rfl⟩ := comment
    · exact scanLineComment_feed rest ('/' :: '/' :: ds)
    · change ∀ cause, (scanBlockComment ds).piece ≠ .fault cause at whole
      change scanBlockComment (ds ++ '\n' :: rest) = scanBlockComment ds
      rw [scanBlockComment] at whole
      rw [scanBlockComment, scanBlockComment]
      rcases ends : commentEnd 2 ds with ⟨_ | _, n⟩
      · rw [ends] at whole
        exact absurd rfl (whole _)
      · rw [commentEnd_append ends]
  · have plain : c = '/' → ∀ d ∈ cs.head?, d ≠ '/' ∧ d ≠ '*' := by
      intro slash d first
      obtain ⟨ds, rfl⟩ := List.head?_eq_some_iff.mp first
      exact not_or.mp fun mark => comment ⟨d, ds, slash, rfl, mark⟩
    have behind : c = '/' → ∀ d ∈ (cs ++ '\n' :: rest).head?, d ≠ '/' ∧ d ≠ '*' := by
      intro slash d first
      cases cs with
      | nil =>
        obtain rfl := Option.some.inj first
        decide
      | cons e es => exact plain slash d first
    rw [scan_other solid quotes digit start plain, scan_other solid quotes digit start behind,
      scanSymbol_feed]

end feed

end Lexer

namespace Cursor

open Lexer

/-- The cursor with one more line behind its text. -/
def before (cur : Cursor) (rest : List Char) : Cursor := ⟨cur.rest ++ '\n' :: rest, cur.pos⟩

variable {cur after : Cursor} {t : Token}

/-- A gap is walked over alike, whether or not a line follows. White space may go on behind the line
feed, so it is walked over character by character. -/
theorem next_before_gap {c : Char} {cs : List Char} (gap : (scan c cs).piece = .gap) (pos : Pos)
    (rest : List Char) :
    (before ⟨c :: cs, pos⟩ rest).next =
      (before (skip ⟨c :: cs, pos⟩ (scan c cs).length) rest).next := by
  by_cases blank : isSpace c = true
  · have spaces : ∀ d ∈ (c :: cs).take (1 + run isSpace cs), isSpace d = true := by
      rw [Nat.add_comm, List.take_succ_cons, take_run, List.forall_mem_cons]
      exact ⟨blank, List.all_eq_true.mp List.all_takeWhile⟩
    have whole : c :: cs ++ '\n' :: rest = (c :: cs).take (1 + run isSpace cs) ++
        ((c :: cs).drop (1 + run isSpace cs) ++ '\n' :: rest) := by
      rw [← List.append_assoc, List.take_append_drop]
    rw [scan_space blank, before, whole, next_spaces spaces]
    rfl
  · have same : scan c (cs ++ '\n' :: rest) = scan c cs :=
      scan_feed rest (Bool.eq_false_iff.mpr blank) (by simp [gap])
    have size := scan_length_le c cs
    rw [before, List.cons_append, next, same, gap]
    dsimp only [skip, before]
    rw [← List.cons_append, List.drop_append_of_le_length size, List.take_append_of_le_length size]

theorem next_before_token (h : cur.next = (.ok t, after)) (more : t.kind ≠ .eos)
    (rest : List Char) : (cur.before rest).next = (.ok t, after.before rest) := by
  fun_induction next cur with
  | case1 =>
    cases h
    exact absurd rfl more
  | case2 c cs pos lexeme behind gap ih =>
    rw [next_before_gap gap]
    exact ih h
  | case3 c cs pos lexeme behind kind piece =>
    rw [Prod.mk.injEq, Except.ok.injEq] at h
    obtain ⟨rfl, rfl⟩ := h
    have solid : isSpace c = false := by
      by_contra blank
      have gap := scan_space (eq_true_of_ne_false blank) cs
      cases piece.symm.trans (congrArg Lexeme.piece gap)
    have same : scan c (cs ++ '\n' :: rest) = scan c cs :=
      scan_feed rest solid (by rw [piece]; simp)
    have size := scan_length_le c cs
    rw [before, List.cons_append, next, same, piece]
    dsimp only [skip, before, behind, lexeme]
    rw [← List.cons_append, List.drop_append_of_le_length size, List.take_append_of_le_length size]
  | case4 => cases h

theorem next_before_eos (h : cur.next = (.ok t, after)) (eos : t.kind = .eos) (rest : List Char) :
    (cur.before rest).next = next ⟨rest, cur.pos.advance (cur.rest ++ ['\n'])⟩ := by
  fun_induction next cur with
  | case1 pos => exact next_space rfl rest pos
  | case2 c cs pos lexeme behind gap ih =>
    have place : behind.pos.advance (behind.rest ++ ['\n']) = pos.advance (c :: cs ++ ['\n']) := by
      dsimp only [behind, skip]
      rw [← Pos.advance_append, ← List.append_assoc, List.take_append_drop]
    rw [next_before_gap gap, ih h, place]
  | case3 c cs pos lexeme behind kind piece =>
    rw [Prod.mk.injEq, Except.ok.injEq] at h
    obtain ⟨rfl, -⟩ := h
    exact absurd eos (token_scan piece).1
  | case4 => cases h

theorem upTo_before {n m : Nat} (cur : Cursor) (rest : List Char) (enough : cur.rest.length < n)
    (room : cur.rest.length + rest.length + 1 < m) (clean : ∀ e, .error e ∉ cur.upTo n) :
    ∃ (tokens : List Token) (last : Token), cur.upTo n = tokens.map Except.ok ++ [Except.ok last] ∧
      last.kind = .eos ∧ (∀ t ∈ tokens, t.kind ≠ .eos) ∧ (cur.before rest).upTo m =
        tokens.map Except.ok ++
          upTo (rest.length + 1) ⟨rest, cur.pos.advance (cur.rest ++ ['\n'])⟩ := by
  induction n generalizing cur m with
  | zero => exact absurd enough (Nat.not_lt_zero _)
  | succ n ih =>
    obtain ⟨m, rfl⟩ := Nat.exists_eq_succ_of_ne_zero (Nat.ne_zero_of_lt room)
    rcases found : cur.next with ⟨e | t, after⟩
    · exact absurd (by simp [upTo, found]) (clean e)
    by_cases eos : t.kind = .eos
    · refine ⟨[], t, by simp [upTo, found, eos], eos, List.forall_mem_nil _, ?_⟩
      have behind : (cur.before rest).upTo (m + 1) =
          upTo (m + 1) ⟨rest, cur.pos.advance (cur.rest ++ ['\n'])⟩ := by
        rw [upTo, upTo, next_before_eos found eos]
      rw [behind]
      exact upTo_eq (by dsimp only; omega) (Nat.lt_succ_self _)
    · have shorter := next_rest_lt found eos
      have cut : cur.upTo (n + 1) = .ok t :: after.upTo n := by simp [upTo, found, eos]
      rw [cut] at clean
      obtain ⟨tokens, last, items, isEos, others, line⟩ := ih (m := m) after (by omega) (by omega)
        fun e inside => clean e (List.mem_cons_of_mem _ inside)
      obtain ⟨gap, step⟩ := steps_of_next found
      have place : after.pos.advance (after.rest ++ ['\n']) =
          cur.pos.advance (cur.rest ++ ['\n']) := by
        rw [step.pos, step.stop, step.start, step.rest]
        simp only [Pos.advance_append]
      refine ⟨t :: tokens, last,
        by rw [cut, items]; rfl, isEos, List.forall_mem_cons.mpr ⟨eos, others⟩, ?_⟩
      rw [upTo, next_before_token found eos]
      simp only [if_neg eos, line, place]
      rfl

end Cursor

/-- A text that is cut without a fault, a line feed and another text are cut into the tokens of the
first, without the end of the source, and the items of the second, moved by the bytes and the lines
of the first. -/
theorem tokenize_append_line {a : String} (clean : ∀ e, .error e ∉ tokenize a) (b : String) :
    ∃ (tokens : List Token) (last : Token), tokenize a = tokens.map .ok ++ [.ok last] ∧
      last.kind = .eos ∧
      (∀ t ∈ tokens, t.kind ≠ .eos) ∧ tokenize (a ++ "\n" ++ b) = tokens.map .ok ++
        (tokenize b).map (shiftItem (a.utf8ByteSize + 1) (Source.ofText a).lineCount) := by
  rw [tokenize_eq_upTo] at clean ⊢
  have text : (a ++ "\n" ++ b).toList = a.toList ++ '\n' :: b.toList := by simp
  have start : Cursor.ofText (a ++ "\n" ++ b) = (Cursor.ofText a).before b.toList := by
    rw [Cursor.ofText, text]
    rfl
  have room : a.toList.length + b.toList.length + 1 < (a ++ "\n" ++ b).toList.length + 1 := by
    rw [text, List.length_append, List.length_cons]
    omega
  obtain ⟨tokens, last, items, eos, others, behind⟩ :=
    (Cursor.ofText a).upTo_before b.toList (Nat.lt_succ_self _) room clean
  have place : (Cursor.mk b.toList (Pos.origin.advance (a.toList ++ ['\n']))) =
      (Cursor.ofText b).shift (a.utf8ByteSize + 1) (Source.ofText a).lineCount := by
    rw [Pos.advance_line, String.ofList_toList, Source.lineCount_ofText]
    rfl
  refine ⟨tokens, last, items, eos, others, ?_⟩
  rw [tokenize_eq_upTo, tokenize_eq_upTo, start, behind]
  congr 1
  exact (congrArg _ place).trans (Cursor.upTo_shift _ _ _ _)

/-- A point, a comment and a directive at the ends of lines, and a fault behind them. -/
theorem tokenize_append_line_point : (∀ e, .error e ∉ tokenize "1.//é\n//#CLIENTSIDE ") ∧
    tokenize ("1.//é\n//#CLIENTSIDE " ++ "\n" ++ "\n y\"") =
      [.ok ⟨.int, "1", ⟨⟨0, 1, 0⟩, ⟨1, 1, 1⟩⟩⟩, .ok ⟨.dot, ".", ⟨⟨1, 1, 1⟩, ⟨2, 1, 2⟩⟩⟩,
        .ok ⟨.directive, "//#CLIENTSIDE ", ⟨⟨7, 2, 0⟩, ⟨21, 2, 14⟩⟩⟩,
        .ok ⟨.ident, "y", ⟨⟨24, 4, 1⟩, ⟨25, 4, 2⟩⟩⟩, .error ⟨.unterminatedString, 4⟩] := by
  have first : tokenize "1.//é\n//#CLIENTSIDE " =
      [.ok ⟨.int, "1", ⟨⟨0, 1, 0⟩, ⟨1, 1, 1⟩⟩⟩, .ok ⟨.dot, ".", ⟨⟨1, 1, 1⟩, ⟨2, 1, 2⟩⟩⟩,
        .ok ⟨.directive, "//#CLIENTSIDE ", ⟨⟨7, 2, 0⟩, ⟨21, 2, 14⟩⟩⟩,
        .ok ⟨.eos, "", ⟨⟨21, 2, 14⟩, ⟨21, 2, 14⟩⟩⟩] := by
    decide +kernel
  have second : tokenize "\n y\"" =
      [.ok ⟨.ident, "y", ⟨⟨2, 2, 1⟩, ⟨3, 2, 2⟩⟩⟩, .error ⟨.unterminatedString, 2⟩] := by
    decide +kernel
  have clean : ∀ e, .error e ∉ tokenize "1.//é\n//#CLIENTSIDE " := by
    rw [first]
    simp
  have bytes : "1.//é\n//#CLIENTSIDE ".utf8ByteSize = 21 := by decide
  have lines : (Source.ofText "1.//é\n//#CLIENTSIDE ").lineCount = 2 := by
    rw [Source.lineCount_ofText]
    decide
  obtain ⟨tokens, last, items, -, -, joined⟩ := tokenize_append_line clean "\n y\""
  have front := congrArg List.dropLast (first.symm.trans items)
  rw [List.dropLast_concat] at front
  refine ⟨clean, ?_⟩
  rw [joined, second, ← front, bytes, lines]
  rfl

end GraalScript
