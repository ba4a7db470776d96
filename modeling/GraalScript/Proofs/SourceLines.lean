import GraalScript.Text.Source

/-! The lines of a source text. They are the pieces between its line feeds, each without a carriage
return at its end. So the text is what the lines and their ends make together, unless it ends with a
carriage return: no line feed stands behind that one, and the last line loses it all the same. -/
namespace GraalScript.Source

/-- The pieces of a text between its line feeds. -/
def pieces (text : String) : List (List Char) := text.toList.splitOn '\n'

/-- Characters without a carriage return at their end. -/
def cutReturn (cs : List Char) : List Char := if cs.getLast? = some '\r' then cs.dropLast else cs

/-- How the line of a piece ends in front of another one. -/
def ending (piece : List Char) : List Char :=
  if piece.getLast? = some '\r' then ['\r', '\n'] else ['\n']

/-- How the lines of pieces end, of which the last one is not ended. -/
def endings (pieces : List (List Char)) : List (List Char) := pieces.dropLast.map ending ++ [[]]

theorem cutReturn_concat (cs : List Char) : cutReturn (cs ++ ['\r']) = cs := by
  rw [cutReturn, if_pos (by simp), List.dropLast_concat]

theorem cutReturn_of_ne {cs : List Char} (h : cs.getLast? ≠ some '\r') : cutReturn cs = cs :=
  if_neg h

theorem cutReturn_eq_self_iff {cs : List Char} : cutReturn cs = cs ↔ cs.getLast? ≠ some '\r' := by
  refine ⟨fun same last => ?_, cutReturn_of_ne⟩
  obtain ⟨front, rfl⟩ := List.getLast?_eq_some_iff.mp last
  rw [cutReturn_concat] at same
  simpa using congrArg List.length same

theorem cutReturn_append_ending (piece : List Char) :
    cutReturn piece ++ ending piece = piece ++ ['\n'] := by
  by_cases last : piece.getLast? = some '\r'
  · obtain ⟨front, rfl⟩ := List.getLast?_eq_some_iff.mp last
    rw [cutReturn_concat, ending, if_pos last, List.append_assoc]
    rfl
  · rw [cutReturn_of_ne last, ending, if_neg last]

theorem cutReturn_behind_feed (front cs : List Char) :
    cutReturn (front ++ ['\n'] ++ cs) = front ++ ['\n'] ++ cutReturn cs := by
  by_cases last : cs.getLast? = some '\r'
  · obtain ⟨rest, rfl⟩ := List.getLast?_eq_some_iff.mp last
    rw [cutReturn_concat, ← List.append_assoc, cutReturn_concat]
  · rw [cutReturn_of_ne last, cutReturn_of_ne]
    rw [List.getLast?_append, List.getLast?_concat]
    cases back : cs.getLast? with
    | none => decide
    | some c =>
      rw [back] at last
      exact last

/-- The lines of pieces, with their ends, are the pieces joined by line feeds, up to a last carriage
return. -/
theorem flatten_lines {ps : List (List Char)} (some : ps ≠ []) :
    (List.zipWith (fun piece last => cutReturn piece ++ last) ps (endings ps)).flatten =
      cutReturn (['\n'].intercalate ps) := by
  induction ps with
  | nil => exact absurd rfl some
  | cons p ps ih =>
    cases ps with
    | nil => simp [endings, List.intercalate_singleton]
    | cons q ps =>
      have rest := ih (List.cons_ne_nil q ps)
      rw [List.intercalate_cons_cons, cutReturn_behind_feed, ← rest, endings,
        List.dropLast_cons_cons, List.map_cons, List.cons_append, List.zipWith_cons_cons,
        List.flatten_cons, cutReturn_append_ending]
      rfl

theorem lineOf_eq (reversed : List Char) :
    lineOf reversed = String.ofList (cutReturn reversed.reverse) := by
  unfold lineOf
  split
  next rest => rw [List.reverse_cons, cutReturn_concat]
  next other =>
    rw [cutReturn_of_ne]
    rw [List.getLast?_reverse]
    intro first
    cases reversed with
    | nil => cases first
    | cons c rest =>
      cases Option.some.inj first
      exact other rest rfl

theorem toList_linesOnto (done : Array String) (current cs : List Char) :
    (linesOnto done current cs).toList = done.toList ++
      ((cs.splitOn '\n').modifyHead (current.reverse ++ ·)).map fun piece =>
        String.ofList (cutReturn piece) := by
  fun_induction linesOnto done current cs with
  | case1 done current => simp [lineOf_eq]
  | case2 done current cs ih =>
    have whole : (cs.splitOn '\n').modifyHead ([].reverse ++ ·) = cs.splitOn '\n' :=
      congrFun List.modifyHead_id _
    rw [ih, whole, List.splitOn_cons_eq_if_modifyHead, if_pos (beq_self_eq_true '\n')]
    simp [lineOf_eq]
  | case3 done current c cs other ih =>
    have here : (c == '\n') = false := by simpa using other
    rw [ih, List.splitOn_cons_eq_if_modifyHead, here, List.reverse_cons]
    simp [Function.comp_def]

theorem lines_ofText (text : String) :
    (ofText text).lines.toList = (pieces text).map fun piece =>
      String.ofList (cutReturn piece) := by
  have whole : (pieces text).modifyHead ([].reverse ++ ·) = pieces text :=
    congrFun List.modifyHead_id _
  rw [ofText, toList_linesOnto, ← pieces, whole]
  rfl

theorem length_pieces (text : String) : (pieces text).length = (ofText text).lineCount := by
  rw [lineCount, ← Array.length_toList, lines_ofText, List.length_map]

theorem size_linesOnto (done : Array String) (current cs : List Char) :
    (linesOnto done current cs).size = done.size + 1 + cs.count '\n' := by
  fun_induction linesOnto done current cs with
  | case1 => simp
  | case2 done current cs ih =>
    rw [ih, Array.size_push, List.count_cons_self]
    omega
  | case3 done current c cs other ih => rw [ih, List.count_cons_of_ne other]

theorem lineCount_ofText (text : String) :
    (ofText text).lineCount = 1 + text.toList.count '\n' := by
  rw [lineCount, ofText, size_linesOnto]
  simp

theorem line_eq_empty {s : Source} {n : Nat} (h : n = 0 ∨ s.lineCount < n) : s.line n = "" := by
  cases n with
  | zero => rfl
  | succ n =>
    have outside : s.lines.size ≤ n := by
      rw [lineCount] at h
      omega
    rw [line, Array.getElem?_eq_none outside, Option.getD_none]

theorem map_line (s : Source) :
    (List.range s.lineCount).map (fun n => s.line (n + 1)) = s.lines.toList := by
  refine List.ext_getElem (by simp [lineCount]) fun n before _ => ?_
  have inside : n < s.lines.size := by simpa [lineCount] using before
  simp [line, inside]

theorem line_ofText {text : String} {n : Nat} {piece : List Char}
    (h : (pieces text)[n]? = some piece) :
    (ofText text).line (n + 1) = String.ofList (cutReturn piece) := by
  rw [line, ← Array.getElem?_toList, lines_ofText, List.getElem?_map, h]
  rfl

/-- A text has a line for each piece between its line feeds, which is the piece without a carriage
return at its end. So the line of a piece is as its end tells, a carriage return being part of it
only in front of a line feed, except where the last piece ends with a carriage return; and the lines
with their ends are the text up to that one. -/
theorem lines_of_text (text : String) :
    (ofText text).lineCount = 1 + text.toList.count '\n' ∧
      (pieces text).length = (ofText text).lineCount ∧
    (∀ n piece, (pieces text)[n]? = some piece →
      (ofText text).line (n + 1) = String.ofList (cutReturn piece) ∧
      ((ofText text).line (n + 1) =
          String.ofList (if n + 1 < (ofText text).lineCount then cutReturn piece else piece) ↔
        n + 1 < (ofText text).lineCount ∨ piece.getLast? ≠ some '\r')) ∧
    (List.zipWith (fun line last => line.toList ++ last)
      ((List.range (ofText text).lineCount).map fun n => (ofText text).line (n + 1))
      (endings (pieces text))).flatten = cutReturn text.toList ∧
    ∀ n, n = 0 ∨ (ofText text).lineCount < n → (ofText text).line n = "" := by
  refine ⟨lineCount_ofText text, length_pieces text, fun n piece here => ?_, ?_,
    fun n => line_eq_empty⟩
  · refine ⟨line_ofText here, ?_⟩
    rw [line_ofText here]
    split
    next ended => simp [ended]
    next last => rw [String.ofList_inj, cutReturn_eq_self_iff, or_iff_right last]
  · rw [map_line, lines_ofText, List.zipWith_map_left]
    have some : pieces text ≠ [] := List.splitOn_ne_nil _ _
    simp only [String.toList_ofList]
    rw [flatten_lines some, pieces, List.intercalate_splitOn]

/-- Of two carriage returns in front of a line feed one belongs to the line. -/
theorem lines_of_text_returns : (pieces "a\r\r\nb")[0]? = some ['a', '\r', '\r'] ∧
    1 < (ofText "a\r\r\nb").lineCount ∧
    (ofText "a\r\r\nb").line 1 = String.ofList (cutReturn ['a', '\r', '\r']) ∧
    cutReturn ['a', '\r', '\r'] = ['a', '\r'] := by
  have here : (pieces "a\r\r\nb")[0]? = some ['a', '\r', '\r'] := by decide
  exact ⟨here, by decide, ((lines_of_text _).2.2.1 0 _ here).1, by decide⟩

/-- The last line loses a carriage return that stands in front of no line feed. -/
theorem line_lone_return : (ofText "a\r").lineCount = 1 ∧ (pieces "a\r")[0]? = some ['a', '\r'] ∧
    (ofText "a\r").line 1 = "a" ∧ (ofText "a\r").line 1 ≠ String.ofList ['a', '\r'] := by
  decide

end GraalScript.Source
