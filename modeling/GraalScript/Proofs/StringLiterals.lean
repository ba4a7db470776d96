import GraalScript.Proofs.LongestMatch

/-! String literals. Where a literal ends is decided when the source is cut, and what it stands for
when it is parsed; both read it in the same steps, a plain character or a backslash with the
character behind it. So every text has a literal, whatever stands behind it, and no escape of a
token is cut in two. -/
namespace GraalScript

namespace Text

/-- A character as it stands in a literal that escapes no more than it has to. -/
def guardChar (c : Char) : List Char :=
  if c = '\\' then ['\\', '\\']
  else if c = '"' then ['\\', '"']
  else if c = '\n' then ['\\', 'n']
  else [c]

/-- The literal for a text in double quotes in which backslashes, double quotes and line feeds alone
are escaped. -/
def enquote (text : String) : String :=
  String.ofList ('"' :: text.toList.flatMap guardChar ++ ['"'])

theorem guardChar_cases (c : Char) :
    (guardChar c = [c] ∧ c ≠ '"' ∧ c ≠ '\\' ∧ c ≠ '\n') ∨
      ∃ d, guardChar c = ['\\', d] ∧ unescapeChar d = c ∧ d ≠ '\n' := by
  unfold guardChar
  split
  next h => exact .inr ⟨'\\', rfl, h.symm, by decide⟩
  next slash =>
    split
    next h => exact .inr ⟨'"', rfl, h.symm, by decide⟩
    next quote =>
      split
      next h => exact .inr ⟨'n', rfl, h.symm, by decide⟩
      next feed => exact .inl ⟨rfl, quote, slash, feed⟩

theorem spells_guarded (text : List Char) : Spells '"' (text.flatMap guardChar) text :=
  spells_flatMap guardChar_cases text

theorem exists_spells {quote : Char} {inner : List Char} (quoted : Lexer.Quoted quote inner) :
    ∃ text, Spells quote inner text := by
  induction quoted with
  | nil => exact ⟨[], .nil⟩
  | plain other slash feed _ ih =>
    obtain ⟨text, more⟩ := ih
    exact ⟨_, .plain other slash feed more⟩
  | escape feed _ ih =>
    obtain ⟨text, more⟩ := ih
    exact ⟨_, .escape feed more⟩

/-- What stands between the quotes of a literal spells one text, that of the literal. -/
theorem spells_iff_unescape {quote : Char} (quotes : quote = '"' ∨ quote = '\'') {inner : List Char}
    (quoted : Lexer.Quoted quote inner) {literal : String}
    (whole : literal.toList = quote :: inner ++ [quote]) (text : List Char) :
    Spells quote inner text ↔ text = (unescape literal).toList := by
  constructor
  · intro spells
    exact (spells.unescape_eq quotes whole).symm
  · rintro rfl
    obtain ⟨text, spells⟩ := exists_spells quoted
    rwa [spells.unescape_eq quotes whole]

theorem unescape_enquote (text : String) : unescape (enquote text) = text := by
  have whole : (enquote text).toList = '"' :: text.toList.flatMap guardChar ++ ['"'] := by
    rw [enquote, String.toList_ofList]
  exact String.toList_inj.mp ((spells_guarded text.toList).unescape_eq (.inl rfl) whole)

end Text

theorem Cursor.next_quoted {quote : Char} (quotes : quote = '"' ∨ quote = '\'') {inner : List Char}
    (quoted : Lexer.Quoted quote inner) (rest : List Char) (pos : Pos) :
    next ⟨quote :: inner ++ [quote] ++ rest, pos⟩ =
      (.ok ⟨.str, String.ofList (quote :: inner ++ [quote]),
        ⟨pos, pos.advance (quote :: inner ++ [quote])⟩⟩,
        ⟨rest, pos.advance (quote :: inner ++ [quote])⟩) := by
  have shape : quote :: inner ++ [quote] ++ rest = quote :: (inner ++ quote :: rest) := by simp
  have size : inner.length + 2 = (quote :: inner ++ [quote]).length := by simp
  rw [shape, next, Lexer.scan_quoted quotes quoted, ← shape]
  simp only [skip]
  rw [size, List.take_left, List.drop_left]

theorem tokenize_enquote (text rest : String) : ∃ later, tokenize (Text.enquote text ++ rest) =
    .ok ⟨.str, Text.enquote text, ⟨.origin, Pos.origin.advance (Text.enquote text).toList⟩⟩ ::
      later := by
  have first :=
    Cursor.next_quoted (.inl rfl) (Text.spells_guarded text.toList).quoted rest.toList .origin
  rw [tokenize_eq_upTo, Cursor.ofText, String.toList_append, Text.enquote, String.toList_ofList,
    Cursor.upTo, first]
  exact ⟨_, rfl⟩

/-- A text in quotes is one token and parsed as a literal for the text. The characters between the
quotes of a token spell one text, and that is the one it is parsed as. -/
theorem strings_read_in_step :
    (∀ (text rest : String) (limit : Nat),
      (∃ later, tokenize (Text.enquote text ++ rest) =
        .ok ⟨.str, Text.enquote text, ⟨.origin, Pos.origin.advance (Text.enquote text).toList⟩⟩ ::
          later) ∧
      (Parser.literal.run (Stream.ofText (Text.enquote text ++ rest) limit)).1 =
        .ok (.str text, 1)) ∧
    ∀ {source : String} {t : Token}, .ok t ∈ tokenize source → t.kind = .str →
      ∃ (quote : Char) (inner : List Char), (quote = '"' ∨ quote = '\'') ∧
        t.text.toList = quote :: inner ++ [quote] ∧
        ∀ text, Text.Spells quote inner text ↔ text = (Text.unescape t.text).toList := by
  refine ⟨fun text rest limit => ?_, fun {source t} inside isStr => ?_⟩
  · obtain ⟨later, cut⟩ := tokenize_enquote text rest
    refine ⟨⟨later, cut⟩, ?_⟩
    rw [Stream.ofText, cut]
    change (Except.ok (Literal.str (Text.unescape (Text.enquote text)), 1) : Except ParseError _) =
      _
    rw [Text.unescape_enquote]
  · rw [tokenize_eq_upTo] at inside
    obtain ⟨before, c, cs, -, piece, written, -⟩ :=
      Cursor.scan_of_mem_upTo inside (by rw [isStr]; decide)
    have admits : TokenKind.Admits .str t.text.toList := by
      rw [written, ← isStr]
      exact Lexer.admits_scan piece
    generalize whole : t.text.toList = chars at admits
    cases admits with
    | str quotes quoted =>
      exact ⟨_, _, quotes, rfl, Text.spells_iff_unescape quotes quoted whole⟩
    | symbol known => exact absurd known (by decide)

/-- A backslash in front of the last quote is itself escaped, or escapes a quote that is not the
last. -/
theorem strings_read_in_step_backslashes :
    (Parser.literal.run (Stream.ofText (Text.enquote "é\\\"\n\\" ++ "\"'\\") 0)).1 =
      .ok (.str "é\\\"\n\\", 1) ∧
    ∃ quote inner, (quote = '"' ∨ quote = '\'') ∧ "'\\'\\\\'".toList = quote :: inner ++ [quote] ∧
      ∀ text, Text.Spells quote inner text ↔ text = (Text.unescape "'\\'\\\\'").toList := by
  have third : (tokenize "x=\n '\\'\\\\'\"\"")[2]? =
      some (.ok ⟨.str, "'\\'\\\\'", ⟨⟨4, 2, 1⟩, ⟨10, 2, 7⟩⟩⟩) := by
    decide +kernel
  have inside := List.mem_of_getElem? third
  exact ⟨(strings_read_in_step.1 _ _ _).2, strings_read_in_step.2 inside rfl⟩

end GraalScript
