import GraalScript.Proofs.Token.Render
import GraalScript.Proofs.TokenSpans

/-! The grammar of tokens, and that the lexer cuts by longest match. Each token of a source text is
written as its kind asks, no longer piece of the text from its start is written as any kind asks,
and by itself it is cut as the same token again. -/
namespace GraalScript

open Lexer in
/-- How a token of a kind is written. -/
inductive TokenKind.Admits : TokenKind → List Char → Prop where
  | symbol {kind : TokenKind} (known : kind ∈ TokenKind.symbols) : Admits kind kind.text.toList
  | keyword (word : Keyword) : Admits (.keyword word) word.spelling.toList
  /-- A word that is not reserved. -/
  | name {x : String} (free : IsName x) : Admits .ident x.toList
  | decimal {digits : List Char} (isDigits : IsDigits digits) : Admits .int digits
  | hex {mark : Char} {digits : List Char} (marked : mark = 'x' ∨ mark = 'X') (some : digits ≠ [])
      (isHex : ∀ d ∈ digits, isHexDigit d = true) : Admits .int ('0' :: mark :: digits)
  /-- Digits on both sides of the point. -/
  | float {whole part : List Char} (left : IsDigits whole) (right : IsDigits part) :
      Admits .float (whole ++ '.' :: part)
  | str {quote : Char} {inner : List Char} (quotes : quote = '"' ∨ quote = '\'')
      (quoted : Quoted quote inner) :
      Admits .str (quote :: (inner ++ [quote]))
  /-- Blanks may follow the directive on its line. -/
  | directive {blanks : List Char} (blank : ∀ c ∈ blanks, Text.isBlank c = true ∧ c ≠ '\n') :
      Admits .directive (TokenKind.directive.text.toList ++ blanks)

namespace Lexer

variable {c : Char} {cs ds : List Char} {kind : TokenKind}

theorem scan_wordStart (start : isWordStart c = true) (cs : List Char) :
    scan c cs = scanWord (c :: cs) := by
  have space : isSpace c = false := isSpace_eq_false ⟨rfl, rfl, rfl, rfl⟩ start
  have quote : ¬(c = '"' ∨ c = '\'') := not_or.mpr ⟨ne_of_class start rfl, ne_of_class start rfl⟩
  unfold scan
  rw [if_neg (by simp [space]), if_neg quote,
    if_neg (by simp [isDigit_eq_false_of_isWordStart start]), if_pos start]

theorem length_le_run {p : Char → Bool} (all : ∀ c ∈ ds, p c = true) (front : ds <+: cs) :
    ds.length ≤ run p cs := by
  obtain ⟨rest, rfl⟩ := front
  rw [run, List.takeWhile_append_of_pos all, List.length_append]
  exact Nat.le_add_right _ _

theorem run_eq_length {p : Char → Bool} (all : ∀ c ∈ cs, p c = true) : run p cs = cs.length := by
  rw [run, List.takeWhile_eq_self_iff.mpr all]

/-! Strings. -/

theorem quoted_of_stringEnd {quote : Char} {n m : Nat} (h : stringEnd quote n cs = (true, m)) :
    ∃ inner rest, cs = inner ++ quote :: rest ∧ Quoted quote inner ∧ m = n + inner.length + 1 := by
  fun_induction stringEnd quote n cs with
  | case1 => cases h
  | case2 n c =>
    obtain ⟨closed, rfl⟩ := Prod.mk.inj h
    rw [beq_iff_eq.mp closed]
    exact ⟨[], [], rfl, .nil, rfl⟩
  | case3 => cases h
  | case4 => cases h
  | case5 n d cs other feed ih =>
    obtain ⟨inner, rest, rfl, quoted, rfl⟩ := ih h
    exact ⟨'\\' :: d :: inner, rest, rfl, .escape other quoted, by simp; omega⟩
  | case6 n d cs feed slash =>
    obtain ⟨-, rfl⟩ := Prod.mk.inj h
    exact ⟨[], d :: cs, rfl, .nil, rfl⟩
  | case7 n c d cs feed slash other ih =>
    obtain ⟨inner, rest, same, quoted, rfl⟩ := ih h
    exact ⟨c :: inner, rest, by rw [same]; rfl, .plain other slash feed quoted, by simp; omega⟩

theorem admits_scanString (quotes : c = '"' ∨ c = '\'')
    (h : (scanString c cs).piece = .token kind) :
    kind.Admits ((c :: cs).take (scanString c cs).length) := by
  rw [scanString] at h ⊢
  split at h
  next n closed =>
    cases h
    obtain ⟨inner, rest, rfl, quoted, rfl⟩ := quoted_of_stringEnd closed
    have whole : c :: (inner ++ c :: rest) = c :: (inner ++ [c]) ++ rest := by simp
    have size : 1 + inner.length + 1 = (c :: (inner ++ [c])).length := by simp; omega
    rw [whole, size, List.take_left]
    exact .str quotes quoted
  · cases h

/-! Numbers. -/

theorem scanHex_of_run (cs : List Char) (some : run isHexDigit cs ≠ 0) :
    scanHex cs = ⟨.token .int, run isHexDigit cs + 2⟩ := by
  unfold scanHex
  split
  next none => exact absurd none some
  next => rfl

theorem admits_scanHex {mark : Char} (marked : mark = 'x' ∨ mark = 'X')
    (h : (scanHex cs).piece = .token kind) :
    kind.Admits (('0' :: mark :: cs).take (scanHex cs).length) := by
  have some : run isHexDigit cs ≠ 0 := by
    intro none
    rw [scanHex, none] at h
    cases h
  rw [scanHex_of_run cs some] at h ⊢
  cases h
  rw [List.take_succ_cons, List.take_succ_cons, take_run]
  exact .hex marked (fun none => some (congrArg List.length none))
    (List.all_eq_true.mp List.all_takeWhile)

theorem admits_scanNumber (digit : c.isDigit = true) (h : (scanNumber c cs).piece = .token kind) :
    kind.Admits ((c :: cs).take (scanNumber c cs).length) := by
  unfold scanNumber at h ⊢
  split at h
  · exact admits_scanHex (.inl rfl) h
  · exact admits_scanHex (.inr rfl) h
  · rcases written_scanDecimal digit cs with ⟨isInt, digits⟩ |
      ⟨isFloat, whole, part, cut, left, right⟩
    · cases isInt.symm.trans h
      exact .decimal digits
    · cases isFloat.symm.trans h
      rw [cut]
      exact .float left right

theorem run_le_scanDecimal (cs : List Char) : run Char.isDigit cs ≤ (scanDecimal cs).length := by
  unfold scanDecimal
  dsimp only
  split
  · split
    · exact Nat.le_trans (Nat.le_add_right _ 2) (Nat.le_add_right _ _)
    · exact Nat.le_refl _
  · exact Nat.le_refl _

theorem length_le_scanNumber (digits : IsDigits ds) (front : ds <+: c :: cs) :
    ds.length ≤ (scanNumber c cs).length := by
  have marked {mark : Char} (other : mark.isDigit = false) {rest : List Char}
      (front : ds <+: '0' :: mark :: rest) :
      ds.length ≤ (scanHex rest).length := by
    have one : run Char.isDigit ('0' :: mark :: rest) = 1 :=
      run_append (List.forall_mem_singleton.mpr (by decide)) other rest
    calc ds.length ≤ run Char.isDigit ('0' :: mark :: rest) := length_le_run digits.digits front
      _ = 1 := one
      _ ≤ (scanHex rest).length := scanHex_length_pos rest
  unfold scanNumber
  split
  · exact marked rfl front
  · exact marked rfl front
  · exact Nat.le_trans (length_le_run digits.digits front) (run_le_scanDecimal _)

theorem scanNumber_of_digits (digits : IsDigits (c :: cs)) :
    scanNumber c cs = scanDecimal (c :: cs) := by
  cases cs with
  | nil =>
    unfold scanNumber
    split <;> first | rfl | contradiction
  | cons d cs =>
    have digit := digits.digits d (List.mem_cons_of_mem _ List.mem_cons_self)
    exact scanNumber_decimal c (ne_of_class digit rfl) (ne_of_class digit rfl) cs

theorem scanNumber_hex {mark : Char} (marked : mark = 'x' ∨ mark = 'X') (cs : List Char) :
    scanNumber '0' (mark :: cs) = scanHex cs := by
  rcases marked with rfl | rfl <;> rfl

theorem scan_hex {mark : Char} (marked : mark = 'x' ∨ mark = 'X') (some : ds ≠ [])
    (isHex : ∀ d ∈ ds, isHexDigit d = true) (rest : List Char) :
    scan '0' (mark :: (ds ++ rest)) = ⟨.token .int, run isHexDigit (ds ++ rest) + 2⟩ := by
  have digits : ds.length ≤ run isHexDigit (ds ++ rest) :=
    length_le_run isHex (List.prefix_append ds rest)
  have := List.length_pos_iff.mpr some
  rw [scan_digit rfl, scanNumber_hex marked, scanHex_of_run _ (by omega)]

theorem scan_fraction (left : IsDigits (c :: cs)) {d : Char} (digit : d.isDigit = true)
    (rest : List Char) :
    scan c (cs ++ '.' :: d :: rest) = ⟨.token .float, cs.length + 3 + run Char.isDigit rest⟩ := by
  rw [scan_of_digits left (by decide) (by decide), scanDecimal, run_append left.digits rfl,
    List.drop_left]
  simp only [if_pos digit, List.length_cons]

/-! Words. -/

theorem admits_scanWord (start : isWordStart c = true)
    (h : (scanWord (c :: cs)).piece = .token kind) :
    kind.Admits ((c :: cs).take (scanWord (c :: cs)).length) := by
  rcases kind_scanWord h with rfl | ⟨word, rfl⟩
  · have name := TokenKind.Admits.name (isName_scanWord start h)
    rwa [String.toList_ofList] at name
  · unfold scanWord at h ⊢
    dsimp only at h ⊢
    cases found :
      Keyword.ofSpelling? (String.ofList ((c :: cs).take (run isWordRest (c :: cs)))) with
    | none =>
      rw [found] at h
      cases h
    | some word' =>
      rw [found] at h
      cases h
      have spelled := congrArg String.toList (Keyword.ofSpelling?_eq_some_iff.mp found)
      rw [String.toList_ofList] at spelled
      rw [← spelled]
      exact .keyword word

theorem spelling_isWord (word : Keyword) :
    (∃ c ∈ word.spelling.toList.head?, isWordStart c = true) ∧
      ∀ c ∈ word.spelling.toList, isWordRest c = true := by
  refine ⟨?_, List.all_eq_true.mp ?_⟩
  · cases word <;> exact ⟨_, rfl, rfl⟩
  · cases word <;> rfl

theorem length_le_scan_word (start : ∃ c ∈ ds.head?, isWordStart c = true)
    (all : ∀ c ∈ ds, isWordRest c = true) (front : ds <+: c :: cs) :
    ds.length ≤ (scan c cs).length := by
  obtain ⟨d, head, start⟩ := start
  cases ds with
  | nil => cases head
  | cons e ds =>
    obtain rfl := Option.some.inj head
    obtain ⟨rfl, -⟩ := List.cons_prefix_cons.mp front
    rw [scan_wordStart start]
    exact length_le_run all front

theorem scan_word_alone {x : String} (start : ∃ c ∈ x.toList.head?, isWordStart c = true)
    (all : ∀ c ∈ x.toList, isWordRest c = true) :
    ∃ c cs, x.toList = c :: cs ∧
      scan c cs = ⟨.token ((Keyword.ofSpelling? x).elim .ident .keyword), cs.length + 1⟩ := by
  obtain ⟨d, head, start⟩ := start
  cases chars : x.toList with
  | nil =>
    rw [chars] at head
    cases head
  | cons c cs =>
    rw [chars] at head all
    obtain rfl := Option.some.inj head
    refine ⟨_, _, rfl, ?_⟩
    rw [scan_wordStart start, scanWord, run_eq_length all, List.take_length, ← chars,
      String.ofList_toList, chars]
    rfl

/-! Symbols and the directive. -/

theorem pairwise_symbols :
    TokenKind.symbols.Pairwise fun j k => j.text.toList.isPrefixOf k.text.toList = false := by
  decide

/-- The symbol that is found is the longest one. -/
theorem length_le_of_symbol? (h : symbol? cs = some kind) {other : TokenKind}
    (known : other ∈ TokenKind.symbols) (front : other.text.toList <+: cs) :
    other.text.toList.length ≤ kind.text.toList.length := by
  obtain ⟨found, earlier, later, split, none⟩ := List.find?_eq_some_iff_append.mp h
  have front' : kind.text.toList <+: cs := List.isPrefixOf_iff_prefix.mp found
  by_contra longer
  -- the shorter of two prefixes of one text is a prefix of the longer
  have begins : kind.text.toList <+: other.text.toList :=
    List.prefix_of_prefix_length_le front' front (by omega)
  have pairs := pairwise_symbols
  rw [split] at known pairs
  rcases List.mem_append.mp known with before | after
  · have missed := none other before
    simp [List.isPrefixOf_iff_prefix.mpr front] at missed
  · rcases List.mem_cons.mp after with rfl | after
    · exact longer (Nat.le_refl _)
    · have apart := List.rel_of_pairwise_cons (List.pairwise_append.mp pairs).2.1 after
      rw [List.isPrefixOf_iff_prefix.mpr begins] at apart
      cases apart

theorem feed_notMem_symbol (known : kind ∈ TokenKind.symbols) : '\n' ∉ kind.text.toList := by
  have all : ∀ k ∈ TokenKind.symbols, '\n' ∉ k.text.toList := by decide
  exact all kind known

theorem length_le_scanLineComment (feed : '\n' ∉ ds) (front : ds <+: cs) :
    ds.length ≤ (scanLineComment cs).length :=
  length_le_run (fun _ inside => bne_iff_ne.mpr (ne_of_mem_of_not_mem inside feed)) front

theorem scan_of_symbol (known : kind ∈ TokenKind.symbols) (front : kind.text.toList <+: c :: cs) :
    scan c cs = scanLineComment (c :: cs) ∨ (∃ rest, scan c cs = scanBlockComment rest) ∨
      scan c cs = scanSymbol c cs := by
  have classes : ∀ k ∈ TokenKind.symbols, (k.text.toList.head?.any fun c =>
      !(isSpace c || c == '"' || c == '\'' || c.isDigit || isWordStart c)) = true := by decide
  obtain ⟨d, head, other⟩ := (Option.any_eq_true _ _).mp (classes kind known)
  obtain rfl : d = c := by
    obtain ⟨rest, whole⟩ := front
    have first := congrArg List.head? whole
    rw [List.head?_append, head] at first
    exact Option.some.inj first
  simp only [Bool.not_eq_true', Bool.or_eq_false_iff, beq_eq_false_iff_ne] at other
  obtain ⟨⟨⟨⟨space, double⟩, single⟩, digit⟩, word⟩ := other
  rcases scan_cases d cs with ⟨blank, -⟩ | ⟨quote, -⟩ | ⟨number, -⟩ | ⟨start, -⟩ | ⟨-, -, same⟩ |
    ⟨rest, -, same⟩ | same
  · cases space.symm.trans blank
  · exact absurd quote (not_or.mpr ⟨double, single⟩)
  · cases digit.symm.trans number
  · cases word.symm.trans start
  · exact .inl same
  · exact .inr (.inl ⟨rest, same⟩)
  · exact .inr (.inr same)

theorem piece_scanBlockComment (cs : List Char) : (scanBlockComment cs).piece ≠ .token kind := by
  unfold scanBlockComment
  split <;> nofun

theorem length_le_scan_symbol {other : TokenKind} (known : other ∈ TokenKind.symbols)
    (front : other.text.toList <+: c :: cs) (h : (scan c cs).piece = .token kind) :
    other.text.toList.length ≤ (scan c cs).length := by
  rcases scan_of_symbol known front with same | ⟨rest, same⟩ | same <;> rw [same] at h ⊢
  · exact length_le_scanLineComment (feed_notMem_symbol known) front
  · exact absurd h (piece_scanBlockComment rest)
  · unfold scanSymbol at h ⊢
    split at h
    next found =>
      rw [← String.length_toList]
      exact length_le_of_symbol? found known front
    · cases h

theorem scan_symbol_alone (known : kind ∈ TokenKind.symbols) :
    ∃ c cs, kind.text.toList = c :: cs ∧ scan c cs = ⟨.token kind, cs.length + 1⟩ := by
  revert kind
  simp only [TokenKind.symbols, List.forall_mem_cons]
  repeat' apply And.intro
  all_goals first | exact ⟨_, _, rfl, rfl⟩ | exact List.forall_mem_nil _

theorem isDirective_iff {comment : List Char} :
    isDirective comment = true ↔
      ∃ blanks, comment = TokenKind.directive.text.toList ++ blanks ∧
        ∀ c ∈ blanks, Text.isBlank c = true := by
  unfold isDirective
  dsimp only
  rw [Bool.and_eq_true, List.isPrefixOf_iff_prefix, List.all_eq_true]
  constructor
  · rintro ⟨⟨blanks, rfl⟩, all⟩
    rw [List.drop_left] at all
    exact ⟨blanks, rfl, all⟩
  · rintro ⟨blanks, rfl, all⟩
    exact ⟨List.prefix_append _ _, by rwa [List.drop_left]⟩

theorem admits_scanLineComment (h : (scanLineComment cs).piece = .token kind) :
    kind.Admits (cs.take (scanLineComment cs).length) := by
  unfold scanLineComment at h ⊢
  dsimp only at h ⊢
  rw [take_run] at h ⊢
  split at h
  next marked =>
    cases h
    obtain ⟨blanks, same, blank⟩ := isDirective_iff.mp marked
    have feed : '\n' ∉ cs.takeWhile (· != '\n') := mt List.mem_takeWhile_imp Bool.false_ne_true
    rw [same] at feed ⊢
    exact .directive fun c inside =>
      ⟨blank c inside, ne_of_mem_of_not_mem (List.mem_append_right _ inside) feed⟩
  · cases h

theorem feed_notMem_directive {blanks : List Char}
    (blank : ∀ c ∈ blanks, Text.isBlank c = true ∧ c ≠ '\n') :
    '\n' ∉ TokenKind.directive.text.toList ++ blanks := by
  rw [List.mem_append, not_or]
  exact ⟨by decide, fun inside => (blank _ inside).2 rfl⟩

/-! A text that is written as a kind asks, in front of any other text and by itself. -/

theorem admits_scan (h : (scan c cs).piece = .token kind) :
    kind.Admits ((c :: cs).take (scan c cs).length) := by
  rcases scan_cases c cs with ⟨-, same⟩ | ⟨quotes, same⟩ | ⟨digit, same⟩ | ⟨start, same⟩ |
    ⟨-, -, same⟩ |
    ⟨rest, -, same⟩ | same <;> rw [same] at h ⊢
  · cases h
  · exact admits_scanString quotes h
  · exact admits_scanNumber digit h
  · exact admits_scanWord start h
  · exact admits_scanLineComment h
  · exact absurd h (piece_scanBlockComment rest)
  · obtain ⟨known, text⟩ := take_scanSymbol h
    rw [text]
    exact .symbol known

/-- Nothing longer in front is written as any kind asks. -/
theorem length_le_scan (h : (scan c cs).piece = .token kind) {other : TokenKind}
    (admits : other.Admits ds) (front : ds <+: c :: cs) : ds.length ≤ (scan c cs).length := by
  cases admits with
  | symbol known => exact length_le_scan_symbol known front h
  | keyword word =>
    exact length_le_scan_word (spelling_isWord word).1 (spelling_isWord word).2 front
  | name free => exact length_le_scan_word free.start free.rest front
  | decimal isDigits =>
    obtain ⟨d, ds, rfl⟩ := List.exists_cons_of_ne_nil isDigits.nonempty
    obtain ⟨rfl, -⟩ := List.cons_prefix_cons.mp front
    rw [scan_digit (isDigits.digits d List.mem_cons_self)]
    exact length_le_scanNumber isDigits front
  | @hex mark digits marked some isHex =>
    obtain ⟨rfl, rest, rfl⟩ := List.cons_prefix_cons.mp front
    rw [List.cons_append, scan_hex marked some isHex rest]
    exact Nat.add_le_add_right (length_le_run isHex (List.prefix_append digits rest)) 2
  | @float whole part left right =>
    obtain ⟨e, es, rfl⟩ := List.exists_cons_of_ne_nil left.nonempty
    obtain ⟨d, ds, rfl⟩ := List.exists_cons_of_ne_nil right.nonempty
    rw [List.cons_append] at front
    obtain ⟨rfl, rest, rfl⟩ := List.cons_prefix_cons.mp front
    have digits := List.forall_mem_cons.mp right.digits
    have fraction := length_le_run digits.2 (List.prefix_append ds rest)
    have shape : es ++ '.' :: d :: ds ++ rest = es ++ '.' :: d :: (ds ++ rest) := by simp
    rw [shape, scan_fraction left digits.1]
    simp only [List.length_append, List.length_cons]
    omega
  | @str quote inner quotes quoted =>
    obtain ⟨rfl, rest, rfl⟩ := List.cons_prefix_cons.mp front
    rw [List.append_assoc, List.singleton_append, scan_quoted quotes quoted]
    simp
  | directive blank =>
    have comment : scan c cs = scanLineComment (c :: cs) := by
      obtain ⟨rfl, rest, rfl⟩ := List.cons_prefix_cons.mp front
      rfl
    rw [comment]
    exact length_le_scanLineComment (feed_notMem_directive blank) front

theorem scan_of_admits (admits : kind.Admits ds) :
    ∃ c cs, ds = c :: cs ∧ scan c cs = ⟨.token kind, cs.length + 1⟩ := by
  cases admits with
  | symbol known => exact scan_symbol_alone known
  | keyword word =>
    have known : Keyword.ofSpelling? word.spelling = some word :=
      Keyword.ofSpelling?_eq_some_iff.mpr rfl
    have alone := scan_word_alone (spelling_isWord word).1 (spelling_isWord word).2
    rwa [known] at alone
  | name free =>
    have alone := scan_word_alone free.start free.rest
    rwa [free.free] at alone
  | decimal isDigits =>
    obtain ⟨c, cs, rfl⟩ := List.exists_cons_of_ne_nil isDigits.nonempty
    refine ⟨c, cs, rfl, ?_⟩
    rw [scan_digit (isDigits.digits c List.mem_cons_self), scanNumber_of_digits isDigits,
      scanDecimal, run_eq_length isDigits.digits, List.drop_length]
    rfl
  | @hex mark digits marked some isHex =>
    have alone := scan_hex marked some isHex []
    rw [List.append_nil, run_eq_length isHex] at alone
    exact ⟨_, _, rfl, alone⟩
  | @float whole part left right =>
    obtain ⟨c, cs, rfl⟩ := List.exists_cons_of_ne_nil left.nonempty
    obtain ⟨d, ds, rfl⟩ := List.exists_cons_of_ne_nil right.nonempty
    have digits := List.forall_mem_cons.mp right.digits
    refine ⟨c, cs ++ '.' :: d :: ds, rfl, ?_⟩
    rw [scan_fraction left digits.1, run_eq_length digits.2]
    simp only [List.length_append, List.length_cons, Lexeme.mk.injEq, true_and]
    omega
  | @str quote inner quotes quoted => exact ⟨_, _, rfl, by rw [scan_quoted quotes quoted]; simp⟩
  | @directive blanks blank =>
    have whole := feed_notMem_directive blank
    have marked : isDirective (TokenKind.directive.text.toList ++ blanks) = true :=
      isDirective_iff.mpr ⟨blanks, rfl, fun c inside => (blank c inside).1⟩
    refine ⟨'/', "/#CLIENTSIDE".toList ++ blanks, rfl, ?_⟩
    change scanLineComment (TokenKind.directive.text.toList ++ blanks) = _
    rw [scanLineComment,
      run_eq_length fun c inside =>
        bne_iff_ne.mpr (ne_of_mem_of_not_mem inside whole), List.take_length]
    simp only [if_pos marked]
    rfl

end Lexer

namespace Cursor

open Lexer

theorem scan_of_next {cur after : Cursor} {t : Token} (h : cur.next = (.ok t, after))
    (more : t.kind ≠ .eos) :
    ∃ gap c cs, cur.rest = gap ++ c :: cs ∧ (scan c cs).piece = .token t.kind ∧
      t.text.toList = (c :: cs).take (scan c cs).length ∧ t.span.start = cur.pos.advance gap := by
  fun_induction next cur with
  | case1 =>
    cases h
    exact absurd rfl more
  | case2 c cs pos lexeme behind _ ih =>
    obtain ⟨gap, d, ds, rest, piece, text, start⟩ := ih h
    refine ⟨(c :: cs).take lexeme.length ++ gap, d, ds, ?_, piece, text, ?_⟩
    · have whole := List.take_append_drop lexeme.length (c :: cs)
      rw [List.append_assoc, ← rest]
      exact whole.symm
    · rw [start, Pos.advance_append]
      rfl
  | case3 c cs pos lexeme behind kind piece =>
    rw [Prod.mk.injEq, Except.ok.injEq] at h
    obtain ⟨rfl, -⟩ := h
    exact ⟨[], c, cs, rfl, piece, String.toList_ofList, rfl⟩
  | case4 => cases h

theorem scan_of_mem_upTo {n : Nat} {cur : Cursor} {t : Token} (h : .ok t ∈ upTo n cur)
    (more : t.kind ≠ .eos) :
    ∃ before c cs, cur.rest = before ++ c :: cs ∧ (scan c cs).piece = .token t.kind ∧
      t.text.toList = (c :: cs).take (scan c cs).length ∧
        t.span.start = cur.pos.advance before := by
  induction n generalizing cur with
  | zero => cases h
  | succ n ih =>
    unfold upTo at h
    split at h
    · simp at h
    next u after next =>
      have first (same : t = u) := scan_of_next (same ▸ next) more
      split at h
      · exact first (Except.ok.inj (List.mem_singleton.mp h))
      · rcases List.mem_cons.mp h with same | later
        · exact first (Except.ok.inj same)
        · obtain ⟨before, c, cs, rest, piece, text, start⟩ := ih later
          obtain ⟨gap, step⟩ := steps_of_next next
          refine ⟨gap ++ u.text.toList ++ before, c, cs, ?_, piece, text, ?_⟩
          · rw [step.rest, rest]
            simp
          · rw [start, step.pos, step.stop, step.start, Pos.advance_append, Pos.advance_append]

end Cursor

theorem tokenize_of_admits {kind : TokenKind} {text : String} (admits : kind.Admits text.toList) :
    tokenize text = [.ok ⟨kind, text, ⟨.origin, Pos.origin.advance text.toList⟩⟩,
      .ok ⟨.eos, "", ⟨Pos.origin.advance text.toList, Pos.origin.advance text.toList⟩⟩] := by
  obtain ⟨c, cs, chars, scanned⟩ := Lexer.scan_of_admits admits
  have more : kind ≠ .eos := (Lexer.token_scan (congrArg Lexer.Lexeme.piece scanned)).1
  have whole : text.toList.take (cs.length + 1) = text.toList :=
    List.take_of_length_le (by rw [chars]; rfl)
  have none : text.toList.drop (cs.length + 1) = [] := List.drop_of_length_le (by rw [chars]; rfl)
  have next : (Cursor.ofText text).next =
      (.ok ⟨kind, text, ⟨.origin, Pos.origin.advance text.toList⟩⟩,
        ⟨[], Pos.origin.advance text.toList⟩) := by
    rw [Cursor.ofText, chars, Cursor.next, scanned]
    simp only [Cursor.skip]
    rw [← chars, whole, none, String.ofList_toList]
  rw [tokenize_eq_upTo, chars, List.length_cons, Cursor.upTo, next]
  simp only [if_neg more]
  rw [Cursor.upTo, Cursor.next, ← chars]
  rfl

/-- Each token of a source text is written as its kind asks and as no other does. No longer piece of
the source from its start is written as any kind asks. Its text alone gives the token again, and
nothing else. -/
theorem longest_of_mem_tokenize {source : String} {t : Token} (h : .ok t ∈ tokenize source)
    (more : t.kind ≠ .eos) :
    (∀ kind : TokenKind, kind.Admits t.text.toList ↔ kind = t.kind) ∧
    (∃ before behind, source.toList = before ++ t.text.toList ++ behind ∧
      t.span.start = Pos.origin.advance before ∧
      ∀ (kind : TokenKind) (cs : List Char), kind.Admits cs → cs <+: t.text.toList ++ behind →
        cs.length ≤ t.text.toList.length) ∧
    tokenize t.text = [.ok ⟨t.kind, t.text, ⟨.origin, Pos.origin.advance t.text.toList⟩⟩,
      .ok ⟨.eos, "", ⟨Pos.origin.advance t.text.toList, Pos.origin.advance t.text.toList⟩⟩] := by
  rw [tokenize_eq_upTo] at h
  obtain ⟨before, c, cs, rest, piece, text, start⟩ := Cursor.scan_of_mem_upTo h more
  have admits : t.kind.Admits t.text.toList := text ▸ Lexer.admits_scan piece
  have alone := tokenize_of_admits admits
  refine ⟨fun kind => ⟨fun other => ?_, fun same => same ▸ admits⟩,
    ⟨before, (c :: cs).drop (Lexer.scan c cs).length, ?_, start, fun kind ds other front => ?_⟩,
    alone⟩
  · have both := alone.symm.trans (tokenize_of_admits other)
    cases both
    rfl
  · rw [text, List.append_assoc, List.take_append_drop]
    exact rest
  · rw [text, List.take_append_drop] at front
    rw [text, List.length_take]
    exact Nat.le_min.mpr ⟨Lexer.length_le_scan piece other front, front.length_le⟩

/-- A point behind a fraction is not part of it. -/
theorem longest_of_mem_tokenize_fraction :
    (∀ kind : TokenKind, kind.Admits "2.5".toList ↔ kind = .float) ∧
    (∃ before behind, "x1/=2.5.y".toList = before ++ "2.5".toList ++ behind ∧
      (⟨4, 1, 4⟩ : Pos) = Pos.origin.advance before ∧
      ∀ (kind : TokenKind) (cs : List Char), kind.Admits cs → cs <+: "2.5".toList ++ behind →
        cs.length ≤ 3) ∧
    tokenize "2.5" =
      [.ok ⟨.float, "2.5", ⟨.origin, ⟨3, 1, 3⟩⟩⟩, .ok ⟨.eos, "", ⟨⟨3, 1, 3⟩, ⟨3, 1, 3⟩⟩⟩] := by
  have cut : .ok ⟨.float, "2.5", ⟨⟨4, 1, 4⟩, ⟨7, 1, 7⟩⟩⟩ ∈ tokenize "x1/=2.5.y" := by
    have third : (tokenize "x1/=2.5.y")[2]? =
        some (.ok ⟨.float, "2.5", ⟨⟨4, 1, 4⟩, ⟨7, 1, 7⟩⟩⟩) := by
      decide +kernel
    exact List.mem_of_getElem? third
  exact longest_of_mem_tokenize cut (by rintro ⟨⟩)

end GraalScript
