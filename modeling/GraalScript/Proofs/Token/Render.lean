import GraalScript.Proofs.Invariance
import GraalScript.Proofs.Token.Written
import Mathlib.Algebra.Order.BigOperators.Group.List
import Mathlib.Algebra.Order.Ring.Nat

/-! Writing tokens down. Each token is followed by a blank, and a directive stands on a line of its
own; cut again, the text gives the tokens it was written from. -/
namespace GraalScript

namespace Lexer

/-- What may stand between two quotes: plain characters, and pairs of a backslash and a character.
No line feed is among them. -/
inductive Quoted (quote : Char) : List Char → Prop where
  | nil : Quoted quote []
  | plain {c : Char} {cs : List Char} (other : c ≠ quote) (slash : c ≠ '\\') (feed : c ≠ '\n')
      (more : Quoted quote cs) : Quoted quote (c :: cs)
  | escape {c : Char} {cs : List Char} (feed : c ≠ '\n') (more : Quoted quote cs) :
      Quoted quote ('\\' :: c :: cs)

theorem scan_quote {c : Char} (quotes : c = '"' ∨ c = '\'') (cs : List Char) :
    scan c cs = scanString c cs := by
  have space : isSpace c = false := by rcases quotes with rfl | rfl <;> rfl
  unfold scan
  rw [if_neg (by simp [space]), if_pos quotes]

theorem stringEnd_quoted {quote : Char} (slash : quote ≠ '\\') (feed : quote ≠ '\n')
    {inner : List Char} (quoted : Quoted quote inner) (n : Nat) (rest : List Char) :
    stringEnd quote n (inner ++ quote :: rest) = (true, n + inner.length + 1) := by
  induction quoted generalizing n with
  | nil =>
    cases rest with
    | nil => simp [stringEnd]
    | cons d rest => simp [stringEnd, slash, feed]
  | @plain c cs other slash feed _ ih =>
    have behind := ih (n + 1)
    rw [List.cons_append]
    cases tail : cs ++ quote :: rest with
    | nil => simp at tail
    | cons d ds =>
      rw [stringEnd, if_neg feed, if_neg slash, if_neg other, ← tail, behind, List.length_cons]
      simp only [Prod.mk.injEq, true_and]
      omega
  | @escape c cs feed _ ih =>
    rw [List.cons_append, List.cons_append, stringEnd, if_neg (by decide), if_pos rfl,
      if_neg feed, ih]
    simp only [List.length_cons, Prod.mk.injEq, true_and]
    omega

theorem scan_quoted {quote : Char} (quotes : quote = '"' ∨ quote = '\'') {inner : List Char}
    (quoted : Quoted quote inner) (rest : List Char) :
    scan quote (inner ++ quote :: rest) = ⟨.token .str, inner.length + 2⟩ := by
  have slash : quote ≠ '\\' := by rcases quotes with rfl | rfl <;> decide
  have feed : quote ≠ '\n' := by rcases quotes with rfl | rfl <;> decide
  rw [scan_quote quotes, scanString, stringEnd_quoted slash feed quoted]
  simp only [Lexeme.mk.injEq, true_and]
  omega

end Lexer

namespace Text

/-- A character as it stands in a string literal. -/
def literalChar (c : Char) : List Char :=
  if c = '"' ∨ c = '\\' then ['\\', c]
  else if c = '\n' then ['\\', 'n']
  else if c = '\t' then ['\\', 't']
  else if c = '\r' then ['\\', 'r']
  else if c = '\x00' then ['\\', '0']
  else [c]

def literal (value : String) : String :=
  String.ofList ('"' :: value.toList.flatMap literalChar ++ ['"'])

theorem literalChar_cases (c : Char) :
    (literalChar c = [c] ∧ c ≠ '"' ∧ c ≠ '\\' ∧ c ≠ '\n') ∨
      ∃ d, literalChar c = ['\\', d] ∧ unescapeChar d = c ∧ d ≠ '\n' := by
  unfold literalChar
  split
  next h => exact .inr ⟨c, rfl, by rcases h with rfl | rfl <;> decide⟩
  next plain =>
    split
    next h => exact .inr ⟨'n', rfl, h.symm, by decide⟩
    next line =>
      split
      next h => exact .inr ⟨'t', rfl, h.symm, by decide⟩
      split
      next h => exact .inr ⟨'r', rfl, h.symm, by decide⟩
      split
      next h => exact .inr ⟨'0', rfl, h.symm, by decide⟩
      exact .inl ⟨rfl, fun h => plain (.inl h), fun h => plain (.inr h), line⟩

theorem unescapeOnto_cons {c : Char} (h : c ≠ '\\') (done cs : List Char) :
    unescapeOnto done (c :: cs) = unescapeOnto (c :: done) cs := by
  cases cs with
  | nil => simp [unescapeOnto, h]
  | cons d cs => simp [unescapeOnto, h]

theorem betweenQuotes_quoted {quote : Char} (quotes : quote = '"' ∨ quote = '\'')
    (inner : List Char) : betweenQuotes (quote :: inner ++ [quote]) = inner := by
  have single : quote.utf8Size = 1 := by rcases quotes with rfl | rfl <;> decide
  simp [betweenQuotes, single]

/-- What the characters between two quotes stand for: each by itself, or two for one if the first is
a backslash. -/
inductive Spells (quote : Char) : List Char → List Char → Prop where
  | nil : Spells quote [] []
  | plain {c : Char} {cs text : List Char} (other : c ≠ quote) (slash : c ≠ '\\') (feed : c ≠ '\n')
      (more : Spells quote cs text) : Spells quote (c :: cs) (c :: text)
  | escape {c : Char} {cs text : List Char} (feed : c ≠ '\n') (more : Spells quote cs text) :
      Spells quote ('\\' :: c :: cs) (unescapeChar c :: text)

namespace Spells

variable {quote : Char} {inner text : List Char}

theorem quoted (spells : Spells quote inner text) : Lexer.Quoted quote inner := by
  induction spells with
  | nil => exact .nil
  | plain other slash feed _ ih => exact .plain other slash feed ih
  | escape feed _ ih => exact .escape feed ih

theorem unescapeOnto_eq (spells : Spells quote inner text) (done : List Char) :
    unescapeOnto done inner = done.reverse ++ text := by
  induction spells generalizing done with
  | nil => simp [unescapeOnto]
  | plain other slash feed _ ih =>
    rw [unescapeOnto_cons slash, ih]
    simp
  | escape feed _ ih =>
    rw [unescapeOnto, if_pos rfl, ih]
    simp

theorem unescape_eq (spells : Spells quote inner text) (quotes : quote = '"' ∨ quote = '\'')
    {literal : String} (whole : literal.toList = quote :: inner ++ [quote]) :
    (unescape literal).toList = text := by
  rw [unescape, String.toList_ofList, whole, betweenQuotes_quoted quotes, spells.unescapeOnto_eq]
  rfl

end Spells

theorem spells_flatMap {quote : Char} {f : Char → List Char}
    (each : ∀ c, (f c = [c] ∧ c ≠ quote ∧ c ≠ '\\' ∧ c ≠ '\n') ∨
      ∃ d, f c = ['\\', d] ∧ unescapeChar d = c ∧ d ≠ '\n') (text : List Char) :
    Spells quote (text.flatMap f) text := by
  induction text with
  | nil => exact .nil
  | cons c text ih =>
    rw [List.flatMap_cons]
    rcases each c with ⟨same, other, slash, feed⟩ | ⟨d, escaped, rfl, feed⟩
    · rw [same]
      exact .plain other slash feed ih
    · rw [escaped]
      exact .escape feed ih

theorem spells_literal (text : List Char) : Spells '"' (text.flatMap literalChar) text :=
  spells_flatMap literalChar_cases text

/-- The literal for a text stands for it. -/
theorem unescape_literal (value : String) : unescape (literal value) = value := by
  have whole : (literal value).toList = '"' :: value.toList.flatMap literalChar ++ ['"'] := by
    rw [literal, String.toList_ofList]
  exact String.toList_inj.mp ((spells_literal value.toList).unescape_eq (.inl rfl) whole)

end Text

namespace Lexer

theorem run_append {p : Char → Bool} {cs : List Char} (all : ∀ c ∈ cs, p c = true) {d : Char}
    (stop : p d = false) (rest : List Char) : run p (cs ++ d :: rest) = cs.length := by
  rw [run, List.takeWhile_append_of_pos all, List.takeWhile_cons_of_neg (by simp [stop]),
    List.append_nil]

end Lexer

namespace Token

def chars (t : Token) : List Char :=
  if t.kind = .directive then TokenKind.directive.text.toList else t.text.toList

def separator (t : Token) : Char := if t.kind = .directive then '\n' else ' '

def render (t : Token) : List Char :=
  (if t.kind = .directive then ['\n'] else []) ++ t.chars ++ [t.separator]

/-- The token is cut off in front of its separator, whatever follows. -/
structure Cuts (t : Token) : Prop where
  notLast : t.kind ≠ .eos
  scan : ∃ c cs, t.chars = c :: cs ∧ Lexer.isSpace c = false ∧
    ∀ rest, Lexer.scan c (cs ++ t.separator :: rest) = ⟨.token t.kind, cs.length + 1⟩

theorem separator_of_ne {t : Token} (h : t.kind ≠ .directive) : t.separator = ' ' := if_neg h

def bare (kind : TokenKind) (text : String) : Token := ⟨kind, text, ⟨.origin, .origin⟩⟩

end Token

def TokenKind.bare (kind : TokenKind) : Token := .bare kind kind.text

/-- The text that tokens are written to. -/
def renderTokens (ts : List Token) : String := String.ofList (ts.flatMap Token.render)

namespace Lexer

theorem isSpace_eq_false {p : Char → Bool}
    (none : p ' ' = false ∧ p '\t' = false ∧ p '\r' = false ∧ p '\n' = false) {c : Char}
    (h : p c = true) : isSpace c = false := by
  obtain ⟨blank, tab, back, feed⟩ := none
  simp [isSpace, ne_of_class h blank, ne_of_class h tab, ne_of_class h back, ne_of_class h feed]

theorem isDigit_eq_false_of_isWordStart {c : Char} (h : isWordStart c = true) :
    c.isDigit = false := by
  rw [isWordStart, Bool.or_eq_true, beq_iff_eq] at h
  rcases h with rfl | alpha
  · rfl
  · delta Char.isAlpha Char.isUpper Char.isLower at alpha
    simp only [Char.isDigit, Bool.or_eq_true, Bool.and_eq_true, decide_eq_true_eq,
      Bool.and_eq_false_iff, decide_eq_false_iff_not, ge_iff_le, UInt32.le_iff_toNat_le] at alpha ⊢
    have : 'A'.val.toNat = 65 := rfl
    have : 'a'.val.toNat = 97 := rfl
    have : '9'.val.toNat = 57 := rfl
    omega

theorem scan_word {c : Char} {cs : List Char} (start : isWordStart c = true)
    (all : ∀ d ∈ cs, isWordRest d = true) (rest : List Char) : scan c (cs ++ ' ' :: rest) =
      ⟨.token ((Keyword.ofSpelling? (String.ofList (c :: cs))).elim .ident .keyword),
        cs.length + 1⟩ := by
  have word : run isWordRest (c :: (cs ++ ' ' :: rest)) = cs.length + 1 :=
    run_append (List.forall_mem_cons.mpr ⟨isWordRest_of_isWordStart start, all⟩) rfl rest
  have front : (c :: (cs ++ ' ' :: rest)).take (cs.length + 1) = c :: cs := by simp
  have space : isSpace c = false := isSpace_eq_false ⟨rfl, rfl, rfl, rfl⟩ start
  have quote : ¬(c = '"' ∨ c = '\'') := not_or.mpr ⟨ne_of_class start rfl, ne_of_class start rfl⟩
  unfold scan
  rw [if_neg (by simp [space]), if_neg quote,
    if_neg (by simp [isDigit_eq_false_of_isWordStart start]), if_pos start, scanWord, word, front]

theorem scan_space {c : Char} (h : isSpace c = true) (cs : List Char) :
    scan c cs = ⟨.gap, 1 + run isSpace cs⟩ := by
  unfold scan
  rw [if_pos h]

theorem scan_digit {c : Char} (digit : c.isDigit = true) (cs : List Char) :
    scan c cs = scanNumber c cs := by
  have space : isSpace c = false := isSpace_eq_false ⟨rfl, rfl, rfl, rfl⟩ digit
  have quote : ¬(c = '"' ∨ c = '\'') := not_or.mpr ⟨ne_of_class digit rfl, ne_of_class digit rfl⟩
  unfold scan
  rw [if_neg (by simp [space]), if_neg quote, if_pos digit]

theorem scanNumber_decimal (c : Char) {d : Char} (lower : d ≠ 'x') (upper : d ≠ 'X')
    (cs : List Char) : scanNumber c (d :: cs) = scanDecimal (c :: d :: cs) := by
  unfold scanNumber
  split
  next h => exact absurd (List.cons.inj h).1 lower
  next h => exact absurd (List.cons.inj h).1 upper
  next => rfl

theorem scan_of_digits {c : Char} {cs : List Char} (digits : IsDigits (c :: cs)) {d : Char}
    (lower : d ≠ 'x') (upper : d ≠ 'X') (rest : List Char) :
    scan c (cs ++ d :: rest) = scanDecimal (c :: cs ++ d :: rest) := by
  have first := digits.digits c List.mem_cons_self
  rw [scan_digit first]
  cases cs with
  | nil => exact scanNumber_decimal c lower upper rest
  | cons e cs =>
    have digit := digits.digits e (List.mem_cons_of_mem _ List.mem_cons_self)
    exact scanNumber_decimal c (ne_of_class digit rfl) (ne_of_class digit rfl) _

theorem scan_int {c : Char} {cs : List Char} (digits : IsDigits (c :: cs)) (rest : List Char) :
    scan c (cs ++ ' ' :: rest) = ⟨.token .int, cs.length + 1⟩ := by
  rw [scan_of_digits digits (by decide) (by decide)]
  unfold scanDecimal
  rw [run_append digits.digits rfl]
  simp

theorem scan_float {c : Char} {cs part : List Char} (whole : IsDigits (c :: cs))
    (digits : IsDigits part) (rest : List Char) :
    scan c (cs ++ '.' :: part ++ ' ' :: rest) =
      ⟨.token .float, (cs ++ '.' :: part).length + 1⟩ := by
  obtain ⟨d, ds, rfl⟩ := List.exists_cons_of_ne_nil digits.nonempty
  have first := digits.digits d List.mem_cons_self
  have others : run Char.isDigit (ds ++ ' ' :: rest) = ds.length :=
    run_append (fun e inside => digits.digits e (List.mem_cons_of_mem _ inside)) rfl rest
  rw [List.append_assoc, List.cons_append, List.cons_append,
    scan_of_digits whole (by decide) (by decide)]
  unfold scanDecimal
  rw [run_append whole.digits rfl]
  simp [first, others]
  omega

theorem scan_symbol {k : TokenKind} (h : k ∈ TokenKind.symbols) :
    ∃ c cs, k.text.toList = c :: cs ∧ isSpace c = false ∧
      ∀ rest, scan c (cs ++ ' ' :: rest) = ⟨.token k, cs.length + 1⟩ := by
  revert k
  simp only [TokenKind.symbols, List.forall_mem_cons]
  repeat' apply And.intro
  all_goals first | exact ⟨_, _, rfl, rfl, fun _ => rfl⟩ | exact nofun

theorem scan_str (cs rest : List Char) :
    scan '"' (cs.flatMap Text.literalChar ++ ['"'] ++ ' ' :: rest) =
      ⟨.token .str, (cs.flatMap Text.literalChar ++ ['"']).length + 1⟩ := by
  have scanned := scan_quoted (.inl rfl) (Text.spells_literal cs).quoted (' ' :: rest)
  rw [List.append_assoc, List.singleton_append, scanned, List.length_append, List.length_singleton]

theorem scan_directive (rest : List Char) :
    scan '/' ("/#CLIENTSIDE".toList ++ '\n' :: rest) = ⟨.token .directive, 13⟩ := by
  rfl

end Lexer

namespace Token

theorem cuts_symbol {k : TokenKind} (h : k ∈ TokenKind.symbols) : k.bare.Cuts := by
  have other : ∀ k ∈ TokenKind.symbols, k ≠ .eos ∧ k ≠ .directive := by decide
  obtain ⟨c, cs, text, space, scan⟩ := Lexer.scan_symbol h
  refine ⟨(other k h).1, c, cs, ?_, space, ?_⟩
  · exact (if_neg (other k h).2).trans text
  · rw [separator_of_ne (other k h).2]
    exact scan

theorem cuts_word {kind : TokenKind} {x : String}
    (start : ∃ c ∈ x.toList.head?, Lexer.isWordStart c = true)
    (rest : ∀ c ∈ x.toList, Lexer.isWordRest c = true)
    (word : (Keyword.ofSpelling? x).elim .ident .keyword = kind) : (bare kind x).Cuts := by
  have other : kind ≠ .eos ∧ kind ≠ .directive := by
    rw [← word]
    cases Keyword.ofSpelling? x <;> exact ⟨nofun, nofun⟩
  obtain ⟨c, head, start⟩ := start
  cases chars : x.toList with
  | nil =>
    rw [chars] at head
    cases head
  | cons first cs =>
    rw [chars] at head rest
    obtain rfl : first = c := Option.some.inj head
    refine ⟨other.1, first, cs, (if_neg other.2).trans chars, ?_, fun after => ?_⟩
    · exact Lexer.isSpace_eq_false ⟨rfl, rfl, rfl, rfl⟩ start
    · have all : ∀ d ∈ cs, Lexer.isWordRest d = true :=
        fun d inside => rest d (List.mem_cons_of_mem _ inside)
      rw [separator_of_ne other.2, Lexer.scan_word start all after, ← chars,
        String.ofList_toList, word]
      rfl

theorem cuts_name {x : String} (h : Lexer.IsName x) : (bare .ident x).Cuts :=
  cuts_word h.start h.rest (by rw [h.free]; rfl)

theorem cuts_keyword (k : Keyword) : (TokenKind.keyword k).bare.Cuts := by
  have known : Keyword.ofSpelling? (TokenKind.keyword k).text = some k :=
    Keyword.ofSpelling?_eq_some_iff.mpr rfl
  refine cuts_word ?_ ?_ (by rw [known]; rfl)
  · cases k <;> exact ⟨_, rfl, rfl⟩
  · rw [← List.all_eq_true]
    cases k <;> rfl

theorem cuts_int {x : String} (h : Lexer.IsDigits x.toList) : (bare .int x).Cuts := by
  cases chars : x.toList with
  | nil => exact absurd chars h.nonempty
  | cons c cs =>
    rw [chars] at h
    refine ⟨nofun, c, cs, chars, ?_, fun after => Lexer.scan_int h after⟩
    exact Lexer.isSpace_eq_false ⟨rfl, rfl, rfl, rfl⟩ (h.digits c List.mem_cons_self)

theorem cuts_float {x : String} (h : Lexer.IsFraction x.toList) : (bare .float x).Cuts := by
  obtain ⟨whole, part, chars, digits, fraction⟩ := h
  obtain ⟨c, cs, rfl⟩ := List.exists_cons_of_ne_nil digits.nonempty
  refine ⟨nofun, c, cs ++ '.' :: part, chars, ?_,
    fun after => Lexer.scan_float digits fraction after⟩
  exact Lexer.isSpace_eq_false ⟨rfl, rfl, rfl, rfl⟩ (digits.digits c List.mem_cons_self)

theorem cuts_str (value : String) : (bare .str (Text.literal value)).Cuts :=
  ⟨nofun, '"', _, String.toList_ofList, rfl, fun after => Lexer.scan_str value.toList after⟩

theorem cuts_directive (text : String) : (bare .directive text).Cuts :=
  ⟨nofun, '/', "/#CLIENTSIDE".toList, rfl, rfl, fun after => Lexer.scan_directive after⟩

end Token

namespace Cursor

theorem next_space {c : Char} (blank : Lexer.isSpace c = true) (cs : List Char) (pos : Pos) :
    next ⟨c :: cs, pos⟩ = next ⟨cs, pos.next c⟩ := by
  rw [next, Lexer.scan_space blank]
  dsimp only [skip]
  rw [Nat.add_comm, List.drop_succ_cons, List.take_succ_cons, Pos.advance_cons]
  cases cs with
  | nil => rfl
  | cons d cs =>
    by_cases space : Lexer.isSpace d = true
    · rw [next, Lexer.scan_space space]
      dsimp only [skip]
      have more : Lexer.run Lexer.isSpace (d :: cs) = 1 + Lexer.run Lexer.isSpace cs := by
        simp [Lexer.run, space, Nat.add_comm]
      rw [more]
    · have none : Lexer.run Lexer.isSpace (d :: cs) = 0 := by simp [Lexer.run, space]
      rw [none]
      rfl

theorem next_spaces {blanks : List Char} (all : ∀ c ∈ blanks, Lexer.isSpace c = true)
    (rest : List Char) (pos : Pos) :
    next ⟨blanks ++ rest, pos⟩ = next ⟨rest, pos.advance blanks⟩ := by
  induction blanks generalizing pos with
  | nil => rfl
  | cons c blanks ih =>
    rw [List.forall_mem_cons] at all
    rw [List.cons_append, next_space all.1, ih all.2, Pos.advance_cons]

theorem next_end {blanks : List Char} (all : ∀ c ∈ blanks, Lexer.isSpace c = true) (pos : Pos) :
    ∃ pos' after, next ⟨blanks, pos⟩ = (.ok ⟨.eos, "", ⟨pos', pos'⟩⟩, after) := by
  have walked := next_spaces all [] pos
  rw [List.append_nil, next] at walked
  exact ⟨_, _, walked⟩

theorem next_token {t : Token} (cuts : t.Cuts) {blanks : List Char}
    (all : ∀ c ∈ blanks, Lexer.isSpace c = true) (rest : List Char) (pos : Pos) :
    ∃ u pos', next ⟨blanks ++ t.chars ++ t.separator :: rest, pos⟩ =
      (.ok u, ⟨t.separator :: rest, pos'⟩) ∧
      u.kind = t.kind ∧ (t.kind ≠ .directive → u.text = t.text) := by
  obtain ⟨c, cs, chars, -, scan⟩ := cuts.scan
  have stop (pos : Pos) : next ⟨c :: (cs ++ t.separator :: rest), pos⟩ =
      (.ok ⟨t.kind, String.ofList (c :: cs), ⟨pos, pos.advance (c :: cs)⟩⟩,
        ⟨t.separator :: rest, pos.advance (c :: cs)⟩) := by
    rw [next, scan]
    simp only [skip, List.drop_succ_cons, List.drop_left, List.take_succ_cons, List.take_left]
  rw [chars, List.append_assoc, List.cons_append, next_spaces all, stop]
  refine ⟨_, _, rfl, rfl, fun plain => ?_⟩
  rw [← chars, Token.chars, if_neg plain, String.ofList_toList]

theorem alike_upTo_render {ts : List Token} (cuts : ∀ t ∈ ts, t.Cuts) {n : Nat}
    (enough : ts.length < n) {blanks : List Char} (all : ∀ c ∈ blanks, Lexer.isSpace c = true)
    (pos : Pos) :
    List.Forall₂ Token.Alike (upTo n ⟨blanks ++ ts.flatMap Token.render, pos⟩)
      ((ts ++ [Token.bare .eos ""]).map .ok) := by
  induction ts generalizing n blanks pos with
  | nil =>
    obtain ⟨n, rfl⟩ := Nat.exists_eq_succ_of_ne_zero (Nat.ne_of_gt enough)
    obtain ⟨pos', after, last⟩ := next_end all pos
    rw [List.flatMap_nil, List.append_nil, upTo, last]
    simp [Token.Alike, Token.bare]
  | cons t ts ih =>
    obtain ⟨n, rfl⟩ := Nat.exists_eq_succ_of_ne_zero (Nat.ne_of_gt (Nat.zero_lt_of_lt enough))
    have here := cuts t List.mem_cons_self
    have lead : ∀ c ∈ blanks ++ (if t.kind = .directive then ['\n'] else []),
        Lexer.isSpace c = true := by
      intro c inside
      rcases List.mem_append.mp inside with before | line
      · exact all c before
      · split at line
        · cases List.mem_singleton.mp line
          rfl
        · cases line
    obtain ⟨u, pos', found, kind, text⟩ := next_token here lead (ts.flatMap Token.render) pos
    have separator : ∀ c ∈ [t.separator], Lexer.isSpace c = true := by
      simp only [List.mem_singleton, forall_eq, Token.separator]
      split <;> rfl
    have behind :=
      ih (fun t inside => cuts t (List.mem_cons_of_mem _ inside)) (Nat.lt_of_succ_lt_succ enough)
      separator pos'
    have whole : blanks ++ (t :: ts).flatMap Token.render =
        blanks ++ (if t.kind = .directive then ['\n'] else []) ++ t.chars ++
          t.separator :: ts.flatMap Token.render := by
      simp [Token.render]
    rw [whole, upTo, found]
    simp only [kind, here.notLast, if_false]
    exact .cons ⟨kind, fun plain => text (by rwa [kind] at plain)⟩ behind

end Cursor

theorem Token.length_render_pos (t : Token) : 0 < t.render.length := by
  simp [render]

/-- What tokens are written to is cut into these tokens, and the end of the source. -/
theorem alike_tokenize_render {ts : List Token} (cuts : ∀ t ∈ ts, t.Cuts) :
    List.Forall₂ Token.Alike (tokenize (renderTokens ts))
      ((ts ++ [Token.bare .eos ""]).map .ok) := by
  have enough : ts.length < (renderTokens ts).toList.length + 1 := by
    rw [renderTokens, String.toList_ofList, List.length_flatMap, Nat.lt_succ_iff]
    calc ts.length = (ts.map fun _ => 1).sum := by simp
      _ ≤ (ts.map fun t => t.render.length).sum := List.sum_le_sum fun t _ => t.length_render_pos
  have none : ∀ c ∈ ([] : List Char), Lexer.isSpace c = true := nofun
  have cut := Cursor.alike_upTo_render cuts enough none Pos.origin
  rw [tokenize_eq_upTo]
  rwa [Cursor.ofText, renderTokens, String.toList_ofList] at *

end GraalScript
