import GraalScript.Proofs.Token.Spelled
import GraalScript.Tree.Parser.Basic

/-! How names and numbers are written. The texts of the tokens that stand in a tree belong to these
classes, and what belongs to one of them is cut from a text as one token again. -/
namespace GraalScript

namespace Lexer

/-- A word that is not reserved. -/
structure IsName (x : String) : Prop where
  start : ∃ c ∈ x.toList.head?, isWordStart c = true
  rest : ∀ c ∈ x.toList, isWordRest c = true
  free : Keyword.ofSpelling? x = none

structure IsDigits (cs : List Char) : Prop where
  nonempty : cs ≠ []
  digits : ∀ c ∈ cs, c.isDigit = true

def IsFraction (cs : List Char) : Prop :=
  ∃ whole part, cs = whole ++ '.' :: part ∧ IsDigits whole ∧ IsDigits part

def IsHex (cs : List Char) : Prop := ∃ digits, cs = '0' :: 'x' :: digits ∨ cs = '0' :: 'X' :: digits

theorem isWordRest_of_isWordStart {c : Char} (h : isWordStart c = true) : isWordRest c = true := by
  simp only [isWordStart, isWordRest, Char.isAlphanum, Bool.or_eq_true] at h ⊢
  exact h.imp_right Or.inl

theorem isDigits_takeWhile {c : Char} (h : c.isDigit = true) (cs : List Char) :
    IsDigits ((c :: cs).takeWhile Char.isDigit) := by
  refine ⟨by simp [h], fun d inside => ?_⟩
  exact List.all_eq_true.mp List.all_takeWhile d inside

end Lexer

/-- Names and numbers are written as the lexer cuts them. -/
structure Token.Written (t : Token) : Prop where
  name : t.kind = .ident → Lexer.IsName t.text
  int : t.kind = .int → Lexer.IsDigits t.text.toList ∨ Lexer.IsHex t.text.toList
  float : t.kind = .float → Lexer.IsFraction t.text.toList

namespace Lexer

theorem isName_scanWord {c : Char} {cs : List Char} (h : isWordStart c = true)
    (free : (scanWord (c :: cs)).piece = .token .ident) :
    IsName (String.ofList ((c :: cs).take (scanWord (c :: cs)).length)) := by
  have rest := isWordRest_of_isWordStart h
  unfold scanWord at free ⊢
  dsimp only at free ⊢
  rw [take_run] at free ⊢
  refine ⟨⟨c, ?_, h⟩, fun d inside => ?_, ?_⟩
  · simp [rest]
  · rw [String.toList_ofList] at inside
    exact List.all_eq_true.mp List.all_takeWhile d inside
  · cases found : Keyword.ofSpelling? (String.ofList ((c :: cs).takeWhile isWordRest)) with
    | none => rfl
    | some k =>
      rw [found] at free
      cases free

theorem written_scanDecimal {c : Char} (h : c.isDigit = true) (cs : List Char) :
    ((scanDecimal (c :: cs)).piece = .token .int ∧
        IsDigits ((c :: cs).take (scanDecimal (c :: cs)).length)) ∨
      ((scanDecimal (c :: cs)).piece = .token .float ∧
        IsFraction ((c :: cs).take (scanDecimal (c :: cs)).length)) := by
  have whole : IsDigits ((c :: cs).take (run Char.isDigit (c :: cs))) := by
    rw [take_run]
    exact isDigits_takeWhile h cs
  unfold scanDecimal
  dsimp only
  split
  next d rest behind =>
    split
    next digit =>
      refine .inr ⟨rfl, _, d :: rest.takeWhile Char.isDigit, ?_, whole, ?_⟩
      · rw [Nat.add_assoc, Nat.add_comm 2, List.take_add, behind, List.take_succ_cons,
          List.take_succ_cons, take_run _ rest]
      · have part := isDigits_takeWhile digit rest
        rwa [List.takeWhile_cons_of_pos digit] at part
    next => exact .inl ⟨rfl, whole⟩
  next => exact .inl ⟨rfl, whole⟩

theorem written_scanHex (x : Char) (cs : List Char) {kind : TokenKind}
    (h : (scanHex cs).piece = .token kind) :
    kind = .int ∧ ∃ digits, ('0' :: x :: cs).take (scanHex cs).length = '0' :: x :: digits := by
  unfold scanHex at h ⊢
  split at h
  · cases h
  · cases h
    exact ⟨rfl, _, rfl⟩

theorem written_scanNumber {c : Char} {cs : List Char} {kind : TokenKind} (digit : c.isDigit = true)
    (h : (scanNumber c cs).piece = .token kind) (span : Span) :
    Token.Written ⟨kind, String.ofList ((c :: cs).take (scanNumber c cs).length), span⟩ := by
  have hex (x : Char) (hx : x = 'x' ∨ x = 'X') (rest : List Char)
      (found : (scanHex rest).piece = .token kind) :
      Token.Written ⟨kind, String.ofList (('0' :: x :: rest).take (scanHex rest).length),
        span⟩ := by
    obtain ⟨rfl, digits, cut⟩ := written_scanHex x rest found
    refine ⟨nofun, fun _ => .inr ⟨digits, ?_⟩, nofun⟩
    rw [String.toList_ofList, cut]
    rcases hx with rfl | rfl
    · exact .inl rfl
    · exact .inr rfl
  unfold scanNumber at h ⊢
  split at h
  · exact hex 'x' (.inl rfl) _ h
  · exact hex 'X' (.inr rfl) _ h
  · obtain ⟨isInt, digits⟩ | ⟨isFloat, fraction⟩ := written_scanDecimal digit cs
    · cases isInt.symm.trans h
      exact ⟨nofun, fun _ => .inl (by rwa [String.toList_ofList]), nofun⟩
    · cases isFloat.symm.trans h
      exact ⟨nofun, nofun, fun _ => by rwa [String.toList_ofList]⟩

theorem kind_scanWord {cs : List Char} {kind : TokenKind} (h : (scanWord cs).piece = .token kind) :
    kind = .ident ∨ ∃ k, kind = .keyword k := by
  unfold scanWord at h
  dsimp only at h
  cases found : Keyword.ofSpelling? (String.ofList (cs.take (run isWordRest cs))) with
  | none =>
    rw [found] at h
    exact .inl (Piece.token.inj h).symm
  | some k =>
    rw [found] at h
    exact .inr ⟨k, (Piece.token.inj h).symm⟩

theorem written_scan {c : Char} {cs : List Char} {kind : TokenKind}
    (h : (scan c cs).piece = .token kind) (span : Span) :
    Token.Written ⟨kind, String.ofList ((c :: cs).take (scan c cs).length), span⟩ := by
  by_cases plain : kind.isPlain = true
  · rcases scan_of_isPlain h plain with ⟨digit, number⟩ | ⟨start, word⟩
    · rw [number] at h ⊢
      exact written_scanNumber digit h span
    · rw [word] at h ⊢
      cases kind_scanWord h with
      | inl ident =>
        subst ident
        exact ⟨fun _ => isName_scanWord start h, nofun, nofun⟩
      | inr reserved =>
        obtain ⟨k, rfl⟩ := reserved
        exact ⟨nofun, nofun, nofun⟩
  · refine ⟨fun kind => ?_, fun kind => ?_, fun kind => ?_⟩ <;>
      · subst kind
        exact absurd rfl plain

end Lexer

theorem written_of_mem_tokenize {source : String} {t : Token} (h : .ok t ∈ tokenize source) :
    t.Written :=
  of_mem_tokenize (fun _ => ⟨nofun, nofun, nofun⟩)
    (fun _ _ _ span found => Lexer.written_scan found span) h

/-- Numbers kept as text are written as numbers. -/
def Literal.Written : Literal → Prop
  | .float x =>
    Lexer.IsFraction x.toList ∨ (Lexer.IsDigits x.toList ∧ Parser.readWord 10 x.toList = none)
  | _ => True

namespace Parser

theorem written_intLiteral {text : String}
    (h : Lexer.IsDigits text.toList ∨ Lexer.IsHex text.toList) {value : Literal}
    (read : intLiteral text = some value) : value.Written := by
  unfold intLiteral at read
  split at read
  iterate 2
    obtain ⟨n, -, rfl⟩ := Option.map_eq_some_iff.mp read
    trivial
  next notLower notUpper =>
    cases read
    cases word : readWord 10 text.toList with
    | some n => trivial
    | none =>
      refine .inr ⟨h.resolve_right ?_, word⟩
      rintro ⟨digits, lower | upper⟩
      · exact notLower digits lower
      · exact notUpper digits upper

theorem written_literalValue {t : Token} (h : t.Written) {value : Literal}
    (read : literalValue t = .ok value) : value.Written := by
  unfold literalValue at read
  split at read
  next kind =>
    split at read
    next found =>
      cases read
      exact written_intLiteral (h.int kind) found
    next => cases read
  next kind =>
    cases read
    exact .inl (h.float kind)
  all_goals
    cases read
    try trivial

end Parser

end GraalScript
