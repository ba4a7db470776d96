import GraalScript.Proofs.Code.Texts
import GraalScript.Proofs.Token.Prefix
import GraalScript.Text.Escape
import Mathlib.Data.List.TakeWhile

/-! The texts that tokens bring into a tree. Names and numbers are cut from the source by the
classes of their characters, so no zero character gets into them; a string literal can hold one,
plain or escaped. -/
namespace GraalScript

namespace TokenKind

/-- The kinds whose tokens stand in a tree as they are written. -/
def isPlain : TokenKind → Bool
  | ident | int | float => true
  | _ => false

end TokenKind

/-- Names and numbers have no zero character, and the values of string literals satisfy `P`. -/
structure Token.Spelled (P : String → Prop) (t : Token) : Prop where
  plain : t.kind.isPlain = true → Text.ZeroFree t.text
  str : t.kind = .str → P (Text.unescape t.text)

namespace Lexer

theorem take_run (p : Char → Bool) (cs : List Char) : cs.take (run p cs) = cs.takeWhile p := by
  rw [run]
  exact List.prefix_iff_eq_take.mp (List.takeWhile_prefix p) |>.symm

theorem ne_of_class {p : Char → Bool} {c d : Char} (hc : p c = true) (hd : p d = false) :
    c ≠ d := by
  rintro rfl
  exact Bool.false_ne_true (hd.symm.trans hc)

section outside

variable {x : Char} (outside : isWordRest x = false) (point : x ≠ '.')

include outside

theorem isDigit_eq_false_of_isWordRest : x.isDigit = false := by
  simp only [isWordRest, Char.isAlphanum, Bool.or_eq_false_iff] at outside
  exact outside.2.2

theorem isHexDigit_eq_false_of_isWordRest : isHexDigit x = false := by
  have digit := isDigit_eq_false_of_isWordRest outside
  delta isWordRest Char.isAlphanum Char.isAlpha Char.isUpper Char.isLower at outside
  simp only [Bool.or_eq_false_iff] at outside
  simp only [isHexDigit, digit, Bool.or_eq_false_iff, Bool.and_eq_false_iff,
    decide_eq_false_iff_not]
  simp only [Char.le_def, decide_eq_false_iff_not, ge_iff_le, Bool.and_eq_false_iff] at outside ⊢
  grind

include point

theorem notMem_scanDecimal (cs : List Char) : x ∉ cs.take (scanDecimal cs).length := by
  have digit := isDigit_eq_false_of_isWordRest outside
  have digits : x ∉ cs.take (run Char.isDigit cs) := by
    rw [take_run]
    exact mt List.mem_takeWhile_imp (Bool.eq_false_iff.mp digit)
  unfold scanDecimal
  dsimp only
  split
  · rename_i d rest behind
    split
    · rename_i isDigit
      have fraction : x ∉ ('.' :: d :: rest).take (run Char.isDigit rest + 2) := by
        rw [List.take_succ_cons, List.take_succ_cons, take_run, List.mem_cons, List.mem_cons]
        have first := (ne_of_class isDigit digit).symm
        have others : x ∉ rest.takeWhile Char.isDigit :=
          mt List.mem_takeWhile_imp (Bool.eq_false_iff.mp digit)
        simp [point, first, others]
      rw [Nat.add_assoc, Nat.add_comm 2, List.take_add, behind, List.mem_append]
      exact not_or.mpr ⟨digits, fraction⟩
    · exact digits
  · exact digits

omit point

theorem notMem_scanHex {mark : Char} (hx : isWordRest mark = true) (cs : List Char) :
    x ∉ ('0' :: mark :: cs).take (scanHex cs).length := by
  have zero : '0' ≠ x := ne_of_class rfl outside
  have marked : mark ≠ x := ne_of_class hx outside
  unfold scanHex
  split
  · simp [marked.symm, zero.symm]
  · have digit := isHexDigit_eq_false_of_isWordRest outside
    have digits : x ∉ cs.takeWhile isHexDigit :=
      mt List.mem_takeWhile_imp (Bool.eq_false_iff.mp digit)
    rw [List.take_succ_cons, List.take_succ_cons, take_run]
    simp [marked.symm, zero.symm, digits]

include point

theorem notMem_scanNumber (c : Char) (cs : List Char) :
    x ∉ (c :: cs).take (scanNumber c cs).length := by
  unfold scanNumber
  split
  · exact notMem_scanHex outside rfl _
  · exact notMem_scanHex outside rfl _
  · exact notMem_scanDecimal outside point (c :: cs)

omit point

theorem notMem_scanWord (cs : List Char) : x ∉ cs.take (scanWord cs).length := by
  rw [scanWord]
  dsimp only
  rw [take_run]
  exact mt List.mem_takeWhile_imp (Bool.eq_false_iff.mp outside)

end outside

theorem isPlain_of_symbol? {cs : List Char} {kind : TokenKind} (h : symbol? cs = some kind) :
    kind.isPlain = false := by
  have known : ∀ k ∈ TokenKind.symbols, k.isPlain = false := by decide
  exact known kind (List.mem_of_find?_eq_some h)

theorem scan_cases (c : Char) (cs : List Char) :
    (isSpace c = true ∧ scan c cs = ⟨.gap, 1 + run isSpace cs⟩) ∨
    ((c = '"' ∨ c = '\'') ∧ scan c cs = scanString c cs) ∨
    (c.isDigit = true ∧ scan c cs = scanNumber c cs) ∨
    (isWordStart c = true ∧ scan c cs = scanWord (c :: cs)) ∨
    (∃ rest, c :: cs = '/' :: '/' :: rest ∧ scan c cs = scanLineComment (c :: cs)) ∨
    (∃ rest, c :: cs = '/' :: '*' :: rest ∧ scan c cs = scanBlockComment rest) ∨
    scan c cs = scanSymbol c cs := by
  unfold scan
  split
  next blank => exact .inl ⟨blank, rfl⟩
  split
  next quote => exact .inr (.inl ⟨quote, rfl⟩)
  split
  next digit => exact .inr (.inr (.inl ⟨digit, rfl⟩))
  split
  next start => exact .inr (.inr (.inr (.inl ⟨start, rfl⟩)))
  split
  · exact .inr (.inr (.inr (.inr (.inl ⟨_, rfl, rfl⟩))))
  · exact .inr (.inr (.inr (.inr (.inr (.inl ⟨_, rfl, rfl⟩)))))
  · exact .inr (.inr (.inr (.inr (.inr (.inr rfl)))))

theorem scan_of_isPlain {c : Char} {cs : List Char} {kind : TokenKind}
    (h : (scan c cs).piece = .token kind) (plain : kind.isPlain = true) :
    (c.isDigit = true ∧ scan c cs = scanNumber c cs) ∨
      (isWordStart c = true ∧ scan c cs = scanWord (c :: cs)) := by
  rcases scan_cases c cs with ⟨-, same⟩ | ⟨-, same⟩ | number | word | ⟨_, -, same⟩ |
    ⟨_, -, same⟩ | same
  · rw [same] at h
    cases h
  · rw [same, scanString] at h
    split at h
    · cases h
      cases plain
    · cases h
  · exact .inl number
  · exact .inr word
  · rw [same, scanLineComment] at h
    dsimp only at h
    split at h
    · cases h
      cases plain
    · cases h
  · rw [same, scanBlockComment] at h
    split at h <;> cases h
  · rw [same, scanSymbol] at h
    split at h
    next found =>
      cases h
      rw [isPlain_of_symbol? found] at plain
      cases plain
    · cases h

theorem zero_notMem_scan {c : Char} {cs : List Char} {kind : TokenKind}
    (h : (scan c cs).piece = .token kind) (plain : kind.isPlain = true) :
    '\x00' ∉ (c :: cs).take (scan c cs).length := by
  rcases scan_of_isPlain h plain with ⟨_, number⟩ | ⟨_, word⟩
  · rw [number]
    exact notMem_scanNumber rfl (by decide) c cs
  · rw [word]
    exact notMem_scanWord rfl (c :: cs)

end Lexer

/-- Names and numbers of a source text have no zero character. -/
theorem zeroFree_of_mem_tokenize {source : String} {t : Token} (h : .ok t ∈ tokenize source) :
    t.kind.isPlain = true → Text.ZeroFree t.text := by
  refine of_mem_tokenize (T := fun t => t.kind.isPlain = true → Text.ZeroFree t.text)
    (fun _ => nofun) ?_ h
  intro c cs kind span found plain
  rw [Text.ZeroFree, String.toList_ofList]
  exact Lexer.zero_notMem_scan found plain

end GraalScript
