import GraalScript.Token.Lexer

/-! The tokens of a text one by one, up to a number that is never reached. -/
namespace GraalScript

namespace Cursor

/-- The first `n` tokens, or fewer if the source ends or a fault comes before. -/
def upTo : Nat → Cursor → List (Except LexError Token)
  | 0, _ => []
  | n + 1, cur =>
    match cur.next with
    | (.error e, _) => [.error e]
    | (.ok t, after) => if t.kind = .eos then [.ok t] else .ok t :: upTo n after

theorem collect_eq_upTo (n : Nat) (cur : Cursor) (seen : Array (Except LexError Token))
    (h : cur.rest.length < n) : (cur.collect seen).toList = seen.toList ++ upTo n cur := by
  induction n generalizing cur seen with
  | zero => exact absurd h (Nat.not_lt_zero _)
  | succ n ih =>
    unfold collect upTo
    split
    next e after next => simp [next]
    next t after next =>
      by_cases last : t.kind = .eos
      · simp [next, last]
      · have shorter := next_rest_lt next last
        simp [next, last, ih after _ (by omega)]

theorem upTo_eq {n m : Nat} {cur : Cursor} (hn : cur.rest.length < n) (hm : cur.rest.length < m) :
    cur.upTo n = cur.upTo m := by
  have first := collect_eq_upTo n cur #[] hn
  have second := collect_eq_upTo m cur #[] hm
  simpa using first.symm.trans second

section members

variable {T : Token → Prop} (ends : ∀ span, T ⟨.eos, "", span⟩)
  (cut : ∀ c cs kind span, (Lexer.scan c cs).piece = .token kind →
    T ⟨kind, String.ofList ((c :: cs).take (Lexer.scan c cs).length), span⟩)

include ends cut

theorem of_next {cur after : Cursor} {t : Token} (h : cur.next = (.ok t, after)) : T t := by
  fun_induction next cur with
  | case1 =>
    cases h
    exact ends _
  | case2 c cs pos lexeme after' _ ih => exact ih h
  | case3 c cs pos lexeme after' kind found =>
    rw [Prod.mk.injEq, Except.ok.injEq] at h
    obtain ⟨rfl, -⟩ := h
    exact cut c cs kind _ found
  | case4 => cases h

theorem of_mem_upTo (n : Nat) (cur : Cursor) {t : Token} (h : .ok t ∈ upTo n cur) : T t := by
  induction n generalizing cur with
  | zero => cases h
  | succ n ih =>
    unfold upTo at h
    split at h
    · simp at h
    next u after next =>
      have new : T u := of_next ends cut next
      split at h
      · cases List.mem_singleton.mp h
        exact new
      · rcases List.mem_cons.mp h with same | later
        · cases same
          exact new
        · exact ih after later

end members

end Cursor

/-- Each token takes at least one character, so there is no more than one for each and the end. -/
theorem tokenize_eq_upTo (source : String) :
    tokenize source = (Cursor.ofText source).upTo (source.toList.length + 1) := by
  rw [tokenize, Cursor.collect_eq_upTo _ _ _ (Nat.lt_succ_self _)]
  rfl

theorem of_mem_tokenize {T : Token → Prop} (ends : ∀ span, T ⟨.eos, "", span⟩)
    (cut : ∀ c cs kind span, (Lexer.scan c cs).piece = .token kind →
      T ⟨kind, String.ofList ((c :: cs).take (Lexer.scan c cs).length), span⟩)
    {source : String} {t : Token} (h : .ok t ∈ tokenize source) : T t := by
  rw [tokenize_eq_upTo] at h
  exact Cursor.of_mem_upTo ends cut _ _ h

end GraalScript
