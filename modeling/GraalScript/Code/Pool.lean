import Std.Data.TreeMap

/-! Texts that instructions refer to by number. Equal texts share a number. -/
namespace GraalScript

structure Pool where
  texts : Array String
  /-- The number of each text. -/
  index : Std.TreeMap String Nat
  index_eq_some_iff : ∀ (text : String) (k : Nat), index[text]? = some k ↔ texts[k]? = some text

namespace Pool

def empty : Pool where
  texts := #[]
  index := ∅
  index_eq_some_iff := by simp

/-- The number of a text, and the pool that has the text at that number. -/
def intern (p : Pool) (text : String) : Nat × Pool :=
  match h : p.index[text]? with
  | some k => (k, p)
  | none => (p.texts.size, {
      texts := p.texts.push text
      index := p.index.insert text p.texts.size
      index_eq_some_iff := by
        intro t k
        simp only [Std.TreeMap.getElem?_insert, Array.getElem?_push, Std.compare_eq_iff_eq]
        by_cases ht : text = t
        · subst ht
          have fresh := p.index_eq_some_iff text k
          rw [h] at fresh
          by_cases hk : k = p.texts.size <;> simp_all [eq_comm]
        · have old := p.index_eq_some_iff t k
          by_cases hk : k = p.texts.size <;> simp_all })

def toList (p : Pool) : List String := p.texts.toList

theorem texts_intern (p : Pool) (text : String) :
    (p.intern text).2.texts[(p.intern text).1]? = some text := by
  unfold intern
  split
  next k h => exact (p.index_eq_some_iff text k).mp h
  next => simp

theorem texts_intern_of_texts {p : Pool} {k : Nat} {old : String} (h : p.texts[k]? = some old)
    (text : String) : (p.intern text).2.texts[k]? = some old := by
  unfold intern
  split
  next => exact h
  next =>
    obtain ⟨hk, _⟩ := Array.getElem?_eq_some_iff.mp h
    simpa [Array.getElem?_push, Nat.ne_of_lt hk] using h

theorem eq_of_texts_eq {p : Pool} {i j : Nat} {text : String} (hi : p.texts[i]? = some text)
    (hj : p.texts[j]? = some text) : i = j :=
  Option.some.inj (((p.index_eq_some_iff text i).mpr hi).symm.trans
    ((p.index_eq_some_iff text j).mpr hj))

end Pool

end GraalScript
