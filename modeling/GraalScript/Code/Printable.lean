/-! Numbers written in printable bytes: every byte is moved up by 32, and a short holds seven bits
in its low byte. -/
namespace GraalScript.Printable

def maxShort : Nat := 28767

/-- A single byte. From 223 on there is no room above, and the byte stays as it is. -/
def byte (n : UInt8) : UInt8 := if n < 223 then n + 32 else n

/-- Two bytes, for numbers up to `maxShort`; a larger one is written as `maxShort`. -/
def short (n : UInt16) : List UInt8 :=
  let value := min n.toNat maxShort
  let high := min (value / 128) 223
  [.ofNat (high + 32), .ofNat (value - high * 128 + 32)]

def short? : List UInt8 → Option UInt16
  | a :: b :: _ =>
    if 32 ≤ a ∧ 32 ≤ b then some (.ofNat ((a.toNat - 32) * 128 + (b.toNat - 32))) else none
  | _ => none

theorem short?_short (n : UInt16) (rest : List UInt8) (h : n.toNat ≤ maxShort) :
    short? (short n ++ rest) = some n := by
  have bound := n.toNat_lt
  simp only [maxShort] at h
  have high : ∀ k : Nat, k ≤ 223 → (32 : UInt8) ≤ UInt8.ofNat (k + 32) := by
    intro k hk
    rw [UInt8.le_iff_toNat_le, UInt8.toNat_ofNat']
    have : (32 : UInt8).toNat = 32 := rfl
    omega
  have first := high (min (n.toNat / 128) 223) (by omega)
  have second := high (n.toNat - min (n.toNat / 128) 223 * 128) (by omega)
  simp only [short, short?, maxShort, List.cons_append, Nat.min_eq_left h, first, second, and_self,
    if_true, UInt8.toNat_ofNat', Option.some.injEq]
  apply UInt16.toNat_inj.mp
  rw [UInt16.toNat_ofNat']
  omega

end GraalScript.Printable
