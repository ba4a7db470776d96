/-! Finite binary floating point numbers as signed integers times powers of two, where their
remainder is computed without rounding. -/
namespace GraalScript.Number

/-- The number `± mantissa · 2 ^ exponent`. -/
structure Dyadic where
  negative : Bool
  mantissa : Nat
  exponent : Int
  deriving DecidableEq, Repr

namespace Dyadic

def leastExponent : Int := -1074

def fractionBits : Nat := 52

def ofFloat (x : Float) : Dyadic :=
  let bits := x.toBits.toNat
  let fraction := bits % Nat.pow 2 fractionBits
  let biased := bits / Nat.pow 2 fractionBits % 0x800
  let negative := bits / Nat.pow 2 63 = 1
  if biased = 0 then ⟨negative, fraction, leastExponent⟩
  else ⟨negative, fraction + Nat.pow 2 fractionBits, leastExponent + (biased - 1 : Nat)⟩

def toFloat (d : Dyadic) : Float :=
  let magnitude :=
    if 0 ≤ d.exponent then Float.ofScientific (d.mantissa * Nat.pow 2 d.exponent.toNat) false 0
    else Float.ofScientific (d.mantissa * Nat.pow 5 (-d.exponent).toNat) true (-d.exponent).toNat
  if d.negative then -magnitude else magnitude

/-- What is left of `a` after the whole multiples of `b` are taken away; it has the sign of `a`. -/
def rem (a b : Dyadic) : Dyadic :=
  let e := min a.exponent b.exponent
  let whole (d : Dyadic) : Nat := d.mantissa * Nat.pow 2 (d.exponent - e).toNat
  ⟨a.negative, whole a % whole b, e⟩

end Dyadic

def remainder (a b : Float) : Float := ((Dyadic.ofFloat a).rem (.ofFloat b)).toFloat

end GraalScript.Number
