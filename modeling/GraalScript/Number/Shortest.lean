import GraalScript.Number.Dyadic

/-! The shortest decimal number that reads back as a given double, and its text. A double stands for
all numbers nearer to it than to any other double; the grids of ever smaller powers of ten are
searched for the first one with a point in that interval. -/
namespace GraalScript.Number

structure Decimal where
  digits : Nat
  exponent : Int
  deriving DecidableEq, Repr

def digitCount (n : Nat) : Nat := (Nat.toDigits 10 n).length

def leadingExponent (m : Nat) (q : Int) : Int :=
  let num := m * Nat.pow 2 q.toNat
  let den := Nat.pow 2 (-q).toNat
  if den ≤ num then digitCount (num / den) - 1
  else
    let d := digitCount (den / num)
    if den ≤ num * Nat.pow 10 (d - 1) then 1 - d else -d

/-- The ends, in quarters of `2 ^ q`, of the numbers that round to `m · 2 ^ q`. Below a power of two
doubles lie twice as close. -/
def roundingEnds (m : Nat) (q : Int) : Nat × Nat :=
  if m = Nat.pow 2 Dyadic.fractionBits ∧ Dyadic.leastExponent < q then (4 * m - 1, 4 * m + 2)
  else (4 * m - 2, 4 * m + 2)

/-- The multiple of `10 ^ k` nearest to `m · 2 ^ q` among those that round to it, of two equally
near ones the larger. -/
def gridPoint? (m : Nat) (q k : Int) : Option Nat :=
  let unit := Nat.pow 10 k.toNat * Nat.pow 2 (2 - q).toNat
  let scale := Nat.pow 2 (q - 2).toNat * Nat.pow 10 (-k).toNat
  let (lo, hi) := roundingEnds m q
  let value := 4 * m * scale
  let below := value / unit
  let rounds (n : Nat) : Bool :=
    if m % 2 = 0 then lo * scale ≤ n * unit && n * unit ≤ hi * scale
    else lo * scale < n * unit && n * unit < hi * scale
  match rounds below, rounds (below + 1) with
  | true, true =>
    some (if value - below * unit < (below + 1) * unit - value then below else below + 1)
  | true, false => some below
  | false, true => some (below + 1)
  | false, false => none

/-- The decimal with the fewest digits that rounds to `m · 2 ^ q`. Seventeen digits always do. -/
def shortest (m : Nat) (q : Int) : Decimal :=
  let e := leadingExponent m q
  let found := (List.range 17).findSome? fun (n : Nat) =>
    (gridPoint? m q (e - n)).map fun digits => (⟨digits, e - n⟩ : Decimal)
  found.getD ⟨m * Nat.pow 2 q.toNat * Nat.pow 5 (-q).toNat, min q 0⟩

namespace Decimal

def positional (d : Decimal) : String :=
  let digits := Nat.toDigits 10 d.digits
  if 0 ≤ d.exponent then String.ofList (digits ++ List.replicate d.exponent.toNat '0')
  else
    let places := (-d.exponent).toNat
    let padded := List.replicate (places + 1 - digits.length) '0' ++ digits
    let whole := padded.take (padded.length - places)
    let fraction := (padded.drop (padded.length - places)).reverse.dropWhile (· == '0') |>.reverse
    String.ofList (if fraction.isEmpty then whole else whole ++ '.' :: fraction)

end Decimal

def render (x : Float) : String :=
  let d := Dyadic.ofFloat x
  let magnitude := if d.mantissa = 0 then "0" else (shortest d.mantissa d.exponent).positional
  if d.negative then "-" ++ magnitude else magnitude

def read (text : String) : Float :=
  let cs := text.toList
  let value (digits : List Char) : Nat :=
    digits.foldl (fun n c => 10 * n + (c.toNat - '0'.toNat)) 0
  let fraction := (cs.dropWhile (· != '.')).drop 1
  Float.ofScientific (value (cs.filter (· != '.'))) true fraction.length

end GraalScript.Number
