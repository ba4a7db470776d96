/-! Texts as bytes and back. Reading is strict, or replaces every stretch of bytes that begins no
character. -/
namespace GraalScript.Text

def bytes (s : String) : List UInt8 := s.toUTF8.data.toList

def ofBytes? (bs : List UInt8) : Option String := String.fromUTF8? ⟨bs.toArray⟩

def slice? (s : String) (start stop : Nat) : Option String :=
  let bs := bytes s
  if start ≤ stop && stop ≤ bs.length && (ofBytes? (bs.take start)).isSome then
    ofBytes? ((bs.take stop).drop start)
  else none

/-- The least and greatest value of each byte behind a first byte; nothing for a byte that cannot
come first. -/
def tailRanges (first : Nat) : Option (List (Nat × Nat)) :=
  let any := (0x80, 0xBF)
  if first < 0x80 then some []
  else if first < 0xC2 then none
  else if first < 0xE0 then some [any]
  else if first = 0xE0 then some [(0xA0, 0xBF), any]
  else if first = 0xED then some [(0x80, 0x9F), any]
  else if first < 0xF0 then some [any, any]
  else if first = 0xF0 then some [(0x90, 0xBF), any, any]
  else if first < 0xF4 then some [any, any, any]
  else if first = 0xF4 then some [(0x80, 0x8F), any, any]
  else none

def leadBits (first : Nat) : Nat :=
  if first < 0x80 then first
  else if first < 0xE0 then first % 0x20
  else if first < 0xF0 then first % 0x10
  else first % 0x08

/-- Reads bytes in the given ranges onto the code point `value`. Gives the code point, or nothing
when a byte does not fit, and the number of bytes that fit. -/
def readTail (value : Nat) : List (Nat × Nat) → List UInt8 → Option Nat × Nat
  | [], _ => (some value, 0)
  | _ :: _, [] => (none, 0)
  | (lo, hi) :: ranges, b :: bs =>
    if lo ≤ b.toNat ∧ b.toNat ≤ hi then
      let (result, n) := readTail (value * 0x40 + b.toNat % 0x40) ranges bs
      (result, n + 1)
    else (none, 0)

def replacement : Char := '�'

/-- The first character, or the replacement of the bytes that could have begun one, and the number
of bytes behind the first that it takes. -/
def readChar (first : UInt8) (bs : List UInt8) : Char × Nat :=
  match tailRanges first.toNat with
  | none => (replacement, 0)
  | some ranges =>
    let (value, n) := readTail (leadBits first.toNat) ranges bs
    (value.elim replacement Char.ofNat, n)

def lossyOnto (done : List Char) : List UInt8 → List Char
  | [] => done.reverse
  | b :: bs =>
    let (c, n) := readChar b bs
    lossyOnto (c :: done) (bs.drop n)
termination_by bs => bs.length
decreasing_by
  simp only [List.length_drop, List.length_cons]
  omega

def ofBytesLossy (bs : List UInt8) : String := String.ofList (lossyOnto [] bs)

end GraalScript.Text
