/-! Source texts and their lines. Lines are counted from one and end before a line feed, and before
a carriage return that stands last on the line. -/
namespace GraalScript

namespace Text

def isBlank (c : Char) : Bool :=
  let n := c.toNat
  (0x09 ≤ n && n ≤ 0x0D) || n == 0x20 || n == 0x85 || n == 0xA0 || n == 0x1680
    || (0x2000 ≤ n && n ≤ 0x200A) || n == 0x2028 || n == 0x2029 || n == 0x202F
    || n == 0x205F || n == 0x3000

def isBlankText (s : String) : Bool := s.toList.all isBlank

end Text

structure Source where
  text : String
  lines : Array String
  deriving DecidableEq, Repr

namespace Source

def lineOf (reversed : List Char) : String :=
  match reversed with
  | '\r' :: rest => String.ofList rest.reverse
  | _ => String.ofList reversed.reverse

/-- The lines of some characters behind those in `done`; `current` has the start of the line in
reverse. -/
def linesOnto (done : Array String) (current : List Char) : List Char → Array String
  | [] => done.push (lineOf current)
  | '\n' :: cs => linesOnto (done.push (lineOf current)) [] cs
  | c :: cs => linesOnto done (c :: current) cs

def ofText (text : String) : Source := ⟨text, linesOnto #[] [] text.toList⟩

/-- No text at all, and so not even an empty line. -/
def absent : Source := ⟨"", #[]⟩

def lineCount (s : Source) : Nat := s.lines.size

def line (s : Source) (n : Nat) : String :=
  match n with
  | 0 => ""
  | n + 1 => s.lines[n]?.getD ""

def isBlank (s : Source) : Bool := Text.isBlankText s.text

end Source

end GraalScript
