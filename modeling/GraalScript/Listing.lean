import GraalScript.Code.Decode
import GraalScript.Token.Lexer

/-! The tokens of a source text and the contents of an image as readable tables. -/
namespace GraalScript

namespace Text

def blanks (n : Nat) : String := String.ofList (List.replicate n ' ')

def alignLeft (width : Nat) (s : String) : String := s ++ blanks (width - s.length)

def alignRight (width : Nat) (s : String) : String := blanks (width - s.length) ++ s

/-- Upper case hexadecimal with at least four digits. -/
def hex4 (n : Nat) : String :=
  let digits := (Nat.toDigits 16 n).map Char.toUpper
  String.ofList (List.replicate (4 - digits.length) '0' ++ digits)

end Text

def Token.row (t : Token) : String :=
  let place := s!"{t.line}:{t.span.startColumn}"
  let span := s!"{t.span.start.byte}-{t.span.stop.byte}"
  Text.alignLeft 10 place ++ " | " ++ Text.alignLeft 9 span ++ " | "
    ++ Text.alignLeft 20 t.kind.label ++ " | " ++ t.text

/-- A line for each token, or for the error that ends the text. -/
def tokenListing (source : String) : String :=
  let rows := (tokenize source).map fun
    | .ok t => t.row
    | .error e => e.message
  let head := [s!"Source Byte Count: {source.utf8ByteSize}",
    "line:col   | span      | token                | fragment"]
  String.join ((head ++ rows).map (· ++ "\n"))

namespace Operand

def listing (strings : Array String) : Operand → String
  | int value => s!"{value.toNat}"
  | float text => text
  | pool id => s!"#{id.toNat} " ++ (strings[id.toNat]?.elim "?" Text.quoted)

end Operand

namespace Image

def entry (n : Nat) (text : String) : String :=
  "  " ++ Text.alignRight 5 (toString n) ++ " " ++ text

def instrEntry (strings : Array String) (i : Instr.Located) : String :=
  entry i.index (Text.hex4 i.offset ++ ": " ++ i.instr.op.mnemonic
    ++ i.instr.operand.elim "" (" " ++ ·.listing strings))

def listing (image : Image) : Except DecodeError String := do
  let code ← Instr.decode image.code
  let header := image.header.elim [] fun bytes => ["header: " ++ Text.ofBytesLossy bytes]
  let functions := image.functions.map fun f => entry f.opIndex.toNat f.name
  let strings := image.strings.zipIdx.map fun (text, n) => entry n (Text.quoted text)
  let pool := image.strings.toArray
  let instrs := code.map (instrEntry pool)
  let lines := header ++ ["functions:"] ++ functions ++ ["strings:"] ++ strings ++
    ["code:"] ++ instrs
  return String.join (lines.map (· ++ "\n"))

end Image

def imageListing (bytes : List UInt8) : Except DecodeError String := do (← Image.read bytes).listing

end GraalScript
