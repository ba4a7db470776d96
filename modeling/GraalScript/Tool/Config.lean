import GraalScript.Compile
import GraalScript.Text.Escape

/-! Configuration files. A file is `{}`, or a list of keys with their values, where the keys of the
compiler are indented under one of their own. -/
namespace GraalScript.Tool

structure Config where
  scriptType : Option String
  settings : Settings
  deriving DecidableEq, Repr

namespace Config

def default : Config := ⟨none, .default⟩

def trim (cs : List Char) : List Char :=
  ((cs.dropWhile (· == ' ')).reverse.dropWhile (· == ' ')).reverse

def keyValue (line : List Char) : String × String :=
  let key := line.takeWhile (· != ':')
  (String.ofList (trim key), String.ofList (trim (line.drop (key.length + 1))))

def readNat? (digits : String) : Option Nat :=
  if digits.toList ≠ [] && digits.toList.all Char.isDigit then
    some (digits.toList.foldl (fun n c => 10 * n + (c.toNat - '0'.toNat)) 0)
  else none

def isNull (value : String) : Bool := ["", "~", "null", "Null", "NULL"].contains value

def readBool? (value : String) : Option Bool :=
  if ["true", "True", "TRUE"].contains value then some true
  else if ["false", "False", "FALSE"].contains value then some false
  else none

/-- Reads one line; `inside` tells whether it may belong to the compiler. -/
def readLine (c : Config) (inside : Bool) (line : List Char) : Option (Config × Bool) :=
  let indented : Bool := line.head? == some ' '
  match indented, keyValue line with
  | false, ("script_type", value) =>
    some ({ c with scriptType := if isNull value then none else some value }, false)
  | false, ("compiler", "") => some (c, true)
  | false, ("compiler", "\x7b\x7d") => some (c, false)
  | true, ("max_nesting_depth", value) =>
    if inside then
      (readNat? value).map fun n =>
        ({ c with settings := { c.settings with maxNesting := n } }, true)
    else none
  | true, ("save_to_disk", value) =>
    if inside then
      (readBool? value).map fun b =>
        ({ c with settings := { c.settings with saveToDisk := b } }, true)
    else none
  | _, _ => none

def readLines (c : Config) (inside : Bool) : List (List Char) → Option Config
  | [] => some c
  | line :: rest =>
    match readLine c inside line with
    | none => none
    | some (c, inside) => readLines c inside rest

def parse? (text : String) : Option Config :=
  let lines := (Source.ofText text).lines.toList.filter (!Text.isBlankText ·)
  match lines.map String.toList with
  | [line] => if trim line = ['\x7b', '\x7d'] then some default else readLines default false [line]
  | lines => readLines default false lines

def description (c : Config) : String :=
  let type := c.scriptType.elim "None" fun type => "Some(" ++ Text.quoted type ++ ")"
  "ConfigFile \x7b script_type: " ++ type ++ ", compiler: CompilerConf \x7b max_nesting_depth: "
    ++ toString c.settings.maxNesting ++ ", save_to_disk: " ++ toString c.settings.saveToDisk
    ++ " \x7d \x7d"

end Config

end GraalScript.Tool
