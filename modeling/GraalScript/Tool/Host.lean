import GraalScript.Text.Utf8

/-! What the tool needs from the system it runs on. -/
namespace GraalScript.Tool

inductive FileError where
  | notFound | alreadyExists | notDirectory | isDirectory | nameTooLong
  /-- The contents of a file are no text. -/
  | invalidText
  | invalidConfig
  deriving DecidableEq, Repr

namespace FileError

def os (code : Nat) (kind message : String) : String :=
  s!"Os \x7b code: {code}, kind: {kind}, message: \"{message}\" \x7d"

def text : FileError → String
  | notFound => os 2 "NotFound" "No such file or directory"
  | alreadyExists => os 17 "AlreadyExists" "File exists"
  | notDirectory => os 20 "NotADirectory" "Not a directory"
  | isDirectory => os 21 "IsADirectory" "Is a directory"
  | nameTooLong => os 36 "InvalidFilename" "File name too long"
  | invalidText =>
    "Error \x7b kind: InvalidData, message: \"stream did not contain valid UTF-8\" \x7d"
  | invalidConfig => "Error(\"invalid configuration\")"

end FileError

inductive LogLevel where
  | error | info | debug
  deriving DecidableEq, Repr

def LogLevel.text : LogLevel → String
  | error => "ERROR"
  | info => "INFO"
  | debug => "DEBUG"

/-- Files, directories and output channels. -/
structure Host (m : Type → Type) where
  isDirectory : String → m Bool
  /-- The names of the files in a directory, in any order. -/
  fileNames : String → m (Except FileError (List String))
  read : String → m (Except FileError (List UInt8))
  write : String → List UInt8 → m (Except FileError Unit)
  /-- Makes a directory and those it stands in, as far as they are missing. -/
  makeDirectory : String → m (Except FileError Unit)
  print : String → m Unit
  printError : String → m Unit
  log : LogLevel → String → m Unit

end GraalScript.Tool
