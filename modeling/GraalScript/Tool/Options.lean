/-! What the command line asks for. -/
namespace GraalScript.Tool

inductive Mode where
  | compile
  /-- Print the tokens of a source. -/
  | tokens
  /-- Print the listing of an image. -/
  | disassemble
  deriving DecidableEq, Repr

structure Options where
  inputs : List String
  output : Option String
  scriptType : Option String
  scriptName : Option String
  noHeader : Bool
  config : Option String
  mode : Mode
  verbose : Bool
  deriving DecidableEq, Repr

namespace Options

def initial : Options := ⟨[], none, none, none, false, none, .compile, false⟩

def setting? (arg : String) : Option (String → Options → Options) :=
  match arg with
  | "-o" | "--output" => some fun v o => { o with output := some v }
  | "-t" | "--type" => some fun v o => { o with scriptType := some v }
  | "-n" | "--name" => some fun v o => { o with scriptName := some v }
  | "-c" | "--config" => some fun v o => { o with config := some v }
  | _ => none

def flag? (arg : String) : Option (Options → Options) :=
  match arg with
  | "--no-header" => some fun o => { o with noHeader := true }
  | "--tokens" => some fun o => { o with mode := .tokens }
  | "--dis" => some fun o => { o with mode := .disassemble }
  | "-v" | "--verbose" => some fun o => { o with verbose := true }
  | _ => none

def isDashed (arg : String) : Bool := arg.toList.head? = some '-'

/-- Reads arguments on top of the options so far. There is none for a request for help, an unknown
option, an option without its value, and a line without inputs. -/
def parseFrom (o : Options) (args : List String) : Option Options :=
  match args with
  | [] => if o.inputs.isEmpty then none else some { o with inputs := o.inputs.reverse }
  | arg :: rest =>
    match setting? arg with
    | some set =>
      match rest with
      | [] => none
      | value :: rest => if isDashed value then none else parseFrom (set value o) rest
    | none =>
      match flag? arg with
      | some set => parseFrom (set o) rest
      | none => if isDashed arg then none else parseFrom { o with inputs := arg :: o.inputs } rest

def parse (args : List String) : Option Options := parseFrom initial args

end Options

def usageLines : List String :=
  ["gs2c v0.1.0",
   "",
   "usage: gs2c [OPTIONS] INPUT...",
   "",
   "options:",
   "    -o, --output PATH     output file (single input) or directory",
   "    -t, --type TYPE       script type for the header (default weapon)",
   "    -n, --name NAME       script name (default: input file stem)",
   "        --no-header       compile without header",
   "    -c, --config PATH     YAML compiler configuration",
   "        --tokens          print the token stream instead of compiling",
   "        --dis             disassemble an existing .gs2bc image",
   "    -v, --verbose         debug logging",
   "",
   "examples:",
   "    gs2c weapons/",
   "    gs2c -t npc -n Banker banker.gs2 -o banker.gs2bc",
   "    gs2c --dis banker.gs2bc",
   ""]

def usage : String := String.join (usageLines.map (· ++ "\n"))

end GraalScript.Tool
