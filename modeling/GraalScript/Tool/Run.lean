import GraalScript.Listing
import GraalScript.Session
import GraalScript.Tool.Config
import GraalScript.Tool.Host
import GraalScript.Tool.Options
import GraalScript.Tool.Path

/-! The command line tool, over any host. -/
namespace GraalScript.Tool

def sourceExtension : String := "gs2"

def imageExtension : String := "gs2bc"

def usageCode : UInt8 := 64

section host

variable {m : Type → Type} [Monad m] (host : Host m)

def readText (path : String) : ExceptT FileError m String := do
  match Text.ofBytes? (← ExceptT.mk (host.read path)) with
  | some text => return text
  | none => throw .invalidText

def logLine (options : Options) (level : LogLevel) (text : String) : ExceptT FileError m Unit := do
  if options.verbose || level == .error then host.log level text

def loadConfig (options : Options) : ExceptT FileError m Config :=
  match options.config with
  | none => return .default
  | some path => do
    match Config.parse? (← readText host path) with
    | none => throw .invalidConfig
    | some config =>
      logLine host options .debug ("loaded config " ++ config.description)
      return config

def sourcesIn (directory : String) (names : List String) : List String :=
  ((names.filter fun name => Path.extension? name == some sourceExtension).mergeSort).map
    (Path.join directory)

def expandInput (path : String) : ExceptT FileError m (List String) := do
  if ← host.isDirectory path then
    return sourcesIn path (← ExceptT.mk (host.fileNames path))
  else return [path]

/-- The file for an image. With several inputs the output is always a directory. -/
def outputPath (input : String) (several isDirectory : Bool) : Option String → String
  | none => Path.withExtension input imageExtension
  | some output =>
    if several || isDirectory then
      Path.withExtension (Path.join output (Path.stem input)) imageExtension
    else output

def prepareOutput (input : String) (several : Bool) (output : Option String) :
    ExceptT FileError m String := do
  match output with
  | none => return outputPath input several false none
  | some directory =>
    let isDirectory ← host.isDirectory directory
    if several || isDirectory then ExceptT.mk (host.makeDirectory directory)
    return outputPath input several isDirectory (some directory)

def scriptOf (options : Options) (config : Config) (input : String) : ScriptId where
  type := (options.scriptType <|> config.scriptType).getD "weapon"
  name := options.scriptName.getD (Path.stem input)

def compileFile (options : Options) (config : Config) (several : Bool) (input : String) :
    ExceptT FileError m Bool := do
  let text ← readText host input
  let script := scriptOf options config input
  unless options.noHeader do
    logLine host options .debug s!"compiling {input} as {script.type} '{script.name}'"
  let source := Source.ofText text
  match (compile config.settings (if options.noHeader then none else some script) text).result with
  | .ok output =>
    let path ← prepareOutput host input several options.output
    ExceptT.mk (host.write path output.image)
    logLine host options .info s!"{input} -> {path} ({output.image.length} bytes)"
    return true
  | .error e =>
    host.printError (input ++ ": " ++ (e.diagnostic source).message)
    return false

def printTokens (input : String) : ExceptT FileError m Bool := do
  host.print (tokenListing (← readText host input))
  return true

def printListing (options : Options) (input : String) : ExceptT FileError m Bool := do
  match imageListing (← ExceptT.mk (host.read input)) with
  | .ok listing =>
    host.print listing
    return true
  | .error e =>
    logLine host options .error s!"{input}: {e.message}"
    return false

/-- Works on all inputs in turn and gives the exit code. -/
def process (options : Options) : ExceptT FileError m UInt8 := do
  let config ← loadConfig host options
  let inputs := (← options.inputs.mapM (expandInput host)).flatten
  if inputs.isEmpty then
    logLine host options .error "no input files"
    return usageCode
  let several := decide (1 < inputs.length)
  let done ← inputs.mapM fun input =>
    match options.mode with
    | .compile => compileFile host options config several input
    | .tokens => printTokens host input
    | .disassemble => printListing host options input
  let failed := done.count false
  if failed = 0 then return 0
  logLine host options .error s!"{failed} of {inputs.length} files failed"
  return 1

def run (args : List String) : m UInt8 := do
  match Options.parse args with
  | none =>
    host.print usage
    return usageCode
  | some options =>
    match ← process host options with
    | .ok code => return code
    | .error e =>
      host.printError s!"Error: {e.text}\n"
      return 1

end host

end GraalScript.Tool
