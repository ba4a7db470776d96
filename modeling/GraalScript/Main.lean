import GraalScript.Tool.Run

/-! The command line tool on the files of the machine. -/
namespace GraalScript.Tool

def fileError : IO.Error → FileError
  | .alreadyExists .. => .alreadyExists
  | .inappropriateType _ code _ => if code = 21 then .isDirectory else .notDirectory
  | .invalidArgument .. => .nameTooLong
  | _ => .notFound

def attempt {α : Type} (action : IO α) : IO (Except FileError α) := do
  match ← action.toBaseIO with
  | .ok a => return .ok a
  | .error e => return .error (fileError e)

def machineIsDirectory (path : String) : IO Bool := do
  try (← IO.FS.realPath path).isDir
  catch _ => return false

def machineFileNames (path : String) : IO (List String) := do
  let entries ← (← IO.FS.realPath path).readDir
  let files ← entries.filterM fun entry => return !(← entry.path.isDir)
  return (files.map (·.fileName)).toList

def machine : Host IO where
  isDirectory := machineIsDirectory
  fileNames path := attempt (machineFileNames path)
  read path := attempt (return (← IO.FS.readBinFile path).data.toList)
  write path bytes := attempt (IO.FS.writeBinFile path ⟨bytes.toArray⟩)
  makeDirectory path := attempt (IO.FS.createDirAll path)
  print := IO.print
  printError := IO.eprint
  log level text := IO.println s!"{level.text} {text}"

end GraalScript.Tool

def main (args : List String) : IO UInt32 :=
  return (← GraalScript.Tool.run GraalScript.Tool.machine args).toUInt32
