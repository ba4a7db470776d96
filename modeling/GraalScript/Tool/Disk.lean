import GraalScript.Tool.Host
import GraalScript.Tool.Path
import Std.Data.TreeMap
import Std.Data.TreeSet

/-! A host whose files are values. Every file and directory is known by the parts of its path from
the root, joined by slashes. The root stands in directories that hold nothing else. -/
namespace GraalScript.Tool

structure Disk where
  files : Std.TreeMap String (List UInt8)
  directories : Std.TreeSet String

namespace Disk

def empty : Disk := ⟨∅, ∅⟩

def key (place : List String) : String := "/".intercalate place.reverse

def above : List String → List String
  | [] => [".."]
  | ".." :: rest => ".." :: ".." :: rest
  | _ :: rest => rest

def hasDirectory (d : Disk) (place : List String) : Bool :=
  place.all (· == "..") || d.directories.contains (key place)

def file? (d : Disk) (place : List String) : Option (List UInt8) := d.files[key place]?

def maxName : Nat := 255

def maxPath : Nat := 4095

/-- Steps from a place, which has to be a directory, to one of its parts. -/
def step (d : Disk) (place : List String) (part : String) : Except FileError (List String) :=
  if d.hasDirectory place then
    if part = "." then .ok place
    else if part = ".." then .ok (above place)
    else if maxName < part.utf8ByteSize then .error .nameTooLong
    else .ok (part :: place)
  else if (d.file? place).isSome then .error .notDirectory
  else .error .notFound

def follow (d : Disk) (path : String) : Except FileError (List String) :=
  if path.isEmpty then .error .notFound
  else if maxPath < path.utf8ByteSize then .error .nameTooLong
  else (Path.parts path).foldlM d.step []

/-- The place of something that is there. Behind a file there is no slash. -/
def locate (d : Disk) (path : String) : Except FileError (List String) := do
  let place ← d.follow path
  if Path.endsWithSlash path && (d.file? place).isSome then throw .notDirectory
  return place

def isDirectory (d : Disk) (path : String) : Bool :=
  match d.locate path with
  | .ok place => d.hasDirectory place
  | .error _ => false

def fileNames (d : Disk) (path : String) : Except FileError (List String) := do
  let place ← d.locate path
  if !d.hasDirectory place then throw .notFound
  return d.files.keys.filterMap fun file =>
    match (Path.parts file).reverse with
    | name :: directory => if directory = place then some name else none
    | [] => none

def read (d : Disk) (path : String) : Except FileError (List UInt8) := do
  let place ← d.locate path
  if d.hasDirectory place then throw .isDirectory
  match d.file? place with
  | some bytes => return bytes
  | none => throw .notFound

def write (d : Disk) (path : String) (bytes : List UInt8) : Except FileError Disk := do
  let place ← d.follow path
  if d.hasDirectory place || Path.endsWithSlash path then throw .isDirectory
  return { d with files := d.files.insert (key place) bytes }

def makeParts (d : Disk) (place : List String) : List String → Except FileError Disk
  | [] => .ok d
  | part :: rest => do
    let place ← d.step place part
    if (d.file? place).isSome then throw (if rest.isEmpty then .alreadyExists else .notDirectory)
    makeParts { d with directories := d.directories.insert (key place) } place rest

/-- Makes a directory and those it stands in. The empty path is there already. A directory that is
named by a dot inside it has to be there as well. -/
def makeDirectory (d : Disk) (path : String) : Except FileError Disk := do
  if path.isEmpty then return d
  if maxPath < path.utf8ByteSize then throw .nameTooLong
  let parts := Path.parts path
  if parts.getLast? = some "." then
    let named := (parts.reverse.dropWhile (· == ".")).reverse
    let d ← d.makeParts [] named.dropLast
    discard (d.locate path)
    return d
  d.makeParts [] parts

def addFile (d : Disk) (path : String) (bytes : List UInt8) : Except FileError Disk := do
  (← d.makeParts [] (Path.parts path).dropLast).write path bytes

def changes (before after : Disk) : List (String × List UInt8) :=
  after.files.toList.filter fun (path, bytes) =>
    (Path.parts path).head? != some ".." && before.files[path]? != some bytes

end Disk

structure Desk where
  disk : Disk
  output : String
  errors : String
  log : Array (LogLevel × String)

namespace Desk

def ofDisk (disk : Disk) : Desk := ⟨disk, "", "", #[]⟩

def save : Except FileError Disk → StateM Desk (Except FileError Unit)
  | .error e => return .error e
  | .ok disk => do
    modify fun d => { d with disk }
    return .ok ()

def host : Host (StateM Desk) where
  isDirectory path := return (← get).disk.isDirectory path
  fileNames path := return (← get).disk.fileNames path
  read path := return (← get).disk.read path
  write path bytes := do save ((← get).disk.write path bytes)
  makeDirectory path := do save ((← get).disk.makeDirectory path)
  print text := modify fun d => { d with output := d.output ++ text }
  printError text := modify fun d => { d with errors := d.errors ++ text }
  log level text := modify fun d => { d with log := d.log.push (level, text) }

end Desk

end GraalScript.Tool
