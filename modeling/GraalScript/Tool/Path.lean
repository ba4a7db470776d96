/-! Names of files: paths whose parts are divided by slashes. Paths are texts; there is none here
for a name whose bytes are not a text. -/
namespace GraalScript.Path

/-- Drops slashes, and dots behind slashes, at the end of a path. Both are given in reverse. -/
def dropTail : List Char → List Char
  | '/' :: rest => dropTail rest
  | '.' :: '/' :: rest => dropTail rest
  | rest => rest

def split? (path : String) : Option (String × String) :=
  let reversed := dropTail path.toList.reverse
  let name := String.ofList (reversed.takeWhile (· != '/')).reverse
  if name = "" || name = "." || name = ".." then none
  else some (String.ofList (reversed.dropWhile (· != '/')).reverse, name)

/-- A name cut at its last dot, unless it has no dot but one at its start. -/
def cut (name : String) : String × Option String :=
  let reversed := name.toList.reverse
  match reversed.dropWhile (· != '.') with
  | [] | [_] => (name, none)
  | _ :: stem =>
    (String.ofList stem.reverse, some (String.ofList (reversed.takeWhile (· != '.')).reverse))

def stem (path : String) : String := (split? path).elim "" fun (_, name) => (cut name).1

def extension? (path : String) : Option String := (split? path).bind fun (_, name) => (cut name).2

def dropExtension (path : String) : String :=
  (extension? path).elim path fun ext =>
    String.ofList (path.toList.take (path.toList.length - ext.toList.length))

def setExtension (path ext : String) : String :=
  (split? path).elim path fun (directory, name) => directory ++ (cut name).1 ++ "." ++ ext

/-- Replaces the extension, or adds one. A name such as `..a` is the way up once its extension is
dropped, and gets none. -/
def withExtension (path ext : String) : String := setExtension (dropExtension path) ext

def endsWithSlash (path : String) : Bool := path.toList.getLast? = some '/'

def join (directory name : String) : String :=
  if directory = "" || endsWithSlash directory then directory ++ name
  else directory ++ "/" ++ name

/-- The parts of a path, without empty ones, behind those in `done`; `current` has the start of a
part. Both are kept in reverse. -/
def partsOnto (done : List String) (current : List Char) : List Char → List String
  | [] => (add done current).reverse
  | '/' :: cs => partsOnto (add done current) [] cs
  | c :: cs => partsOnto done (c :: current) cs
where
  add (done : List String) (current : List Char) : List String :=
    if current = [] then done else String.ofList current.reverse :: done

def parts (path : String) : List String := partsOnto [] [] path.toList

end GraalScript.Path
