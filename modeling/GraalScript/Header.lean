import GraalScript.Code.Printable
import GraalScript.Text.Utf8
import GraalScript.Token.Lexer

/-! Script types, the names that exist in the environment of a script, and the prologue that stands
before the image of a script compiled for a host. -/
namespace GraalScript

structure ScriptType where
  name : String
  varNames : List String
  funcNames : List String
  deriving DecidableEq, Repr

namespace ScriptType

def weapon : ScriptType where
  name := "weapon"
  varNames := ["client", "clientr", "server", "serverr", "allplayers"]
  funcNames := ["findplayer", "findweapon", "setani", "showimg", "hideimg"]

def npc : ScriptType where
  name := "npc"
  varNames := ["server", "serverr", "allplayers", "npcs", "x", "y"]
  funcNames := ["findplayer", "findnpc", "setcharprop", "setshape", "warpto"]

def joined : ScriptType where
  name := "class"
  varNames := ["server", "serverr"]
  funcNames := ["findplayer", "findnpc"]

def levelNpc : ScriptType where
  name := "levelnpc"
  varNames := ["server", "serverr", "npcs", "links", "signs", "chests", "x", "y"]
  funcNames := ["findplayer", "putnpc2", "setshape", "warpto"]

def all : List ScriptType := [weapon, npc, joined, levelNpc]

end ScriptType

/-- The names a script finds without declaring them. -/
structure Environment where
  scriptType : Option String
  varNames : List String
  funcNames : List String
  deriving DecidableEq, Repr

namespace Environment

def empty : Environment := ⟨none, [], []⟩

def hasVariable (env : Environment) (name : String) : Bool := env.varNames.contains name

def hasFunction (env : Environment) (name : String) : Bool := env.funcNames.contains name

end Environment

inductive HeaderError where
  | unknownScriptType (name : String)
  | invalidScriptName (name : String)
  /-- The section would be longer than its length field can say. -/
  | nameTooLong (length : Nat)
  deriving DecidableEq, Repr

def HeaderError.message : HeaderError → String
  | unknownScriptType name => s!"unknown script type '{name}'"
  | invalidScriptName name => s!"invalid script name '{name}'"
  | nameTooLong length => s!"header section of {length} bytes is too long"

structure Header where
  prologue : List UInt8
  env : Environment
  deriving DecidableEq, Repr

namespace Header

def keyLength : Nat := 10

def title (type name : String) (save : Bool) : String :=
  type ++ "," ++ name ++ "," ++ (if save then "1" else "0") ++ ","

def sectionLength (type name : String) : Nat :=
  type.utf8ByteSize + name.utf8ByteSize + 4 + keyLength

/-- The length of the section, the section, and the empty key. -/
def prologueOf (type name : String) (save : Bool) : List UInt8 :=
  Printable.short (.ofNat (sectionLength type name))
    ++ Text.bytes (title type name save)
    ++ List.replicate keyLength (Printable.byte 0)

def isIdentifier (name : String) : Bool :=
  match name.toList with
  | [] => false
  | c :: cs => Lexer.isWordStart c && cs.all Lexer.isWordRest

def environmentOf (type : ScriptType) (name : String) : Environment where
  scriptType := some type.name
  varNames :=
    if isIdentifier name && !type.varNames.contains name then type.varNames ++ [name]
    else type.varNames
  funcNames := type.funcNames

/-- The header of a script of one of the given types. The name stands in a list divided by commas,
so it has none. -/
def make (types : List ScriptType) (save : Bool) (type name : String) : Except HeaderError Header :=
  match types.find? (·.name == type) with
  | none => .error (.unknownScriptType type)
  | some found =>
    if name.isEmpty || name.toList.contains ',' then .error (.invalidScriptName name)
    else if Printable.maxShort < sectionLength found.name name then
      .error (.nameTooLong (sectionLength found.name name))
    else .ok ⟨prologueOf found.name name save, environmentOf found name⟩

end Header

end GraalScript
