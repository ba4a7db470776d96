import GraalScript.Code.Opcode

/-! Commands and object methods that compile to an operation of their own, and the names that every
script can use. -/
namespace GraalScript

/-- How a call is laid out. -/
structure CallStyle where
  /-- The arguments are passed in an array. -/
  useArray : Bool
  /-- The last argument is pushed first. -/
  reverseArgs : Bool
  /-- The call leaves a value. -/
  returnsValue : Bool
  /-- The object is pushed before the arguments. -/
  objectFirst : Bool
  deriving DecidableEq, Repr

namespace CallStyle

def plain : CallStyle := ⟨false, false, false, false⟩

/-- Arguments in reverse, and a value. -/
def query : CallStyle := { plain with reverseArgs := true, returnsValue := true }

def arrayCall : CallStyle := { query with useArray := true }

def value : CallStyle := { plain with returnsValue := true }

def objectQuery : CallStyle := { value with objectFirst := true }

def objectEdit : CallStyle := { plain with reverseArgs := true, objectFirst := true }

def objectPush : CallStyle := { plain with objectFirst := true }

def bits (s : CallStyle) : Nat :=
  s.useArray.toNat + 2 * s.reverseArgs.toNat + 4 * s.returnsValue.toNat + 8 * s.objectFirst.toNat

end CallStyle

structure Command where
  op : Opcode
  /-- The conversion of the object that a method is called on. -/
  convert : Option Opcode := none
  style : CallStyle := .query
  deriving DecidableEq, Repr

namespace Command

def scriptCall : Command := { op := .call, style := .arrayCall }

def methodCall : Command := { op := .call, convert := some .convToObject, style := .arrayCall }

/-- The commands that are called by their bare name. -/
def functions : List (String × Command) :=
  [("sleep", { op := .sleep, style := .plain }),
   ("sin", { op := .sin }),
   ("char", { op := .char }),
   ("cos", { op := .cos }),
   ("arctan", { op := .arctan }),
   ("vecx", { op := .vecX }),
   ("vecy", { op := .vecY }),
   ("abs", { op := .abs }),
   ("exp", { op := .exp }),
   ("log", { op := .log }),
   ("min", { op := .min }),
   ("max", { op := .max }),
   ("pow", { op := .pow, style := .value }),
   ("random", { op := .random }),
   ("arraylen", { op := .objSize }),
   ("sarraylen", { op := .objSize }),
   ("setarray", { op := .setArray, style := .plain }),
   ("getangle", { op := .getAngle, style := .value }),
   ("getdir", { op := .getDir, style := .value }),
   ("format", { op := .format, style := .arrayCall }),
   ("makevar", { op := .makeVar, convert := some .convToString })]

def methods : List (String × Command) :=
  [("index", { op := .objIndex, convert := some .convToObject, style := .objectQuery }),
   ("type", { op := .objType, convert := some .convToObject }),
   ("indices", { op := .objIndices }),
   ("link", { op := .objLink }),
   ("trim", { op := .objTrim, convert := some .convToString }),
   ("length", { op := .objLength, convert := some .convToString }),
   ("pos", { op := .objPos, convert := some .convToString, style := .objectQuery }),
   ("charat", { op := .objCharAt, convert := some .convToString, style := .objectQuery }),
   ("substring", { op := .objSubstr, convert := some .convToString, style := .objectQuery }),
   ("starts", { op := .objStarts, convert := some .convToString, style := .objectQuery }),
   ("ends", { op := .objEnds, convert := some .convToString, style := .objectQuery }),
   ("tokenize", { op := .objTokenize, convert := some .convToString, style := .objectQuery }),
   ("positions", { op := .objPositions, convert := some .convToString, style := .objectQuery }),
   ("size", { op := .objSize, convert := some .convToObject }),
   ("subarray", { op := .objSubarray }),
   ("clear", { op := .objClear, convert := some .convToObject, style := .plain }),
   ("add", { op := .objAddString, convert := some .convToObject, style := .objectPush }),
   ("delete", { op := .objDeleteString, convert := some .convToObject, style := .objectPush }),
   ("insert", { op := .objInsertString, convert := some .convToObject, style := .objectEdit }),
   ("remove", { op := .objRemoveString, convert := some .convToObject, style := .objectEdit }),
   ("replace", { op := .objReplaceString, convert := some .convToObject, style := .objectEdit })]

def function? (name : String) : Option Command := functions.lookup name

def method? (name : String) : Option Command := methods.lookup name

def coreFunctions : List String :=
  ["echo", "join", "settimer", "scheduleevent", "trigger", "triggerclient", "triggerserver",
   "waitfor", "setstring", "tokenize"]

def coreNames : List String :=
  ["this", "thiso", "player", "playero", "level", "temp", "params", "pi", "timevar", "timevar2"]

/-- What `tokenize` splits at when it is called without separators. -/
def defaultSeparators : String := " ,"

def isCoreFunction (name : String) : Bool :=
  (function? name).isSome || coreFunctions.contains name

def isCoreName (name : String) : Bool := coreNames.contains name

end Command

end GraalScript
