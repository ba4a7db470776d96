import GraalScript.Compile

/-! A session compiles one script and keeps everything about it. -/
namespace GraalScript

inductive SessionError where
  | alreadyCompiled
  deriving DecidableEq, Repr

def SessionError.message : SessionError → String
  | alreadyCompiled => "context has already compiled a script"

abbrev Outcome := Except Diagnostic Output

structure Session where
  settings : Settings
  source : Source
  compilation? : Option Compilation

namespace Session

def new (settings : Settings) : Session := ⟨settings, .absent, none⟩

/-- Compiles a script, unless the session has compiled one already. -/
def compile (s : Session) (script : Option ScriptId) (text : String) :
    Except SessionError Session :=
  match s.compilation? with
  | some _ => .error .alreadyCompiled
  | none =>
    .ok { s with
      source := .ofText text
      compilation? := some (GraalScript.compile s.settings script text) }

def outcome? (s : Session) : Option Outcome :=
  s.compilation?.map fun c => c.result.mapError (·.diagnostic s.source)

def isCompiled (s : Session) : Bool := s.compilation?.isSome

def program? (s : Session) : Option Program := s.compilation?.bind (·.program?)

def symbols? (s : Session) : Option SymbolTable := s.compilation?.bind (·.symbols?)

end Session

end GraalScript
