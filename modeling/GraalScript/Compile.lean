import GraalScript.Diagnostic
import GraalScript.Generate.Stmt
import GraalScript.Scope.Resolve
import GraalScript.Tree.Parser.Stmt

/-! From a source text to its image. -/
namespace GraalScript

structure Settings where
  /-- How deep blocks and expressions may stand inside each other. -/
  maxNesting : Nat
  /-- The flag that a prologue carries. -/
  saveToDisk : Bool
  deriving DecidableEq, Repr

namespace Settings

def default : Settings := ⟨Stream.defaultLimit, true⟩

end Settings

structure ScriptId where
  type : String
  name : String
  deriving DecidableEq, Repr

namespace Header

/-- The header of a script that is compiled for no host: no prologue and no names. -/
def none : Header := ⟨[], .empty⟩

def ofScript (settings : Settings) : Option ScriptId → Except HeaderError Header
  | .none => .ok none
  | some script => make ScriptType.all settings.saveToDisk script.type script.name

end Header

namespace Program

def parse (source : String) (limit : Nat) : Except ParseError Program :=
  (Parser.program.run (Stream.ofText source limit)).1

end Program

/-- All that a compilation leaves: the tree if the text could be read, with names bound if they
could be, the symbols if they could be, and the output or the first failure. -/
structure Compilation where
  program? : Option Program
  symbols? : Option SymbolTable
  result : Except CompileError Output

/-- Compiles a text; with a script's type and name, for a host. The header comes first, so what is
wrong with it hides what is wrong with the text. -/
def compile (settings : Settings) (script : Option ScriptId) (source : String) : Compilation :=
  match Header.ofScript settings script with
  | .error e => ⟨none, none, .error (.ofHeader e)⟩
  | .ok header =>
    match Program.parse source settings.maxNesting with
    | .error e => ⟨none, none, .error (.ofParse e)⟩
    | .ok program =>
      match program.resolve header.env with
      | .error e => ⟨some program, none, .error (.ofResolve e)⟩
      | .ok (bound, symbols) =>
        ⟨some bound, some symbols, (bound.generate header.prologue).mapError .ofCode⟩

end GraalScript
