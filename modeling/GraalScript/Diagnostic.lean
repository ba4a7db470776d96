import GraalScript.Code.Image
import GraalScript.Header
import GraalScript.Scope.Basic
import GraalScript.Text.Source
import GraalScript.Tree.Error

/-! Failures of a compilation, and the messages shown for them. -/
namespace GraalScript

inductive ErrorKind where
  | lex | parse | unresolvedReference | duplicateDeclaration | unknownScriptType | nestingTooDeep
  /-- A failure that the script is not to blame for. -/
  | internal
  deriving DecidableEq, Repr

namespace ErrorKind

def all : List ErrorKind :=
  [lex, parse, unresolvedReference, duplicateDeclaration, unknownScriptType,
    nestingTooDeep, internal]

def text : ErrorKind → String
  | lex => "lex error"
  | parse => "parse error"
  | unresolvedReference => "unresolved reference"
  | duplicateDeclaration => "duplicate declaration"
  | unknownScriptType => "unknown script type"
  | nestingTooDeep => "nesting too deep"
  | internal => "internal error"

def isMalformedInput (k : ErrorKind) : Bool := k != internal

end ErrorKind

/-- The first failure of a compilation. Line zero stands for no line at all. -/
structure CompileError where
  kind : ErrorKind
  line : Nat
  detail : String
  deriving DecidableEq, Repr

namespace CompileError

def text (e : CompileError) : String := e.kind.text ++ ": " ++ e.detail

def ofHeader (e : HeaderError) : CompileError := ⟨.unknownScriptType, 0, e.message⟩

def parseKind : ParseError → ErrorKind
  | .token (.lex _) => .lex
  | .nestingTooDeep .. => .nestingTooDeep
  | _ => .parse

def ofParse (e : ParseError) : CompileError := ⟨parseKind e, e.line, e.message⟩

def resolveKind : ResolveError → ErrorKind
  | .unresolved .. => .unresolvedReference
  | .duplicate .. => .duplicateDeclaration
  | .notConstant .. => .parse

def ofResolve (e : ResolveError) : CompileError := ⟨resolveKind e, e.line, e.message⟩

def ofCode (e : CodeError) : CompileError := ⟨.internal, 0, e.message⟩

end CompileError

structure Diagnostic where
  kind : ErrorKind
  line : Nat
  message : String
  deriving DecidableEq, Repr

/-- Shows the line at fault. An internal failure has none and is shown by its cause. -/
def CompileError.diagnostic (e : CompileError) (source : Source) : Diagnostic where
  kind := e.kind
  line := e.line
  message :=
    if e.kind.isMalformedInput then
      s!"malformed input at line {e.line}: " ++ source.line e.line ++ "\n"
    else "internal compiler error: " ++ e.detail ++ "\n"

end GraalScript
