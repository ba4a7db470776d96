import Std.Data.TreeMap
import GraalScript.Tree.Basic

/-! Symbols and scopes. The scopes of a program form a tree and are numbered in the order in which
they open; the program itself is scope zero. -/
namespace GraalScript

inductive ResolveError where
  /-- Read or called without a declaration. -/
  | unresolved (name : String) (line : Nat)
  /-- Declared twice in one scope, or assigned though constant. -/
  | duplicate (name : String) (line : Nat)
  | notConstant (name : String) (line : Nat)
  deriving DecidableEq, Repr

namespace ResolveError

def line : ResolveError → Nat
  | unresolved _ line | duplicate _ line | notConstant _ line => line

def message : ResolveError → String
  | unresolved name line => s!"unresolved reference '{name}' at line {line}"
  | duplicate name line => s!"duplicate declaration '{name}' at line {line}"
  | notConstant name line => s!"initializer of constant '{name}' is not constant at line {line}"

end ResolveError

inductive SymbolKind where
  | objectVar | localVar | param
  | constant (value : Constant)
  | func
  deriving DecidableEq

def SymbolKind.binding : SymbolKind → Binding
  | objectVar => .objectVar
  | localVar => .localVar
  | param => .param
  | constant value => .constant value
  | func => .func

structure Symbol where
  name : String
  kind : SymbolKind
  /-- Number of the scope that holds the symbol. -/
  scope : Nat
  line : Nat
  deriving DecidableEq

inductive ScopeKind where
  | program | function | block
  deriving DecidableEq, Repr

structure Scope where
  id : Nat
  parent : Option Nat
  kind : ScopeKind
  /-- The symbols, in the order of their names. -/
  symbols : Std.TreeMap String Symbol

namespace Scope

def symbol? (s : Scope) (name : String) : Option Symbol := s.symbols[name]?

def insert (s : Scope) (symbol : Symbol) : Scope :=
  { s with symbols := s.symbols.insert symbol.name symbol }

def put (s : Scope) (name : String) (kind : SymbolKind) (line : Nat) : Scope :=
  s.insert ⟨name, kind, s.id, line⟩

end Scope

structure SymbolTable where
  scopes : Array Scope

namespace SymbolTable

def ofScopes (scopes : List Scope) : SymbolTable := ⟨(scopes.mergeSort (·.id ≤ ·.id)).toArray⟩

def scope? (t : SymbolTable) (id : Nat) : Option Scope := t.scopes[id]?

def root? (t : SymbolTable) : Option Scope := t.scope? 0

def symbols (t : SymbolTable) : List Symbol := t.scopes.toList.flatMap (·.symbols.values)

def find (t : SymbolTable) (name : String) : List Symbol :=
  t.scopes.toList.filterMap (·.symbol? name)

end SymbolTable

/-- The scopes while names are bound. -/
structure Scopes where
  current : Scope
  /-- The scopes around the current one, from the inside out. -/
  stack : List Scope
  /-- The scopes that have been left, the first one first. -/
  archive : Array Scope
  /-- The number of the scope that is opened next. -/
  nextId : Nat

namespace Scopes

def initial : Scopes := ⟨⟨0, none, .program, ∅⟩, [], #[], 1⟩

def chain (s : Scopes) : List Scope := s.current :: s.stack

/-- The symbol that a name refers to: that of the innermost open scope that has one. -/
def lookup? (s : Scopes) (name : String) : Option Symbol := s.chain.findSome? (·.symbol? name)

def local? (s : Scopes) (name : String) : Option Symbol := s.current.symbol? name

def enter (s : Scopes) (kind : ScopeKind) : Scopes where
  current := ⟨s.nextId, some s.current.id, kind, ∅⟩
  stack := s.current :: s.stack
  archive := s.archive
  nextId := s.nextId + 1

def leave (s : Scopes) : Scopes :=
  match s.stack with
  | [] => s
  | parent :: rest =>
    { s with current := parent, stack := rest, archive := s.archive.push s.current }

def put (s : Scopes) (name : String) (kind : SymbolKind) (line : Nat) : Scopes :=
  { s with current := s.current.put name kind line }

/-- Declares a name in the current scope. Only a local variable may take over a name, and only from
an object variable. -/
def declare (s : Scopes) (name : String) (kind : SymbolKind) (line : Nat) :
    Except ResolveError Scopes :=
  match s.local? name with
  | none => .ok (s.put name kind line)
  | some found =>
    if found.kind = .objectVar ∧ kind = .localVar then .ok (s.put name kind line)
    else .error (.duplicate name line)

/-- Declares an object variable, which the whole program sees: the outermost scope is the
program's. -/
def declareObjectVar (s : Scopes) (name : String) (line : Nat) : Scopes :=
  match s.stack.getLast? with
  | some program => { s with stack := s.stack.dropLast ++ [program.put name .objectVar line] }
  | none => s.put name .objectVar line

def table (s : Scopes) : SymbolTable := .ofScopes (s.archive.push s.current).toList

end Scopes

end GraalScript
