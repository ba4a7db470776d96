import GraalScript.Scope.Basic

/-! The open scopes as a list: those inside the program, and the scope of the program itself at its
end. What is said here of each operation is all that later proofs know of the state. -/
namespace GraalScript

namespace Scope

def kind? (scope : Scope) (name : String) : Option SymbolKind :=
  (scope.symbol? name).map Symbol.kind

theorem symbol?_put (scope : Scope) (name x : String) (kind : SymbolKind) (line : Nat) :
    (scope.put name kind line).symbol? x =
      if name = x then some ⟨name, kind, scope.id, line⟩ else scope.symbol? x := by
  simp only [symbol?, put, insert, Std.TreeMap.getElem?_insert, Std.LawfulEqCmp.compare_eq_iff_eq]

theorem kind?_put (scope : Scope) (name x : String) (kind : SymbolKind) (line : Nat) :
    (scope.put name kind line).kind? x = if name = x then some kind else scope.kind? x := by
  rw [kind?, symbol?_put]
  split <;> rfl

theorem isSome_kind?_put {scope : Scope} {x : String} (h : (scope.kind? x).isSome) (name : String)
    (kind : SymbolKind) (line : Nat) : ((scope.put name kind line).kind? x).isSome := by
  rw [kind?_put]
  split
  · rfl
  · exact h

theorem kind?_opened (id : Nat) (parent : Option Nat) (kind : ScopeKind) (x : String) :
    Scope.kind? ⟨id, parent, kind, ∅⟩ x = none := by
  simp [kind?, symbol?]

end Scope

namespace Scopes

/-- The outermost scope. -/
def program (s : Scopes) : Scope := s.stack.getLast?.getD s.current

/-- The open scopes inside the program. -/
def inner (s : Scopes) : List Scope := s.chain.dropLast

variable {s : Scopes} {name x : String} {kind : SymbolKind} {line : Nat}

theorem parts_of_chain {scopes : List Scope} {last : Scope} (h : s.chain = scopes ++ [last]) :
    s.inner = scopes ∧ s.program = last := by
  have ends : s.chain.getLast? = some s.program := List.getLast?_cons
  rw [h, List.getLast?_concat] at ends
  exact ⟨by rw [inner, h, List.dropLast_concat], (Option.some.inj ends).symm⟩

theorem chain_eq (s : Scopes) : s.chain = s.inner ++ [s.program] := by
  have ends : s.chain.getLast? = some s.program := List.getLast?_cons
  obtain ⟨scopes, split⟩ := List.getLast?_eq_some_iff.mp ends
  rw [(parts_of_chain split).1, split]

theorem length_inner (s : Scopes) : s.inner.length = s.stack.length := by simp [inner, chain]

theorem map_kind_local? (s : Scopes) (x : String) :
    (s.local? x).map Symbol.kind = s.current.kind? x := rfl

theorem map_kind_lookup? (s : Scopes) (x : String) :
    (s.lookup? x).map Symbol.kind = s.chain.findSome? (·.kind? x) := by
  simp only [lookup?, Scope.kind?, List.map_findSome?, Function.comp_def]

theorem parts_enter (s : Scopes) (kind : ScopeKind) :
    (s.enter kind).inner = ⟨s.nextId, some s.current.id, kind, ∅⟩ :: s.inner ∧
      (s.enter kind).program = s.program := by
  refine parts_of_chain ?_
  rw [List.cons_append, ← s.chain_eq]
  rfl

theorem parts_leave (s : Scopes) :
    s.leave.inner = s.inner.tail ∧ s.leave.program = s.program := by
  cases outer : s.stack with
  | nil => simp [inner, program, leave, chain, outer]
  | cons parent rest => simp [inner, program, leave, chain, outer, List.getLast?_cons]

theorem parts_declareObjectVar (s : Scopes) (name : String) (line : Nat) :
    (s.declareObjectVar name line).inner = s.inner ∧
      (s.declareObjectVar name line).program = s.program.put name .objectVar line := by
  refine parts_of_chain ?_
  rw [declareObjectVar, inner, program]
  cases outer : s.stack.getLast? with
  | none =>
    rw [List.getLast?_eq_none_iff] at outer
    simp [put, chain, outer]
  | some last =>
    obtain ⟨between, outer⟩ := List.getLast?_eq_some_iff.mp outer
    have inside : s.chain.dropLast = s.current :: between := by
      rw [chain, outer, ← List.cons_append, List.dropLast_concat]
    rw [inside]
    simp [chain, outer]

theorem put_cases (s : Scopes) (name : String) (kind : SymbolKind) (line : Nat) :
    (s.current = s.program ∧ s.inner = [] ∧ (s.put name kind line).inner = [] ∧
      (s.put name kind line).program = s.program.put name kind line) ∨
    ∃ around, s.inner = s.current :: around ∧
      (s.put name kind line).inner = s.current.put name kind line :: around ∧
      (s.put name kind line).program = s.program := by
  cases outer : s.stack with
  | nil => simp [inner, program, chain, put, outer]
  | cons parent rest => simp [inner, program, chain, put, outer, List.getLast?_cons]

end Scopes

end GraalScript
