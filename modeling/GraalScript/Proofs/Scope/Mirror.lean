import GraalScript.Proofs.Scope.Chain
import Mathlib.Data.List.Forall2

/-! Two states of scopes side by side, the second one without some of the object variables of the
first. Lines may differ. Object variables live in the scope of the program, which every name is
looked up in last, so leaving some of them out changes only what their own names refer to. -/
namespace GraalScript

namespace Scopes

/-- Whether a symbol is left in. -/
def shown (hidden : String → Bool) (name : String) (kind : SymbolKind) : Bool :=
  !(kind = .objectVar && hidden name)

theorem shown_cases {hidden : String → Bool} {name : String} {x x' : Option Symbol}
    (h : x'.map Symbol.kind = (x.map Symbol.kind).filter (shown hidden name)) :
    x = none ∧ x' = none ∨
      (∃ a a', x = some a ∧ x' = some a' ∧ a'.kind = a.kind ∧ shown hidden name a.kind = true) ∨
      ∃ a, x = some a ∧ x' = none ∧ a.kind = .objectVar ∧ hidden name = true := by
  cases x with
  | none => exact .inl ⟨rfl, Option.map_eq_none_iff.mp h⟩
  | some a =>
    rw [Option.map_some] at h
    cases left : shown hidden name a.kind with
    | true =>
      rw [Option.filter_some_pos left] at h
      obtain ⟨a', found, same⟩ := Option.map_eq_some_iff.mp h
      exact .inr (.inl ⟨a, a', rfl, found, same, left⟩)
    | false =>
      rw [Option.filter_some_neg left] at h
      have both : a.kind = .objectVar ∧ hidden name = true := by simpa [shown] using left
      exact .inr (.inr ⟨a, rfl, Option.map_eq_none_iff.mp h, both⟩)

/-- Two scopes inside the program: the same names, and no object variables. -/
def Inside (scope scope' : Scope) : Prop :=
  ∀ x, scope'.kind? x = scope.kind? x ∧ scope.kind? x ≠ some .objectVar

theorem Inside.put {scope scope' : Scope} (h : Inside scope scope') (name : String)
    {kind : SymbolKind} (other : kind ≠ .objectVar) (line line' : Nat) :
    Inside (scope.put name kind line) (scope'.put name kind line') := by
  intro x
  rw [Scope.kind?_put, Scope.kind?_put]
  split
  · exact ⟨rfl, fun same => other (Option.some.inj same)⟩
  · exact h x

/-- The scopes `s'` are those of `s` without the object variables that are hidden. -/
structure Mirrors (hidden : String → Bool) (s s' : Scopes) : Prop where
  inner : List.Forall₂ Inside s.inner s'.inner
  program : ∀ x, s'.program.kind? x = (s.program.kind? x).filter (shown hidden x)

namespace Mirrors

variable {hidden : String → Bool} {s s' : Scopes}

theorem initial (hidden : String → Bool) : Mirrors hidden .initial .initial where
  inner := .nil
  program x := by
    have empty : Scopes.initial.program.kind? x = none := Scope.kind?_opened 0 none .program x
    rw [empty]
    rfl

theorem filter_inside {scope scope' : Scope} (h : Inside scope scope') (x : String) :
    scope'.kind? x = (scope.kind? x).filter (shown hidden x) := by
  rw [(h x).1]
  cases found : scope.kind? x with
  | none => rfl
  | some kind =>
    have other : kind ≠ .objectVar := fun same => (h x).2 (found.trans (congrArg some same))
    have left : shown hidden x kind = true := by simp [shown, other]
    rw [Option.filter_some_pos left]

theorem chain (h : Mirrors hidden s s') :
    List.Forall₂ (fun scope scope' => ∀ x, scope'.kind? x = (scope.kind? x).filter (shown hidden x))
      s.chain s'.chain := by
  rw [s.chain_eq, s'.chain_eq]
  exact List.rel_append (h.inner.imp fun _ _ inside x => filter_inside inside x)
    (.cons h.program .nil)

theorem local?_eq (h : Mirrors hidden s s') (name : String) :
    (s'.local? name).map Symbol.kind = ((s.local? name).map Symbol.kind).filter
      (shown hidden name) :=
  (List.forall₂_cons.mp h.chain).1 name

/-- A hidden object variable is what its name would refer to last. -/
theorem lookup?_eq (h : Mirrors hidden s s') (name : String) :
    (s'.lookup? name).map Symbol.kind = ((s.lookup? name).map Symbol.kind).filter
      (shown hidden name) := by
  rw [map_kind_lookup?, map_kind_lookup?, s.chain_eq, s'.chain_eq]
  have pairs := h.inner
  generalize s.inner = scopes, s'.inner = scopes' at pairs
  induction pairs with
  | nil => simp [h.program name]
  | @cons scope scope' scopes scopes' inside _ ih =>
    rw [List.cons_append, List.cons_append, List.findSome?_cons, List.findSome?_cons,
      (inside name).1]
    cases found : scope.kind? name with
    | none => exact ih
    | some kind =>
      have left : _ = Option.filter (shown hidden name) _ := filter_inside inside name
      rwa [(inside name).1, found] at left

theorem enter (h : Mirrors hidden s s') (kind : ScopeKind) :
    Mirrors hidden (s.enter kind) (s'.enter kind) := by
  obtain ⟨inner, program⟩ := s.parts_enter kind
  obtain ⟨inner', program'⟩ := s'.parts_enter kind
  refine ⟨?_, by rw [program, program']; exact h.program⟩
  rw [inner, inner']
  refine .cons (fun x => ?_) h.inner
  rw [Scope.kind?_opened, Scope.kind?_opened]
  exact ⟨rfl, nofun⟩

theorem leave (h : Mirrors hidden s s') : Mirrors hidden s.leave s'.leave := by
  obtain ⟨inner, program⟩ := s.parts_leave
  obtain ⟨inner', program'⟩ := s'.parts_leave
  refine ⟨?_, by rw [program, program']; exact h.program⟩
  rw [inner, inner']
  have pairs := h.inner
  generalize s.inner = scopes, s'.inner = scopes' at pairs
  cases pairs with
  | nil => exact .nil
  | cons _ rest => exact rest

theorem put (h : Mirrors hidden s s') (name : String) {kind : SymbolKind}
    (other : kind ≠ .objectVar) (line line' : Nat) :
    Mirrors hidden (s.put name kind line) (s'.put name kind line') := by
  have left (x : String) : shown hidden x kind = true := by simp [shown, other]
  rcases s.put_cases name kind line with ⟨-, none, inner, program⟩ |
    ⟨around, some, inner, program⟩ <;>
    rcases s'.put_cases name kind line' with ⟨-, none', inner', program'⟩ |
      ⟨around', some', inner', program'⟩
  · refine ⟨by rw [inner, inner']; exact .nil, fun x => ?_⟩
    rw [program, program', Scope.kind?_put, Scope.kind?_put]
    split
    · rw [Option.filter_some_pos (left x)]
    · exact h.program x
  · exact absurd h.inner (by simp [none, some'])
  · exact absurd h.inner (by simp [some, none'])
  · have pairs := h.inner
    rw [some, some', List.forall₂_cons] at pairs
    refine ⟨?_, by rw [program, program']; exact h.program⟩
    rw [inner, inner']
    exact .cons (pairs.1.put name other line line') pairs.2

theorem declareObjectVar (h : Mirrors hidden s s') {name : String} (seen : hidden name = false)
    (line line' : Nat) :
    Mirrors hidden (s.declareObjectVar name line) (s'.declareObjectVar name line') := by
  obtain ⟨inner, program⟩ := s.parts_declareObjectVar name line
  obtain ⟨inner', program'⟩ := s'.parts_declareObjectVar name line'
  refine ⟨by rw [inner, inner']; exact h.inner, fun x => ?_⟩
  rw [program, program', Scope.kind?_put, Scope.kind?_put]
  split
  next same =>
    have left : shown hidden x .objectVar = true := by simp [shown, ← same, seen]
    rw [Option.filter_some_pos left]
  next => exact h.program x

theorem declareObjectVar_left (h : Mirrors hidden s s') {name : String}
    (unseen : hidden name = true) (line : Nat) (new : s.program.kind? name = none) :
    Mirrors hidden (s.declareObjectVar name line) s' := by
  obtain ⟨inner, program⟩ := s.parts_declareObjectVar name line
  refine ⟨inner ▸ h.inner, fun x => ?_⟩
  rw [program, Scope.kind?_put, h.program]
  split
  next same =>
    have out : shown hidden x .objectVar = false := by simp [shown, ← same, unseen]
    rw [← same, new, same, Option.filter_some_neg out]
    rfl
  next => rfl

end Mirrors

end Scopes

end GraalScript
