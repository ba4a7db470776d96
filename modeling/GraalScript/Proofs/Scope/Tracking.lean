import GraalScript.Proofs.Scope.Actions
import Mathlib.Data.List.Forall2

/-! The declared names of the open scopes beside the actions of resolving. At every moment the open
scopes have all the names that are tracked, and those that were declared for the whole program. -/
namespace GraalScript

namespace Scopes

variable {s s' : Scopes} {x : String}

theorem isSome_lookup?_iff : (s.lookup? x).isSome ↔ ∃ scope ∈ s.chain, (scope.kind? x).isSome := by
  rw [← Option.isSome_map, map_kind_lookup?, List.findSome?_isSome_iff]

end Scopes

namespace Action

/-- The names declared in each open scope, from the inside out, behind an action. -/
def track : List (List String) → Action → List (List String)
  | names :: rest, declare name _ _ => (name :: names) :: rest
  | names :: rest, constant _ name _ => (name.name :: names) :: rest
  | stack, enter _ => [] :: stack
  | _ :: names :: rest, leave => names :: rest
  | stack, _ => stack

def trackAll (stack : List (List String)) : List Action → List (List String)
  | [] => stack
  | a :: as => trackAll (track stack a) as

def target? : Action → Option String
  | bind .assign name _ => some name
  | _ => none

/-- The names that are assigned while no open scope has a declaration of them. -/
def unseen (stack : List (List String)) : List Action → List String
  | [] => []
  | a :: as => (a.target?.filter (· ∉ stack.flatten)).toList ++ unseen (track stack a) as

theorem trackAll_append (stack : List (List String)) (as bs : List Action) :
    trackAll stack (as ++ bs) = trackAll (trackAll stack as) bs := by
  induction as generalizing stack with
  | nil => rfl
  | cons a as ih => exact ih (track stack a)

theorem unseen_append (stack : List (List String)) (as bs : List Action) :
    unseen stack (as ++ bs) = unseen stack as ++ unseen (trackAll stack as) bs := by
  induction as generalizing stack with
  | nil => rfl
  | cons a as ih => rw [List.cons_append, unseen, unseen, ih, List.append_assoc, trackAll]

def IsBind (a : Action) : Prop := ∃ use name line, a = bind use name line

theorem track_of_isBind {a : Action} (h : a.IsBind) (stack : List (List String)) :
    track stack a = stack := by
  obtain ⟨use, name, line, rfl⟩ := h
  cases stack <;> rfl

theorem trackAll_of_isBind {as : List Action} (h : ∀ a ∈ as, a.IsBind)
    (stack : List (List String)) : trackAll stack as = stack := by
  induction as with
  | nil => rfl
  | cons a as ih =>
    rw [List.forall_mem_cons] at h
    rw [trackAll, track_of_isBind h.1, ih h.2]

theorem mem_unseen_of_isBind {as : List Action} (h : ∀ a ∈ as, a.IsBind)
    {stack : List (List String)} {x : String} (mem : x ∈ unseen stack as) :
    x ∈ as.filterMap target? ∧ x ∉ stack.flatten := by
  induction as with
  | nil => cases mem
  | cons a as ih =>
    rw [List.forall_mem_cons] at h
    rw [unseen, track_of_isBind h.1, List.mem_append, Option.mem_toList, Option.filter_eq_some_iff,
      decide_eq_true_iff] at mem
    rcases mem with ⟨here, out⟩ | later
    · exact ⟨List.mem_filterMap.mpr ⟨a, List.mem_cons_self, here⟩, out⟩
    · obtain ⟨inside, out⟩ := ih h.2 later
      obtain ⟨b, mem, target⟩ := List.mem_filterMap.mp inside
      exact ⟨List.mem_filterMap.mpr ⟨b, List.mem_cons_of_mem a mem, target⟩, out⟩

end Action

namespace Scopes

open GraalScript.Action

variable {env : Environment} {s s' : Scopes} {hoisted : List String} {stack : List (List String)}
  {x : String}

def Has (scope : Scope) (names : List String) : Prop := ∀ x ∈ names, (scope.kind? x).isSome

theorem has_nil (scope : Scope) : Has scope [] := fun _ mem => nomatch mem

theorem Has.put {scope : Scope} {names : List String} (h : Has scope names) (name : String)
    (kind : SymbolKind) (line : Nat) : Has (scope.put name kind line) (name :: names) := by
  intro x mem
  rcases List.mem_cons.mp mem with rfl | mem
  · rw [Scope.kind?_put, if_pos rfl]
    rfl
  · exact Scope.isSome_kind?_put (h x mem) name kind line

/-- The open scopes have the names of the stack, each scope its own, and the program has the hoisted
names. -/
structure Covers (hoisted : List String) (stack : List (List String)) (s : Scopes) : Prop where
  declared : List.Forall₂ Has s.chain stack
  hoisted : Has s.program hoisted

namespace Covers

theorem isSome_of_mem_stack (h : Covers hoisted stack s) (mem : x ∈ stack.flatten) :
    (s.lookup? x).isSome := by
  have declared := h.declared
  rw [isSome_lookup?_iff]
  clear h
  generalize s.chain = scopes at declared
  induction declared with
  | nil => cases mem
  | cons has _ ih =>
    rw [List.flatten_cons, List.mem_append] at mem
    rcases mem with here | later
    · exact ⟨_, List.mem_cons_self, has x here⟩
    · obtain ⟨scope, around, found⟩ := ih later
      exact ⟨scope, List.mem_cons_of_mem _ around, found⟩

theorem isSome_of_mem_hoisted (h : Covers hoisted stack s) (mem : x ∈ hoisted) :
    (s.lookup? x).isSome := by
  refine isSome_lookup?_iff.mpr ⟨s.program, ?_, h.hoisted x mem⟩
  rw [s.chain_eq]
  exact List.mem_append_right _ (List.mem_singleton_self _)

theorem weaken {hoisted' : List String} (h : Covers hoisted stack s)
    (sub : ∀ x ∈ hoisted', x ∈ hoisted) : Covers hoisted' stack s :=
  ⟨h.declared, fun x mem => h.hoisted x (sub x mem)⟩

theorem forget {top : List String} {rest : List (List String)}
    (h : Covers hoisted (top :: rest) s) : Covers hoisted ([] :: rest) s :=
  ⟨.cons (has_nil _) (List.forall₂_cons.mp h.declared).2, h.hoisted⟩

theorem put {names : List String} {rest : List (List String)} (h : Covers hoisted (names :: rest) s)
    (name : String) (kind : SymbolKind) (line : Nat) :
    Covers hoisted ((name :: names) :: rest) (s.put name kind line) := by
  obtain ⟨current, around⟩ := List.forall₂_cons.mp h.declared
  refine ⟨.cons (current.put name kind line) around, ?_⟩
  rcases s.put_cases name kind line with ⟨-, -, -, program⟩ | ⟨-, -, -, program⟩
  · rw [program]
    exact fun x mem => h.hoisted.put name kind line x (List.mem_cons_of_mem name mem)
  · rw [program]
    exact h.hoisted

theorem declareObjectVar (h : Covers hoisted stack s) (name : String) (line : Nat) :
    Covers (name :: hoisted) stack (s.declareObjectVar name line) := by
  obtain ⟨inner, program⟩ := s.parts_declareObjectVar name line
  refine ⟨?_, program ▸ h.hoisted.put name .objectVar line⟩
  have declared := h.declared
  rw [chain_eq] at declared ⊢
  rw [inner, program]
  clear h
  generalize s.inner = scopes at declared
  induction scopes generalizing stack with
  | nil =>
    obtain ⟨names, rest, has, none, rfl⟩ := List.forall₂_cons_left_iff.mp declared
    exact .cons (fun x mem => Scope.isSome_kind?_put (has x mem) name .objectVar line) none
  | cons scope scopes ih =>
    obtain ⟨names, rest, has, around, rfl⟩ := List.forall₂_cons_left_iff.mp declared
    exact .cons has (ih around)

theorem enter (h : Covers hoisted stack s) (kind : ScopeKind) :
    Covers hoisted ([] :: stack) (s.enter kind) where
  declared := .cons (has_nil _) h.declared
  hoisted := (s.parts_enter kind).2 ▸ h.hoisted

theorem leave (h : Covers hoisted stack s) : Covers hoisted (track stack .leave) s.leave := by
  refine ⟨?_, s.parts_leave.2 ▸ h.hoisted⟩
  have declared := h.declared
  obtain ⟨current, outer, archive, nextId⟩ := s
  cases outer with
  | nil =>
    obtain ⟨names, rfl⟩ := List.length_eq_one_iff.mp declared.length_eq.symm
    exact declared
  | cons parent outer =>
    cases declared with
    | cons _ around =>
      cases around with
      | cons first later => exact .cons first later

/-- No action takes a name away that an open scope has. -/
theorem step (h : Covers hoisted stack s) {a : Action} (ran : a.run env s = .ok s') :
    Covers hoisted (track stack a) s' := by
  have leaves := leaves_of_run ran
  obtain ⟨names, rest, rfl⟩ : ∃ names rest, stack = names :: rest := by
    cases stack with
    | nil => exact absurd h.declared.length_eq (by simp [chain])
    | cons names rest => exact ⟨names, rest, rfl⟩
  cases a with
  | bind use name line =>
    rcases leaves with rfl | rfl
    · exact h
    · exact (h.declareObjectVar name line).weaken fun x mem => List.mem_cons_of_mem name mem
  | enter kind => exact leaves ▸ h.enter kind
  | leave => exact leaves ▸ h.leave
  | declare name kind line => exact leaves ▸ h.put name kind line
  | constant line name value =>
    obtain ⟨folded, rfl⟩ := leaves
    exact h.put name.name (.constant folded) line

/-- A hoisted name is never unresolved. -/
theorem run_ne_unresolved (h : Covers hoisted stack s) (mem : x ∈ hoisted) (as : List Action)
    (line : Nat) : runAll env as s ≠ .error (.unresolved x line) := by
  induction as generalizing stack s with
  | nil => exact nofun
  | cons a as ih =>
    intro failed
    rw [runAll] at failed
    cases ran : a.run env s with
    | error e =>
      rw [ran] at failed
      have missing := blames_run a env s x line (ran.trans (congrArg _ (Except.error.inj failed)))
      have found := h.isSome_of_mem_hoisted mem
      rw [missing] at found
      cases found
    | ok s₁ =>
      rw [ran] at failed
      exact ih (h.step ran) failed

theorem run (h : Covers hoisted stack s) {as : List Action} (ran : runAll env as s = .ok s') :
    Covers hoisted (trackAll stack as) s' := by
  induction as generalizing stack s with
  | nil =>
    cases ran
    exact h
  | cons a as ih =>
    obtain ⟨s₁, first, rest⟩ := bind_eq_ok_iff.mp ran
    exact ih (h.step first) rest

end Covers

end Scopes

namespace Action

/-- Which of the open scopes declare a name. -/
def levels (x : String) (stack : List (List String)) : List Bool := stack.map (·.contains x)

variable {x : String} {stack stack' : List (List String)}

theorem mem_flatten_iff_levels : x ∈ stack.flatten ↔ true ∈ levels x stack := by
  simp [levels]

theorem levels_track (h : levels x stack = levels x stack') (a : Action) :
    levels x (track stack a) = levels x (track stack' a) := by
  rcases stack with _ | ⟨top, _ | ⟨next, rest⟩⟩ <;>
    rcases stack' with _ | ⟨top', _ | ⟨next', rest'⟩⟩ <;>
    simp only [levels, List.map_cons, List.map_nil, List.cons.injEq, reduceCtorEq,
      and_false] at h <;>
    cases a <;> simp_all [levels, track]

theorem mem_unseen_of_levels (h : levels x stack = levels x stack') {as : List Action}
    (mem : x ∈ unseen stack as) : x ∈ unseen stack' as := by
  induction as generalizing stack stack' with
  | nil => cases mem
  | cons a as ih =>
    rw [unseen, List.mem_append, Option.mem_toList, Option.filter_eq_some_iff, decide_eq_true_iff,
      mem_flatten_iff_levels] at mem ⊢
    exact mem.imp (fun here => h ▸ here) (ih (levels_track h a))

theorem levels_trackAll (h : levels x stack = levels x stack') (as : List Action) :
    levels x (trackAll stack as) = levels x (trackAll stack' as) := by
  induction as generalizing stack stack' with
  | nil => exact h
  | cons a as ih => exact ih (levels_track h a)

end Action

end GraalScript
