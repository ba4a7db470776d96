import GraalScript.Proofs.Compilation
import GraalScript.Proofs.Scope.Collecting
import GraalScript.Proofs.Tree.Equality
import Mathlib.Data.List.Forall2

/-! Object variables are declared before any name is bound. So binding never comes to a target that
nothing has declared, and no part of a program has to stand behind another one to read an object
variable of it. Both hold unless the head of a `for` assigns a variable before declaring it. -/
namespace GraalScript

open GraalScript.Action Scopes

/-- The names that an item by itself assigns unseen. -/
def Item.made (i : Item) : List String := unseen [[]] i.actions

/-- The names that an item declares in the scope of the program. -/
def Item.declaredNames (i : Item) : List String := (trackAll [[]] i.actions).flatten

namespace Resolve

variable {env : Environment} {s s' : Scopes} {hoisted : List String}

/-- What is declared before any name is bound: the functions and the object variables. -/
def prelude (env : Environment) (p : Program) : Resolve Unit := do
  declareFuncs [] p.funcs
  p.objectVars.forM (declareObjectVar env)

def Settles (P : Scopes → Prop) (g : Resolve Unit) : Prop :=
  ∀ s, P s → (∃ s', g.run s = .ok ((), s') ∧ P s') ∨
    ∃ name line, g.run s = .error (.duplicate name line)

theorem Settles.bind {P : Scopes → Prop} {g g' : Resolve Unit} (first : Settles P g)
    (second : Settles P g') : Settles P (do g; g') := by
  intro s h
  rw [StateT.run_bind]
  rcases first s h with ⟨s₁, ran, h₁⟩ | ⟨name, line, failed⟩
  · rw [ran]
    exact second s₁ h₁
  · rw [failed]
    exact .inr ⟨name, line, rfl⟩

theorem settles_declare {P : Scopes → Prop} {name : String} {kind : SymbolKind} {line : Nat}
    (kept : ∀ s, P s → P (s.put name kind line)) : Settles P (declare name kind line) := by
  intro s h
  rw [run_declare]
  cases declared : s.declare name kind line with
  | ok s' =>
    obtain rfl := eq_put_of_declare declared
    exact .inl ⟨_, rfl, kept s h⟩
  | error e =>
    unfold Scopes.declare at declared
    split at declared
    · cases declared
    · split at declared
      · cases declared
      · cases declared
        exact .inr ⟨name, line, rfl⟩

theorem settles_declareFuncs {P : Scopes → Prop}
    (kept : ∀ s name line, P s → P (s.put name .func line)) (seen : List String) (fs : List Func) :
    Settles P (declareFuncs seen fs) := by
  induction fs generalizing seen with
  | nil => exact fun s h => .inl ⟨s, rfl, h⟩
  | cons f fs ih =>
    have rest := ih (f.tableName :: seen)
    have declared : Settles P
        (do declare f.name.name .func f.name.line; declareFuncs (f.tableName :: seen) fs) :=
      (settles_declare fun s => kept s f.name.name f.name.line).bind rest
    rw [declareFuncs]
    split
    · exact fun s _ => .inr ⟨_, _, rfl⟩
    · split
      · exact declared
      · exact rest

theorem covers_initial : Covers [] [[]] .initial where
  declared := .cons (has_nil _) .nil
  hoisted := has_nil _

/-- The names that are hoisted: those of the object variables that nothing else has. -/
def hoistedNames (env : Environment) (vs : List (String × Nat)) : List String :=
  (vs.map Prod.fst).filter (!isBuiltinValue env ·)

theorem hoistedNames_cons (env : Environment) (v : String × Nat) (vs : List (String × Nat)) :
    hoistedNames env (v :: vs) = hoistedNames env [v] ++ hoistedNames env vs := by
  simp only [hoistedNames, ← List.filter_append, ← List.map_append, List.singleton_append]

theorem covers_declareObjectVar (env : Environment) (v : String × Nat) (h : Covers hoisted [[]] s) :
    ∃ s', (declareObjectVar env v).run s = .ok ((), s') ∧
      Covers (hoistedNames env [v] ++ hoisted) [[]] s' := by
  refine ⟨_, run_declareObjectVar env v s, ?_⟩
  cases known : isBuiltinValue env v.1 with
  | true => simpa [hoistedNames, known] using h
  | false =>
    have single : hoistedNames env [v] = [v.1] := by simp [hoistedNames, known]
    rw [single]
    cases found : s.local? v.1 with
    | none => exact h.declareObjectVar v.1 v.2
    | some symbol =>
      have alone : s.stack = [] := List.length_eq_zero_iff.mp (Nat.succ.inj h.declared.length_eq)
      have current : s.program = s.current := by rw [Scopes.program, alone]; rfl
      refine ⟨h.declared, fun x mem => ?_⟩
      rcases List.mem_cons.mp mem with rfl | mem
      · have here : (s.program.kind? v.1).isSome := by
          rw [current, ← map_kind_local?, found]
          rfl
        exact here
      · exact h.hoisted x mem

theorem covers_declareObjectVars (env : Environment) (vs : List (String × Nat))
    (h : Covers hoisted [[]] s) :
    ∃ s', (vs.forM (declareObjectVar env)).run s = .ok ((), s') ∧
      Covers (hoistedNames env vs ++ hoisted) [[]] s' := by
  induction vs generalizing s hoisted with
  | nil => exact ⟨s, rfl, h⟩
  | cons v vs ih =>
    obtain ⟨s₁, first, covers⟩ := covers_declareObjectVar env v h
    obtain ⟨s₂, rest, covers⟩ := ih covers
    refine ⟨s₂, ?_, covers.weaken fun x mem => ?_⟩
    · rw [List.forM, StateT.run_bind, first]
      exact rest
    · rw [hoistedNames_cons] at mem
      simp only [List.mem_append] at mem ⊢
      tauto

theorem settles_prelude (env : Environment) (p : Program) :
    (∃ s, (prelude env p).run .initial = .ok ((), s) ∧
      Covers (hoistedNames env p.objectVars) [[]] s) ∨
      ∃ name line, (prelude env p).run .initial = .error (.duplicate name line) := by
  rw [prelude, StateT.run_bind]
  have funcs := settles_declareFuncs (P := Covers [] [[]]) fun s name line h =>
    (h.put name .func line).forget
  rcases funcs [] p.funcs .initial covers_initial with ⟨s₁, ran, covers⟩ | ⟨name, line, failed⟩
  · obtain ⟨s₂, declared, covers⟩ := covers_declareObjectVars env p.objectVars covers
    rw [ran]
    exact .inl ⟨s₂, declared, by rwa [List.append_nil] at covers⟩
  · rw [failed]
    exact .inr ⟨name, line, rfl⟩

end Resolve

namespace Program

variable {p q : Program} {env : Environment} {x : String}

theorem levels_item {i : Item} (fresh : i.freshHeads = true) (undeclared : x ∉ i.declaredNames) :
    levels x (trackAll [[]] i.actions) = [false] := by
  have unmarked : ObjectVars.initial.Marked := by
    intro y seen
    simp [ObjectVars.initial] at seen
  obtain ⟨top, collected⟩ :=
    ObjectVars.collects_item i fresh .initial [] [] unmarked fun _ mem => mem
  rw [Item.declaredNames, collected.tracked, List.flatten_singleton] at undeclared
  simp [collected.tracked, levels, undeclared]

theorem mem_unseen_of_made {is : List Item}
    (h : ∀ j ∈ is, levels x (trackAll [[]] j.actions) = [false]) {i : Item} (mem : i ∈ is)
    (made : x ∈ i.made) {stack : List (List String)} (here : levels x stack = [false]) :
    x ∈ unseen stack (is.flatMap Item.actions) := by
  induction is generalizing stack with
  | nil => cases mem
  | cons j is ih =>
    rw [List.forall_mem_cons] at h
    rw [List.flatMap_cons, unseen_append, List.mem_append]
    rcases List.mem_cons.mp mem with rfl | mem
    · have same : levels x [[]] = levels x stack := here.symm
      exact .inl (mem_unseen_of_levels same made)
    · exact .inr (ih h.2 mem ((levels_trackAll here j.actions).trans h.1))

/-- An unseen target of the program is hoisted, unless the runtime has it. -/
theorem hoisted_of_unseen (fresh : p.freshHeads = true) (mem : x ∈ unseen [[]] p.actions)
    (known : Resolve.isBuiltinValue env x = false) : x ∈ Resolve.hoistedNames env p.objectVars :=
  List.mem_filter.mpr ⟨ObjectVars.mem_objectVars_of_unseen fresh mem, by rw [known]; rfl⟩

theorem target_visible (fresh : p.freshHeads = true) {s s' : Scopes}
    (covers : Covers (Resolve.hoistedNames env p.objectVars) [[]] s) {before after : List Action}
    {line : Nat} (split : p.actions = before ++ .bind .assign x line :: after)
    (ran : runAll env before s = .ok s') :
    (s'.lookup? x).isSome ∨ Resolve.isBuiltinValue env x = true := by
  have covers := covers.run ran
  by_cases declared : x ∈ (trackAll [[]] before).flatten
  · exact .inl (covers.isSome_of_mem_stack declared)
  · have mem : x ∈ unseen [[]] p.actions := by
      have made : x ∈ ((Action.bind .assign x line).target?.filter
          (· ∉ (trackAll [[]] before).flatten)).toList := by
        rw [target?, Option.mem_toList, Option.filter_eq_some_iff, decide_eq_true_iff]
        exact ⟨rfl, declared⟩
      rw [split, unseen_append, unseen]
      exact List.mem_append_right _ (List.mem_append_left _ made)
    cases known : Resolve.isBuiltinValue env x with
    | true => exact .inr rfl
    | false => exact .inl (covers.isSome_of_mem_hoisted (hoisted_of_unseen fresh mem known))

theorem resolve_eq {s : Scopes} (ran : (Resolve.prelude env p).run .initial = .ok ((), s)) :
    p.resolve env = ((p.items.mapM (Resolve.item env)).run s).map fun r =>
      (⟨r.1, p.clientside⟩, r.2.table) := by
  rw [Resolve.prelude] at ran
  rw [resolve, Resolve.program_eq, StateT.run_bind, ran]
  change (((p.items.mapM (Resolve.item env)).run s >>= fun r => pure (_, r.2)) >>= _) = _
  cases (p.items.mapM (Resolve.item env)).run s <;> rfl

theorem resolve_ne_unresolved (mem : x ∈ Resolve.hoistedNames env p.objectVars) (line : Nat) :
    p.resolve env ≠ .error (.unresolved x line) := by
  intro failed
  rcases Resolve.settles_prelude env p with ⟨s, ran, covers⟩ | ⟨name, line', stopped⟩
  · rw [resolve_eq ran] at failed
    have never : runAll env p.actions s ≠ .error (.unresolved x line) :=
      covers.run_ne_unresolved mem p.actions line
    rw [← Resolve.does_items p s] at never
    cases bound : (p.items.mapM (Resolve.item env)).run s with
    | ok r =>
      rw [bound] at failed
      cases failed
    | error e =>
      rw [bound] at failed never
      exact never (congrArg _ (Except.error.inj failed))
  · rw [Resolve.prelude] at stopped
    rw [resolve, Resolve.program_eq, StateT.run_bind, stopped] at failed
    cases failed

end Program

/-- Functions and object variables are declared first. From then on resolving is a run of actions in
which no target is new: each has been declared, or the runtime has it. And what one item assigns is
resolved in every item, whatever the order of the items is. -/
theorem Program.targets_declared (p : Program) (env : Environment) (fresh : p.freshHeads = true) :
    (∀ s, (Resolve.prelude env p).run .initial = .ok ((), s) →
      (p.resolve env).map Prod.snd = (runAll env p.actions s).map Scopes.table ∧
      ∀ before name line after s', p.actions = before ++ .bind .assign name line :: after →
        runAll env before s = .ok s' → (s'.lookup? name).isSome ∨ Resolve.isBuiltinValue env name) ∧
    ∀ i ∈ p.items, ∀ name ∈ i.made, (∀ j ∈ p.items, name ∉ j.declaredNames) →
      Resolve.isBuiltinValue env name = false →
        ∀ q : Program, q.items.Perm p.items →
          ∀ line, q.resolve env ≠ .error (.unresolved name line) := by
  constructor
  · intro s ran
    rcases Resolve.settles_prelude env p with ⟨s₁, ran₁, covers⟩ | ⟨name, line, stopped⟩
    · obtain rfl : s₁ = s := by
        rw [ran₁] at ran
        cases ran
        rfl
      refine ⟨?_, fun before name line after s' => target_visible fresh covers⟩
      rw [resolve_eq ran, ← Resolve.does_items p s₁]
      cases (p.items.mapM (Resolve.item env)).run s₁ <;> rfl
    · rw [stopped] at ran
      cases ran
  · intro i mem name made undeclared known q perm line
    have fresh' : q.freshHeads = true := List.all_eq_true.mpr fun j inside =>
      List.all_eq_true.mp fresh j (perm.mem_iff.mp inside)
    have leveled : ∀ j ∈ q.items, levels name (trackAll [[]] j.actions) = [false] := fun j inside =>
      levels_item (List.all_eq_true.mp fresh' j inside) (undeclared j (perm.mem_iff.mp inside))
    have unseen : name ∈ unseen [[]] q.actions :=
      mem_unseen_of_made leveled (perm.mem_iff.mpr mem) made rfl
    exact resolve_ne_unresolved (hoisted_of_unseen fresh' unseen known) line

/-- `function f() { return x; }`. -/
def Item.reader (x : String) : Item :=
  .func ⟨1, false, none, ⟨"f", 1⟩, [], ⟨1, [.ret 1 (some (.name 1 x .unresolved))]⟩⟩

/-- `for (var i = start; i < 3; i++) body`. -/
def Item.counter (start : Expr) (body : Stmt) : Item :=
  .stmt (.forLoop 1 (some (.vars ⟨1, [⟨⟨"i", 1⟩, some start⟩]⟩))
    (some (.binary 1 .less (.name 1 "i" .unresolved) (.literal 1 (.int 3))))
    (some (.step 1 .inc false (.name 1 "i" .unresolved))) body)

def Expr.set (x : String) (value : Expr) : Expr := .assign 1 none (.name 1 x .unresolved) value

theorem Program.targets_declared_loop : ∃ p s i,
    Program.parse "function f() { return x; } for (var i = 0; i < 3; i++) x = i;" 8 = .ok p ∧
    p.freshHeads = true ∧ (Resolve.prelude .empty p).run .initial = .ok ((), s) ∧
    (p.resolve .empty).map Prod.snd = (runAll .empty p.actions s).map Scopes.table ∧
    i ∈ p.items ∧ "x" ∈ i.made ∧ (∀ j ∈ p.items, "x" ∉ j.declaredNames) ∧
    ∀ q : Program, q.items.Perm p.items →
      ∀ line, q.resolve .empty ≠ .error (.unresolved "x" line) := by
  have ran :
      (Program.parse "function f() { return x; } for (var i = 0; i < 3; i++) x = i;" 8).toOption.any
        (fun p => ((Resolve.prelude .empty p).run .initial).toOption.isSome &&
          (p.freshHeads = true ∧ (∃ i ∈ p.items, "x" ∈ i.made) ∧
            ∀ j ∈ p.items, "x" ∉ j.declaredNames)) = true := by decide +kernel
  obtain ⟨p, parsed, ran⟩ := exists_ok_of_any ran
  obtain ⟨starts, found⟩ := Bool.and_eq_true_iff.mp ran
  obtain ⟨fresh, ⟨i, mem, made⟩, undeclared⟩ := of_decide_eq_true found
  obtain ⟨⟨⟨⟩, s⟩, begun⟩ := exists_ok_of_isSome starts
  have known : Resolve.isBuiltinValue .empty "x" = false := by decide
  obtain ⟨run, anywhere⟩ := targets_declared p .empty fresh
  exact ⟨p, s, i, parsed, fresh, begun, (run s begun).1, mem, made, undeclared,
    anywhere i mem "x" made undeclared known⟩

/-- The head of a loop that assigns its variable before declaring it: what it assigns is an object
variable, but it is not found ahead, so that a function can read it only behind the loop. -/
theorem Program.targets_declared_head : ∃ f loop : Item,
    Program.parse "function f() { return i; } for (var i = (i = 5); i < 3; i++) {}" 8 =
      .ok ⟨[f, loop], none⟩ ∧
    Program.parse "for (var i = (i = 5); i < 3; i++) {} function f() { return i; }" 8 =
      .ok ⟨[loop, f], none⟩ ∧
    "i" ∈ loop.made ∧ "i" ∉ loop.declaredNames ∧ "i" ∉ f.declaredNames ∧
    Program.resolve ⟨[f, loop], none⟩ .empty = .error (.unresolved "i" 1) ∧
    ∃ bound, Program.resolve ⟨[loop, f], none⟩ .empty = .ok bound := by
  refine ⟨.reader "i", .counter (.set "i" (.literal 1 (.int 5))) (.block 1 []), ?_, ?_,
    by decide, by decide, by decide, rfl, _, rfl⟩
  · exact eq_ok_of_toOption (by decide +kernel)
  · exact eq_ok_of_toOption (by decide +kernel)

end GraalScript
