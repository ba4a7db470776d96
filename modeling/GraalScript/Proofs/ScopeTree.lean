import GraalScript.Proofs.Hoisting

/-! The scopes that resolving leaves form a tree. They get their numbers when they are opened and
are put away when they are left, in another order; no number is lost or given twice on the way, so
that in the end, sorted, each scope stands at its own. The program is the root, and every other
scope lies in one that was opened before it; functions lie in the program. Object variables and
functions are symbols of the program, and parameters are symbols of functions. -/
namespace GraalScript

/-- What holds of the scope with the number `i`. -/
structure Scope.Fits (i : Nat) (scope : Scope) : Prop where
  id : scope.id = i
  program : scope.kind = .program ↔ i = 0
  root : scope.parent = none ↔ i = 0
  parent : ∀ j ∈ scope.parent, j < i
  function : scope.kind = .function → scope.parent = some 0
  home : ∀ name symbol, scope.symbol? name = some symbol → symbol.scope = i
  global : ∀ name symbol, scope.symbol? name = some symbol →
    symbol.kind = .objectVar ∨ symbol.kind = .func → i = 0
  param : ∀ name symbol, scope.symbol? name = some symbol → symbol.kind = .param →
    scope.kind = .function

/-- Symbols of this kind may stand in the scope with the number `i`. -/
def SymbolKind.FitsIn (kind : SymbolKind) (i : Nat) (scope : ScopeKind) : Prop :=
  (kind = .objectVar ∨ kind = .func → i = 0) ∧ (kind = .param → scope = .function)

namespace Scope.Fits

variable {i : Nat} {scope : Scope}

theorem put (h : scope.Fits scope.id) (name : String) {kind : SymbolKind} (line : Nat)
    (fits : kind.FitsIn scope.id scope.kind) : (scope.put name kind line).Fits scope.id := by
  have found (x : String) (symbol : Symbol)
      (mem : (scope.put name kind line).symbol? x = some symbol) :
      symbol = ⟨name, kind, scope.id, line⟩ ∨ scope.symbol? x = some symbol := by
    rw [symbol?_put] at mem
    split at mem
    · exact .inl (Option.some.inj mem).symm
    · exact .inr mem
  refine ⟨h.id, h.program, h.root, h.parent, h.function, fun x symbol mem => ?_,
    fun x symbol mem => ?_, fun x symbol mem => ?_⟩
  · rcases found x symbol mem with rfl | before
    · rfl
    · exact h.home x symbol before
  · rcases found x symbol mem with rfl | before
    · exact fits.1
    · exact h.global x symbol before
  · rcases found x symbol mem with rfl | before
    · exact fits.2
    · exact h.param x symbol before

theorem opened {kind : ScopeKind} {parent : Nat} (older : parent < i) (inner : kind ≠ .program)
    (function : kind = .function → parent = 0) : Scope.Fits i ⟨i, some parent, kind, ∅⟩ where
  id := rfl
  program := ⟨fun same => absurd same inner, fun first => by omega⟩
  root := ⟨nofun, fun first => by omega⟩
  parent := by
    rintro _ ⟨⟩
    exact older
  function same := congrArg some (function same)
  home name symbol mem := by simp [symbol?] at mem
  global name symbol mem := by simp [symbol?] at mem
  param name symbol mem := by simp [symbol?] at mem

end Scope.Fits

namespace Scopes

variable {s s₁ s₂ : Scopes}

/-- All scopes opened so far: those that have been left, and the open ones. -/
def all (s : Scopes) : List Scope := s.archive.toList ++ s.chain

/-- The numbers below the next one have been given out once each, and every scope fits its
number. -/
structure Formed (s : Scopes) : Prop where
  numbered : (s.all.map Scope.id).Perm (List.range s.nextId)
  fits : ∀ scope ∈ s.all, scope.Fits scope.id
  program : s.program.id = 0

def Under (s s' : Scopes) : Prop :=
  s'.chain.map (fun scope => (scope.id, scope.kind)) = s.chain.map fun scope =>
    (scope.id, scope.kind)

theorem Under.refl (s : Scopes) : s.Under s := rfl

theorem Under.trans (first : s.Under s₁) (second : s₁.Under s₂) : s.Under s₂ :=
  Eq.trans second first

theorem Under.current (h : s.Under s₁) :
    s₁.current.id = s.current.id ∧ s₁.current.kind = s.current.kind :=
  Prod.mk.inj (List.cons.inj h).1

theorem Under.stack (h : s.Under s₁) (alone : s.stack = []) : s₁.stack = [] := by
  have outer := (List.cons.inj h).2
  rwa [alone, List.map_nil, List.map_eq_nil_iff] at outer

theorem under_put (s : Scopes) (name : String) (kind : SymbolKind) (line : Nat) :
    s.Under (s.put name kind line) := rfl

theorem under_declareObjectVar (s : Scopes) (name : String) (line : Nat) :
    s.Under (s.declareObjectVar name line) := by
  obtain ⟨inner, program⟩ := s.parts_declareObjectVar name line
  rw [Under, chain_eq, inner, program, chain_eq, List.map_append, List.map_append]
  rfl

theorem Under.leave {kind : ScopeKind} (h : (s.enter kind).Under s₁) : s.Under s₁.leave := by
  obtain ⟨current, stack, archive, nextId⟩ := s₁
  cases stack with
  | nil => exact absurd (congrArg List.length h) (by simp [chain, Scopes.enter])
  | cons parent rest => exact (List.cons.inj h).2

namespace Formed

theorem current (h : s.Formed) : s.current.Fits s.current.id :=
  h.fits s.current (List.mem_append_right _ List.mem_cons_self)

theorem id_lt (h : s.Formed) : s.current.id < s.nextId := by
  refine List.mem_range.mp (h.numbered.mem_iff.mp (List.mem_map_of_mem ?_))
  exact List.mem_append_right _ List.mem_cons_self

theorem put (h : s.Formed) (name : String) {kind : SymbolKind} (line : Nat)
    (fits : kind.FitsIn s.current.id s.current.kind) : (s.put name kind line).Formed where
  numbered := by
    have ids : (s.put name kind line).all.map Scope.id = s.all.map Scope.id := by
      rw [all, all, List.map_append, List.map_append]
      rfl
    exact ids ▸ h.numbered
  fits := by
    obtain ⟨archived, isOpen⟩ := List.forall_mem_append.mp h.fits
    obtain ⟨current, around⟩ := List.forall_mem_cons.mp isOpen
    exact List.forall_mem_append.mpr
      ⟨archived, List.forall_mem_cons.mpr ⟨current.put name line fits, around⟩⟩
  program := by
    rcases s.put_cases name kind line with ⟨-, -, -, program⟩ | ⟨-, -, -, program⟩
    · rw [program]
      exact h.program
    · rw [program]
      exact h.program

theorem declareObjectVar (h : s.Formed) (name : String) (line : Nat) :
    (s.declareObjectVar name line).Formed := by
  obtain ⟨inner, program⟩ := s.parts_declareObjectVar name line
  have archive : (s.declareObjectVar name line).archive = s.archive := by
    unfold Scopes.declareObjectVar
    split <;> rfl
  have nextId : (s.declareObjectVar name line).nextId = s.nextId := by
    unfold Scopes.declareObjectVar
    split <;> rfl
  have before : s.all = s.archive.toList ++ (s.inner ++ [s.program]) := by rw [all, chain_eq]
  have after : (s.declareObjectVar name line).all =
      s.archive.toList ++ (s.inner ++ [s.program.put name .objectVar line]) := by
    rw [all, chain_eq, archive, inner, program]
  have fits := h.fits
  have numbered := h.numbered
  rw [before, List.map_append, List.map_append] at numbered
  rw [before, List.forall_mem_append, List.forall_mem_append, List.forall_mem_singleton] at fits
  obtain ⟨archived, inside, outermost⟩ := fits
  refine ⟨?_, ?_, program ▸ h.program⟩
  · rw [after, List.map_append, List.map_append, nextId]
    exact numbered
  · rw [after, List.forall_mem_append, List.forall_mem_append, List.forall_mem_singleton]
    exact ⟨archived, inside, outermost.put name line ⟨fun _ => h.program, nofun⟩⟩

theorem enter (h : s.Formed) {kind : ScopeKind} (inner : kind ≠ .program)
    (function : kind = .function → s.current.id = 0) : (s.enter kind).Formed where
  numbered := by
    have ids : ((s.enter kind).all.map Scope.id).Perm (s.nextId :: s.all.map Scope.id) := by
      rw [all, all, List.map_append, List.map_append]
      exact List.perm_middle
    rw [Scopes.enter, List.range_succ]
    exact ids.trans ((h.numbered.cons s.nextId).trans (List.perm_append_singleton _ _).symm)
  fits := by
    obtain ⟨archived, isOpen⟩ := List.forall_mem_append.mp h.fits
    refine List.forall_mem_append.mpr ⟨archived, List.forall_mem_cons.mpr ⟨?_, isOpen⟩⟩
    exact .opened h.id_lt inner function
  program := (s.parts_enter kind).2 ▸ h.program

theorem leave (h : s.Formed) : s.leave.Formed := by
  cases outer : s.stack with
  | nil =>
    have same : s.leave = s := by rw [Scopes.leave, outer]
    rwa [same]
  | cons parent rest =>
    have same : s.leave.all = s.all := by
      simp [all, chain, Scopes.leave, outer]
    have nextId : s.leave.nextId = s.nextId := by rw [Scopes.leave, outer]
    exact ⟨by rw [same, nextId]; exact h.numbered, same ▸ h.fits, s.parts_leave.2 ▸ h.program⟩

end Formed

end Scopes

namespace Action

open Scopes

variable {env : Environment} {s s' : Scopes} {as bs : List Action}

/-- Actions that may stand in any scope: formed scopes stay formed, and the same ones are open. -/
def Keeps (as : List Action) : Prop :=
  ∀ env s s', s.Formed → runAll env as s = .ok s' → s'.Formed ∧ s.Under s'

theorem keeps_nil : Keeps [] := by
  rintro env s s' formed ⟨⟩
  exact ⟨formed, .refl s⟩

theorem Keeps.append (first : Keeps as) (second : Keeps bs) : Keeps (as ++ bs) := by
  intro env s s' formed ran
  rw [runAll_append] at ran
  obtain ⟨s₁, front, back⟩ := bind_eq_ok_iff.mp ran
  obtain ⟨formed₁, under₁⟩ := first env s s₁ formed front
  obtain ⟨formed₂, under₂⟩ := second env s₁ s' formed₁ back
  exact ⟨formed₂, under₁.trans under₂⟩

theorem keeps_single {a : Action}
    (h : ∀ s s', s.Formed → a.Leaves s s' → s'.Formed ∧ s.Under s') : Keeps [a] := by
  intro env s s' formed ran
  obtain ⟨s₁, step, rest⟩ := bind_eq_ok_iff.mp ran
  obtain rfl : s₁ = s' := Except.ok.inj rest
  exact h s s₁ formed (leaves_of_run step)

theorem keeps_bind (use : Use) (name : String) (line : Nat) : Keeps [.bind use name line] := by
  refine keeps_single fun s s' formed leaves => ?_
  rcases leaves with rfl | rfl
  · exact ⟨formed, .refl s'⟩
  · exact ⟨formed.declareObjectVar name line, s.under_declareObjectVar name line⟩

theorem keeps_declare (name : String) (line : Nat) : Keeps [.declare name .localVar line] := by
  refine keeps_single fun s s' formed leaves => ?_
  subst leaves
  exact ⟨formed.put name line ⟨nofun, nofun⟩, s.under_put name .localVar line⟩

theorem keeps_constant (line : Nat) (name : Ident) (value : Expr) :
    Keeps [.constant line name value] := by
  refine keeps_single fun s s' formed leaves => ?_
  obtain ⟨folded, rfl⟩ := leaves
  exact ⟨formed.put name.name line ⟨nofun, nofun⟩, s.under_put name.name (.constant folded) line⟩

theorem keeps_inScope {kind : ScopeKind}
    (inside : ∀ s₁, runAll env as (s.enter kind) = .ok s₁ → s₁.Formed ∧ (s.enter kind).Under s₁)
    (ran : runAll env (inScope kind as) s = .ok s') : s'.Formed ∧ s.Under s' := by
  have rest : runAll env (as ++ [Action.leave]) (s.enter kind) = .ok s' := ran
  rw [runAll_append] at rest
  obtain ⟨s₁, front, back⟩ := bind_eq_ok_iff.mp rest
  obtain rfl : s₁.leave = s' := Except.ok.inj back
  obtain ⟨formed, under⟩ := inside s₁ front
  exact ⟨formed.leave, under.leave⟩

theorem Keeps.block (h : Keeps as) : Keeps (inScope .block as) := by
  intro env s s' formed ran
  have opened : (s.enter .block).Formed := formed.enter nofun nofun
  exact keeps_inScope (fun s₁ => h env _ s₁ opened) ran

theorem keeps_of_isBind (h : ∀ a ∈ as, a.IsBind) : Keeps as := by
  induction as with
  | nil => exact keeps_nil
  | cons a as ih =>
    rw [List.forall_mem_cons] at h
    obtain ⟨use, name, line, rfl⟩ := h.1
    exact (keeps_bind use name line).append (ih h.2)

theorem keeps_flatMap {α : Type} {actions : α → List Action} (xs : List α)
    (h : ∀ x ∈ xs, Keeps (actions x)) : Keeps (xs.flatMap actions) := by
  induction xs with
  | nil => exact keeps_nil
  | cons x xs ih =>
    rw [List.forall_mem_cons] at h
    exact h.1.append (ih h.2)

theorem keeps_expr (e : Expr) : Keeps (e.actions .read) :=
  keeps_of_isBind (ObjectVars.initial.notes_expr e (fun h => absurd h (by decide))).binds

theorem keeps_expr? (e : Option Expr) : Keeps (Expr.actions? e) :=
  keeps_of_isBind (ObjectVars.initial.notes_expr? e).binds

theorem keeps_varDecl (decl : VarDecl) : Keeps decl.actions :=
  keeps_flatMap decl.defs fun d _ =>
    (keeps_expr? d.value).append (keeps_declare d.name.name d.name.line)

theorem keeps_forInit (init : Option ForInit) : Keeps (ForInit.actions init) := by
  rcases init with _ | ⟨decl⟩ | ⟨e⟩
  · exact keeps_nil
  · exact keeps_varDecl decl
  · exact keeps_expr e

theorem keeps_loopItem (declared : Bool) (item : String) (line : Nat) :
    Keeps [loopItem declared item line] := by
  cases declared with
  | true => exact keeps_declare item line
  | false => exact keeps_bind .assign item line

mutual

theorem keeps_stmt (s : Stmt) : Keeps s.actions := by
  cases s with
  | block _ body => exact (keeps_stmts body).block
  | ifThen _ cond yes => exact (keeps_expr cond).append (keeps_stmt yes)
  | ifElse _ cond yes no => exact (keeps_expr cond).append ((keeps_stmt yes).append (keeps_stmt no))
  | whileLoop _ cond body => exact (keeps_expr cond).append (keeps_stmt body)
  | forLoop _ init cond step body =>
    have turns := (keeps_expr? cond).append ((keeps_expr? step).append (keeps_stmt body))
    exact ((keeps_forInit init).append turns).block
  | forEach line declared item _ iterable body =>
    exact (keeps_expr iterable).append
      ((keeps_loopItem declared item line).append (keeps_stmt body)).block
  | withObject _ object body => exact (keeps_expr object).append (keeps_stmt body)
  | switch _ value cases => exact (keeps_expr value).append (keeps_cases cases).block
  | new _ _ name _ body => exact (keeps_expr name).append (keeps_stmts body).block
  | ret _ value => exact keeps_expr? value
  | vars decl => exact keeps_varDecl decl
  | const line name value => exact keeps_constant line name value
  | expr e => exact keeps_expr e
  | breakOut | continueLoop | empty => exact keeps_nil

theorem keeps_stmts (ss : List Stmt) : Keeps (Stmt.allActions ss) := by
  cases ss with
  | nil => exact keeps_nil
  | cons s ss => exact (keeps_stmt s).append (keeps_stmts ss)

theorem keeps_cases (cs : List Case) : Keeps (Case.allActions cs) := by
  cases cs with
  | nil => exact keeps_nil
  | cons c cs => exact (keeps_case c).append (keeps_cases cs)

theorem keeps_case (c : Case) : Keeps c.actions := by
  cases c with
  | mk _ labels body =>
    exact (keeps_flatMap labels fun label _ => keeps_expr? label).append (keeps_stmts body)

end

theorem keeps_params (params : List Ident) (formed : s.Formed)
    (function : s.current.kind = .function)
    (ran : runAll env (params.map fun p => .declare p.name .param p.line) s = .ok s') :
    s'.Formed ∧ s.Under s' := by
  induction params generalizing s with
  | nil =>
    obtain rfl : s = s' := Except.ok.inj ran
    exact ⟨formed, .refl s⟩
  | cons p params ih =>
    obtain ⟨s₁, declared, rest⟩ := bind_eq_ok_iff.mp ran
    obtain rfl := eq_put_of_declare declared
    have fits : SymbolKind.param.FitsIn s.current.id s.current.kind := ⟨nofun, fun _ => function⟩
    obtain ⟨formed', under'⟩ := ih (formed.put p.name p.line fits) function rest
    exact ⟨formed', (s.under_put p.name .param p.line).trans under'⟩

theorem keeps_func (f : Func) (formed : s.Formed) (root : s.current.id = 0)
    (ran : runAll env f.actions s = .ok s') : s'.Formed ∧ s.Under s' := by
  have opened : (s.enter .function).Formed := formed.enter nofun fun _ => root
  refine keeps_inScope (fun s₂ inside => ?_) ran
  rw [runAll_append] at inside
  obtain ⟨s₁, params, body⟩ := bind_eq_ok_iff.mp inside
  obtain ⟨formed₁, under₁⟩ := keeps_params f.params opened rfl params
  obtain ⟨formed₂, under₂⟩ := keeps_stmts f.body.body env s₁ s₂ formed₁ body
  exact ⟨formed₂, under₁.trans under₂⟩

theorem formed_items {is : List Item} (formed : s.Formed) (alone : s.stack = [])
    (ran : runAll env (is.flatMap Item.actions) s = .ok s') : s'.Formed ∧ s'.stack = [] := by
  induction is generalizing s with
  | nil =>
    cases ran
    exact ⟨formed, alone⟩
  | cons i is ih =>
    rw [List.flatMap_cons, runAll_append] at ran
    obtain ⟨s₁, first, rest⟩ := bind_eq_ok_iff.mp ran
    have root : s.current.id = 0 := by
      have program := formed.program
      rwa [Scopes.program, alone] at program
    have step : s₁.Formed ∧ s.Under s₁ := by
      cases i with
      | func f => exact keeps_func f formed root first
      | stmt st => exact keeps_stmt st env s s₁ formed first
    exact ih step.1 (step.2.stack alone) rest

end Action

namespace Resolve

open Scopes

def OnlyProgram (s : Scopes) : Prop := s.Formed ∧ s.stack = []

theorem onlyProgram_initial : OnlyProgram .initial := by
  refine ⟨⟨.refl _, List.forall_mem_singleton.mpr ?_, rfl⟩, rfl⟩
  refine ⟨rfl, by simp [Scopes.initial], by simp [Scopes.initial], by simp [Scopes.initial],
    by simp [Scopes.initial], fun name symbol mem => ?_, fun name symbol mem => ?_,
    fun name symbol mem => ?_⟩
  all_goals simp [Scopes.initial, Scope.symbol?] at mem

theorem OnlyProgram.put {s : Scopes} (h : OnlyProgram s) (name : String) {kind : SymbolKind}
    (line : Nat) (plain : kind ≠ .param) : OnlyProgram (s.put name kind line) := by
  have root : s.current.id = 0 := by
    have program := h.1.program
    rwa [Scopes.program, h.2] at program
  exact ⟨h.1.put name line ⟨fun _ => root, fun same => absurd same plain⟩, h.2⟩

theorem onlyProgram_prelude {env : Environment} {p : Program} {s : Scopes}
    (ran : (prelude env p).run .initial = .ok ((), s)) : OnlyProgram s := by
  have funcs : Settles OnlyProgram (declareFuncs [] p.funcs) := by
    exact settles_declareFuncs (fun s name line h => h.put name line nofun) [] p.funcs
  have objects (vs : List (String × Nat)) :
      Settles OnlyProgram (vs.forM (declareObjectVar env)) := by
    induction vs with
    | nil => exact fun s h => .inl ⟨s, rfl, h⟩
    | cons v vs ih =>
      refine Settles.bind (fun s h => .inl ⟨_, run_declareObjectVar env v s, ?_⟩) ih
      split
      · exact ⟨h.1.declareObjectVar v.1 v.2, (s.under_declareObjectVar v.1 v.2).stack h.2⟩
      · exact h
  rcases funcs.bind (objects p.objectVars) .initial onlyProgram_initial with ⟨s₁, ran₁, only⟩ |
    ⟨name, line, failed⟩
  · rw [prelude, ran₁] at ran
    cases ran
    exact only
  · rw [prelude, failed] at ran
    cases ran

end Resolve

/-- The scopes are numbered from the root on, and each fits its number. -/
structure SymbolTable.IsTree (t : SymbolTable) : Prop where
  root : t.root?.isSome
  numbered : t.scopes.toList.map Scope.id = List.range t.scopes.size
  fits : ∀ i scope, t.scope? i = some scope → scope.Fits i

/-- Once only the program is open, the sorted scopes stand at their numbers. -/
theorem Scopes.Formed.isTree {s : Scopes} (h : s.Formed) (alone : s.stack = []) :
    s.table.IsTree := by
  have all : s.all = (s.archive.push s.current).toList := by simp [Scopes.all, Scopes.chain, alone]
  have perm : s.table.scopes.toList.Perm s.all := all ▸ List.mergeSort_perm _ _
  have sorted : (s.table.scopes.toList.map Scope.id).Pairwise (· ≤ ·) := by
    refine List.pairwise_map.mpr
      ((List.pairwise_mergeSort ?_ ?_ _).imp fun le => of_decide_eq_true le)
    · intro a b c
      simpa using Nat.le_trans
    · intro a b
      simpa using Nat.le_total a.id b.id
  have ids : s.table.scopes.toList.map Scope.id = List.range s.nextId :=
    ((perm.map Scope.id).trans h.numbered).eq_of_pairwise (fun a b _ _ => Nat.le_antisymm) sorted
      (List.pairwise_lt_range.imp Nat.le_of_lt)
  have size : s.table.scopes.size = s.nextId := by
    simpa using congrArg List.length ids
  refine ⟨?_, size ▸ ids, fun i scope found => ?_⟩
  · have pos : 0 < s.table.scopes.size := size ▸ Nat.lt_of_le_of_lt (Nat.zero_le _) h.id_lt
    simp [SymbolTable.root?, SymbolTable.scope?, pos]
  · have mem : scope ∈ s.table.scopes.toList :=
      Array.mem_toList_iff.mpr (Array.mem_of_getElem? found)
    have number : scope.id = i := by
      have there := congrArg (·[i]?) ids
      have inside : i < s.nextId := size ▸ (Array.getElem?_eq_some_iff.mp found).1
      rw [SymbolTable.scope?] at found
      simpa [found, List.getElem?_range inside] using there
    exact number ▸ h.fits scope (perm.mem_iff.mp mem)

/-- Whatever program is resolved, its symbol table is a tree of scopes. -/
theorem Program.isTree_of_resolve {p bound : Program} {env : Environment} {t : SymbolTable}
    (h : p.resolve env = .ok (bound, t)) : t.IsTree := by
  rcases Resolve.settles_prelude env p with ⟨s, ran, -⟩ | ⟨name, line, failed⟩
  · have only := Resolve.onlyProgram_prelude ran
    have acts : Resolve.Does env _ p.actions := Resolve.does_items p
    specialize acts s
    rw [resolve_eq ran] at h
    cases bindings : (p.items.mapM (Resolve.item env)).run s with
    | error e =>
      rw [bindings] at h
      cases h
    | ok r =>
      rw [bindings] at h acts
      cases h
      obtain ⟨formed, alone⟩ := Action.formed_items only.1 only.2 acts.symm
      exact formed.isTree alone
  · rw [Resolve.prelude] at failed
    rw [resolve, Resolve.program_eq, StateT.run_bind, failed] at h
    cases h

/-- A loop inside a function and a block beside it: five scopes. -/
theorem Program.isTree_of_resolve_nested : ∃ p bound t,
    Program.parse "x = 1; function f(a) { for (var i : x) { a = i; } } { var d = x; }" 8 = .ok p ∧
      p.resolve .empty = .ok (bound, t) ∧ t.scopes.size = 5 ∧ t.IsTree := by
  have ran :
      (Program.parse "x = 1; function f(a) { for (var i : x) { a = i; } } { var d = x; }"
        8).toOption.any
      (fun p => ((Resolve.program .empty p).run .initial).toOption.any fun r =>
        (r.2.archive.push r.2.current).size == 5) = true := by decide +kernel
  obtain ⟨p, parsed, found⟩ := exists_ok_of_any ran
  obtain ⟨⟨bound, s⟩, finished, size⟩ := exists_ok_of_any found
  have resolved : p.resolve .empty = .ok (bound, s.table) := by
    rw [resolve, finished]
    rfl
  refine ⟨p, bound, s.table, parsed, resolved, ?_, isTree_of_resolve resolved⟩
  rw [Scopes.table, SymbolTable.ofScopes, List.size_toArray, List.length_mergeSort]
  exact eq_of_beq size

end GraalScript
