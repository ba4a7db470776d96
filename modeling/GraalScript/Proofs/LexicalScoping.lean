import GraalScript.Proofs.Hoisting
import GraalScript.Proofs.Scope.Recorded
import GraalScript.Proofs.Scope.Visible
import Mathlib.Data.List.Nodup

/-! Lexical scoping. Where a program can be resolved, every name in it is bound to the declaration
that the text shows for it: the one that is visible at its place, or else a function or an object
variable of the program, and what the runtime has only where no scope has the name. -/
namespace GraalScript

/-- A place where a program uses a name: all that resolving does before it, the latest first, and
how the name is used. -/
structure Occurrence where
  before : List Action
  use : Use
  name : String

namespace Action

def occurrences (before : List Action) : List Action → List Occurrence
  | [] => []
  | bind use name line :: as => ⟨before, use, name⟩ :: occurrences (bind use name line :: before) as
  | a :: as => occurrences (a :: before) as

/-- With `n` scopes open that may be left, the actions leave no other scope than these and those
that they enter. -/
def isNested : Nat → List Action → Bool
  | _, [] => true
  | n, enter _ :: as => isNested (n + 1) as
  | 0, leave :: _ => false
  | n + 1, leave :: as => isNested n as
  | n, _ :: as => isNested n as

def Whole (as : List Action) : Prop := ∀ n rest, isNested n (as ++ rest) = isNested n rest

variable {as bs : List Action}

theorem whole_nil : Whole [] := fun _ _ => rfl

theorem Whole.append (first : Whole as) (second : Whole bs) : Whole (as ++ bs) := by
  intro n rest
  rw [List.append_assoc, first, second]

theorem Whole.inScope (h : Whole as) (kind : ScopeKind) : Whole (inScope kind as) := by
  intro n rest
  rw [Action.inScope, List.cons_append, List.cons_append, isNested, List.append_assoc, h]
  rfl

theorem whole_of_isBind (h : ∀ a ∈ as, a.IsBind) : Whole as := by
  induction as with
  | nil => exact whole_nil
  | cons a as ih =>
    rw [List.forall_mem_cons] at h
    obtain ⟨use, name, line, rfl⟩ := h.1
    intro n rest
    rw [List.cons_append, isNested, ih h.2] <;> simp

theorem whole_declare (name : String) (kind : SymbolKind) (line : Nat) :
    Whole [.declare name kind line] :=
  fun n rest => by rw [List.singleton_append, isNested] <;> simp

theorem whole_constant (line : Nat) (name : Ident) (value : Expr) :
    Whole [.constant line name value] :=
  fun n rest => by rw [List.singleton_append, isNested] <;> simp

theorem whole_flatMap {α : Type} {actions : α → List Action} (xs : List α)
    (h : ∀ x ∈ xs, Whole (actions x)) : Whole (xs.flatMap actions) := by
  induction xs with
  | nil => exact whole_nil
  | cons x xs ih =>
    rw [List.forall_mem_cons] at h
    exact h.1.append (ih h.2)

theorem whole_expr (e : Expr) : Whole (e.actions .read) :=
  whole_of_isBind (ObjectVars.initial.notes_expr e (by decide)).binds

theorem whole_expr? (e : Option Expr) : Whole (Expr.actions? e) :=
  whole_of_isBind (ObjectVars.initial.notes_expr? e).binds

theorem whole_varDecl (decl : VarDecl) : Whole decl.actions :=
  whole_flatMap decl.defs fun d _ =>
    (whole_expr? d.value).append (whole_declare d.name.name .localVar d.name.line)

theorem whole_forInit (init : Option ForInit) : Whole (ForInit.actions init) := by
  rcases init with _ | ⟨decl⟩ | ⟨e⟩
  · exact whole_nil
  · exact whole_varDecl decl
  · exact whole_expr e

theorem whole_loopItem (declared : Bool) (item : String) (line : Nat) :
    Whole [loopItem declared item line] := by
  cases declared with
  | true => exact whole_declare item .localVar line
  | false => exact whole_of_isBind (List.forall_mem_singleton.mpr ⟨.assign, item, line, rfl⟩)

mutual

theorem whole_stmt (s : Stmt) : Whole s.actions := by
  cases s with
  | block _ body => exact (whole_stmts body).inScope .block
  | ifThen _ cond yes => exact (whole_expr cond).append (whole_stmt yes)
  | ifElse _ cond yes no => exact (whole_expr cond).append ((whole_stmt yes).append (whole_stmt no))
  | whileLoop _ cond body => exact (whole_expr cond).append (whole_stmt body)
  | forLoop _ init cond step body =>
    have turns := (whole_expr? cond).append ((whole_expr? step).append (whole_stmt body))
    exact ((whole_forInit init).append turns).inScope .block
  | forEach line declared item _ iterable body =>
    exact (whole_expr iterable).append
      (((whole_loopItem declared item line).append (whole_stmt body)).inScope .block)
  | withObject _ object body => exact (whole_expr object).append (whole_stmt body)
  | switch _ value cases => exact (whole_expr value).append ((whole_cases cases).inScope .block)
  | new _ _ name _ body => exact (whole_expr name).append ((whole_stmts body).inScope .block)
  | ret _ value => exact whole_expr? value
  | vars decl => exact whole_varDecl decl
  | const line name value => exact whole_constant line name value
  | expr e => exact whole_expr e
  | breakOut | continueLoop | empty => exact whole_nil

theorem whole_stmts (ss : List Stmt) : Whole (Stmt.allActions ss) := by
  cases ss with
  | nil => exact whole_nil
  | cons s ss => exact (whole_stmt s).append (whole_stmts ss)

theorem whole_cases (cs : List Case) : Whole (Case.allActions cs) := by
  cases cs with
  | nil => exact whole_nil
  | cons c cs => exact (whole_case c).append (whole_cases cs)

theorem whole_case (c : Case) : Whole c.actions := by
  cases c with
  | mk _ labels body =>
    exact (whole_flatMap labels fun label _ => whole_expr? label).append (whole_stmts body)

end

theorem whole_item (i : Item) : Whole i.actions := by
  cases i with
  | stmt s => exact whole_stmt s
  | func f =>
    have params : Whole (f.params.map fun p => .declare p.name .param p.line) := by
      rw [List.map_eq_flatMap]
      exact whole_flatMap f.params fun p _ => whole_declare p.name .param p.line
    exact (params.append (whole_stmts f.body.body)).inScope .function

end Action

namespace Constant

variable {α β : Type} {symbol? symbol?' : String → Option Symbol} {fault : ResolveError}

def Carries (r r' : Except ResolveError α) : Prop := ∀ a, r = .ok a → r' = .ok a

theorem carries_refl (r : Except ResolveError α) : Carries r r := fun _ h => h

theorem Carries.bind {r r' : Except ResolveError α} {f f' : α → Except ResolveError β}
    (first : Carries r r') (rest : ∀ a, Carries (f a) (f' a)) : Carries (r >>= f) (r' >>= f') := by
  intro b h
  obtain ⟨a, ran, value⟩ := bind_eq_ok_iff.mp h
  exact bind_eq_ok_iff.mpr ⟨a, first a ran, rest a b value⟩

theorem carries_fold
    (found : ∀ name value, (symbol? name).map Symbol.kind = some (.constant value) →
      (symbol?' name).map Symbol.kind = some (.constant value))
    (e : Expr) : Carries (fold symbol? fault e) (fold symbol?' fault e) := by
  have required {γ : Type} (x : Option γ) : Carries (require fault x) (require fault x) :=
    carries_refl _
  cases e with
  | name line name _ =>
    intro value h
    rw [fold] at h
    split at h
    · cases h
    next symbol here =>
      split at h
      next folded isConstant =>
        obtain ⟨symbol', here', kind⟩ :=
          Option.map_eq_some_iff.mp (found name folded (by rw [here]; exact congrArg _ isConstant))
        rw [fold, here']
        simp only [kind]
        exact h
      · cases h
  | unary _ op operand => exact (carries_fold found operand).bind fun a => carries_refl _
  | binary _ op lhs rhs =>
    refine (carries_fold found lhs).bind fun a => ?_
    have right : Carries (fold symbol? fault rhs) (fold symbol?' fault rhs) :=
      carries_fold found rhs
    split
    · exact right.bind fun b => carries_refl _
    · exact right.bind fun b => carries_refl _
    · exact right.bind fun b => carries_refl _
    · exact (required _).bind fun x => right.bind fun b => carries_refl _
  | logical _ op lhs rhs =>
    refine (carries_fold found lhs).bind fun a => (required _).bind fun x => ?_
    split
    · exact carries_refl _
    · exact carries_refl _
    · exact (carries_fold found rhs).bind fun b => carries_refl _
  | ternary _ cond yes no =>
    refine (carries_fold found cond).bind fun a => (required _).bind fun x => ?_
    split
    · exact carries_fold found yes
    · exact carries_fold found no
  | _ => exact carries_refl _

end Constant

namespace Scopes

open GraalScript.Action

variable {s s' : Scopes} {before as : List Action} {globals : String → Option SymbolKind}
  {x : String}

/-- In every open scope and those around it a name has the declaration that is visible from there,
and else the one that `globals` gives it. -/
def Shows (globals : String → Option SymbolKind) (before : List Action) (s : Scopes) : Prop :=
  ∀ k x, k < s.chain.length →
    (s.chain.drop k).findSome? (·.kind? x) = (visible? before k x).or (globals x)

namespace Shows

theorem lookup (h : Shows globals before s) (x : String) :
    (s.lookup? x).map Symbol.kind = (visible? before 0 x).or (globals x) := by
  rw [map_kind_lookup?]
  exact h 0 x (Nat.succ_pos _)

theorem bind (h : Shows globals before s) {a : Action} (isBind : a.IsBind) :
    Shows globals (a :: before) s := by
  intro k x isOpen
  rw [visible?_of_isBind isBind]
  exact h k x isOpen

theorem enter (h : Shows globals before s) (kind : ScopeKind) :
    Shows globals (.enter kind :: before) (s.enter kind) := by
  intro k x isOpen
  have chain : (s.enter kind).chain = ⟨s.nextId, some s.current.id, kind, ∅⟩ :: s.chain := rfl
  rw [chain] at isOpen ⊢
  cases k with
  | zero =>
    rw [List.drop_zero, List.findSome?_cons, Scope.kind?_opened, visible?]
    exact h 0 x (Nat.succ_pos _)
  | succ k =>
    rw [List.drop_succ_cons, visible?]
    exact h k x (Nat.lt_of_succ_lt_succ isOpen)

theorem leave (h : Shows globals before s) {n : Nat} (isOpen : s.stack.length = n + 1) :
    Shows globals (.leave :: before) s.leave ∧ s.leave.stack.length = n := by
  obtain ⟨current, _ | ⟨parent, rest⟩, archive, nextId⟩ := s
  · cases isOpen
  · refine ⟨fun k x inner => ?_, Nat.succ.inj isOpen⟩
    rw [visible?]
    exact h (k + 1) x (Nat.succ_lt_succ inner)

theorem put (h : Shows globals before s) (name : String) (kind : SymbolKind) (line : Nat)
    {a : Action}
    (here : ∀ x, visible? (a :: before) 0 x = if name = x then some kind else visible? before 0 x)
    (around : ∀ k x, visible? (a :: before) (k + 1) x = visible? before (k + 1) x) :
    Shows globals (a :: before) (s.put name kind line) := by
  intro k x isOpen
  have found := h k x isOpen
  cases k with
  | zero =>
    rw [chain, List.drop_zero, List.findSome?_cons] at found ⊢
    have first : (s.put name kind line).current.kind? x = if name = x then some kind
        else s.current.kind? x :=
      s.current.kind?_put name x kind line
    rw [here, first]
    by_cases same : name = x
    · rw [if_pos same, if_pos same]
      rfl
    · rw [if_neg same, if_neg same]
      exact found
  | succ k =>
    rw [around]
    exact found

theorem declareObjectVar (h : Shows globals before s) (unknown : s.lookup? x = none) (line : Nat) :
    Shows (fun y => if y = x then some .objectVar else globals y) before
      (s.declareObjectVar x line) := by
  intro k y isOpen
  obtain ⟨inner, program⟩ := s.parts_declareObjectVar x line
  rw [chain_eq, inner, program] at isOpen ⊢
  have found := h k y (by rw [chain_eq]; simpa using isOpen)
  have inside : k ≤ s.inner.length := by simpa [Nat.lt_succ_iff] using isOpen
  rw [chain_eq, List.drop_append_of_le_length inside, List.findSome?_append,
    List.findSome?_singleton] at found
  rw [List.drop_append_of_le_length inside, List.findSome?_append, List.findSome?_singleton,
    Scope.kind?_put]
  by_cases same : x = y
  · subst same
    have nowhere : ∀ scope ∈ s.inner ++ [s.program], scope.kind? x = none := by
      have none := congrArg (Option.map Symbol.kind) unknown
      rwa [map_kind_lookup?, chain_eq, Option.map_none, List.findSome?_eq_none_iff] at none
    have deeper : (s.inner.drop k).findSome? (·.kind? x) = none :=
      List.findSome?_eq_none_iff.mpr fun scope mem =>
        nowhere scope (List.mem_append_left _ (List.mem_of_mem_drop mem))
    rw [deeper, nowhere s.program (by simp), eq_comm, Option.or_none,
      Option.or_eq_none_iff] at found
    simp only [deeper, found.1, if_true]
  · simp only [same, Ne.symm same, if_false]
    exact found

end Shows

end Scopes

namespace Program

open GraalScript.Action Resolve Scopes

/-- The functions that are seen by their bare names. -/
def functionNames (p : Program) : List String := (p.funcs.filter (!·.isMethod)).map (·.name.name)

/-- The object variables of a program: what it assigns while no declaration is visible, unless the
runtime has it. -/
def objectNames (p : Program) (env : Environment) : List String :=
  (undeclared [] p.actions).filter (!isBuiltinValue env ·)

/-- What a name refers to by the text, behind some actions of which the latest comes first. -/
def meaning (p : Program) (env : Environment) (before : List Action) (x : String) : Binding :=
  match visible? before 0 x with
  | some kind => kind.binding
  | none =>
    if x ∈ p.functionNames then .func
    else if x ∈ p.objectNames env then .objectVar
    else .builtin

/-- A name is bound to what it refers to by the text. Only what the runtime has is left to it, and
no constant is assigned. -/
structure RefersTo (p : Program) (env : Environment) (o : Occurrence) (b : Binding) : Prop where
  meant : b = p.meaning env o.before o.name
  known : b = .builtin → isBuiltin env o.use o.name = true
  assignable : o.use = .assign → ∀ value, b ≠ .constant value

/-- The symbols that the program scope has without a declaration at their place. -/
structure HasGlobals (p : Program) (env : Environment) (globals : String →
  Option SymbolKind) : Prop where
  func : ∀ x, globals x = some .func ↔ x ∈ p.functionNames
  other : ∀ x kind, globals x = some kind → kind = .func ∨ kind = .objectVar ∧ x ∈ p.objectNames env

variable {p bound : Program} {env : Environment} {globals : String → Option SymbolKind}
  {before as : List Action}
  {s s' : Scopes} {x : String}

theorem isBuiltinValue_of_isBuiltin {use : Use} (h : isBuiltin env use x = true) :
    isBuiltinValue env x = true := by
  cases use with
  | call =>
    rw [isBuiltin, isBuiltinFunction] at h
    rw [isBuiltinValue]
    grind
  | read | assign => exact h

theorem meaning_of_lookup? (has : p.HasGlobals env globals) (shows : Shows globals before s)
    {symbol : Symbol} (found : s.lookup? x = some symbol) :
    p.meaning env before x = symbol.kind.binding := by
  have kinds := shows.lookup x
  rw [found, Option.map_some] at kinds
  rw [meaning]
  cases seen : visible? before 0 x with
  | some kind =>
    rw [seen, Option.some_or] at kinds
    rw [Option.some.inj kinds]
  | none =>
    rw [seen, Option.none_or] at kinds
    rcases has.other x symbol.kind kinds.symm with func | ⟨object, mem⟩
    · rw [func] at kinds ⊢
      simp only [if_pos ((has.func x).mp kinds.symm)]
      rfl
    · rw [object] at kinds ⊢
      have out : x ∉ p.functionNames := fun inside => by simp [(has.func x).mpr inside] at kinds
      simp only [if_neg out, if_pos mem]
      rfl

theorem refersTo_of_bindName (has : p.HasGlobals env globals) (shows : Shows globals before s)
    {use : Use} {line : Nat} {b : Binding}
    (assigned : use = .assign → visible? before 0 x = none → x ∈ undeclared [] p.actions)
    (ran : (bindName env use x line).run s = .ok (b, s')) :
    p.RefersTo env ⟨before, use, x⟩ b ∧ s'.stack.length = s.stack.length ∧
      ∃ globals', p.HasGlobals env globals' ∧ Shows globals' (.bind use x line :: before) s' := by
  have isBind : (Action.bind use x line).IsBind := ⟨use, x, line, rfl⟩
  cases found : s.lookup? x with
  | some symbol =>
    rw [run_bindName_some env use x line found] at ran
    split at ran
    · cases ran
    next free =>
      cases ran
      refine ⟨⟨(meaning_of_lookup? has shows found).symm, fun same => ?_,
        fun assign value same => free ?_⟩, rfl, globals, has, shows.bind isBind⟩
      · cases kind : symbol.kind <;> rw [kind] at same <;> cases same
      · obtain rfl : use = .assign := assign
        cases kind : symbol.kind <;> rw [kind] at same <;> first | rfl | cases same
  | none =>
    have kinds := shows.lookup x
    rw [found, Option.map_none, eq_comm, Option.or_eq_none_iff] at kinds
    have noFunc : x ∉ p.functionNames := fun inside => by simp [(has.func x).mpr inside] at kinds
    rw [run_bindName_none env use x line found] at ran
    split at ran
    next known =>
      cases ran
      have noObject : x ∉ p.objectNames env := fun inside => by
        simpa [isBuiltinValue_of_isBuiltin known] using (List.mem_filter.mp inside).2
      refine ⟨⟨?_, fun _ => known, by rintro _ _ ⟨⟩⟩, rfl, globals, has, shows.bind isBind⟩
      simp only [meaning, kinds.1, if_neg noFunc, if_neg noObject]
    next unknown =>
      split at ran
      next assign =>
        cases ran
        subst assign
        have object : x ∈ p.objectNames env :=
          List.mem_filter.mpr ⟨assigned rfl kinds.1, by simpa [isBuiltin] using unknown⟩
        have depth : (s.declareObjectVar x line).stack.length = s.stack.length := by
          rw [← length_inner, ← length_inner, (s.parts_declareObjectVar x line).1]
        refine ⟨⟨?_, by rintro ⟨⟩, by rintro _ _ ⟨⟩⟩, depth, _,
          ⟨fun y => ?_, fun y kind here => ?_⟩, (shows.declareObjectVar found line).bind isBind⟩
        · simp only [meaning, kinds.1, if_neg noFunc, if_pos object]
        · split
          next same => simp [same, noFunc]
          next => exact has.func y
        · split at here
          next same =>
            subst same
            exact .inr ⟨(Option.some.inj here).symm, object⟩
          next => exact has.other y kind here
      next => cases ran

/-- What an action does that binds no name. -/
theorem shows_of_run (has : p.HasGlobals env globals) (shows : Shows globals before s) {a : Action}
    (other : a.isBind = false) (nested : isNested s.stack.length (a :: as) = true)
    (ran : a.run env s = .ok s') :
    Shows globals (a :: before) s' ∧ isNested s'.stack.length as = true := by
  cases a with
  | bind => cases other
  | enter kind =>
    cases ran
    exact ⟨shows.enter kind, nested⟩
  | leave =>
    cases ran
    cases depth : s.stack.length with
    | zero =>
      rw [depth] at nested
      cases nested
    | succ n =>
      rw [depth] at nested
      obtain ⟨after, left⟩ := shows.leave depth
      exact ⟨after, left ▸ nested⟩
  | declare name kind line =>
    obtain rfl := eq_put_of_declare ran
    refine ⟨shows.put name kind line (fun x => ?_) fun k x => ?_, ?_⟩
    · rw [visible?]
    · rw [visible?] <;> simp
    · rw [isNested] at nested <;> first | exact nested | simp
  | constant line name value =>
    rw [Action.run, run_constDef] at ran
    split at ran
    · cases ran
    · obtain ⟨folded, folds, declared⟩ := bind_eq_ok_iff.mp ran
      obtain rfl := eq_put_of_declare declared
      have constants (y : String) (c : Constant)
          (h : (s.lookup? y).map Symbol.kind = some (.constant c)) :
          ((visible? before 0 y).map (⟨y, ·, 0, 0⟩)).map Symbol.kind = some (.constant c) := by
        rw [shows.lookup] at h
        rcases Option.or_eq_some_iff.mp h with seen | ⟨-, seen⟩
        · rw [seen]
          rfl
        · rcases has.other y _ seen with same | ⟨same, -⟩ <;> cases same
      have again := Constant.carries_fold constants value folded folds
      refine ⟨shows.put name.name (.constant folded) line (fun x => ?_) fun k x => ?_, ?_⟩
      · rw [visible?, again]
        rfl
      · rw [visible?] <;> simp
      · rw [isNested] at nested <;> first | exact nested | simp

theorem refersTo_of_binds {xs : List Binding} (binds : Binds env as s xs s')
    (has : p.HasGlobals env globals) (shows : Shows globals before s)
    (nested : isNested s.stack.length as = true)
    (assigned : ∀ x ∈ undeclared before as, x ∈ undeclared [] p.actions) :
    List.Forall₂ (p.RefersTo env) (occurrences before as) xs := by
  induction binds generalizing before globals with
  | nil s => exact .nil
  | @bind use name line as s s₁ s' b bs bound rest ih =>
    rw [undeclared] at assigned
    have target (assign : use = .assign) (unknown : visible? before 0 name = none) :
        name ∈ undeclared [] p.actions := by
      refine assigned name (List.mem_append_left _ (List.mem_filter.mpr ⟨?_, by rw [unknown]; rfl⟩))
      rw [assign]
      exact List.mem_singleton_self name
    obtain ⟨refers, depth, globals', has', shows'⟩ := refersTo_of_bindName has shows target bound
    rw [isNested, ← depth] at nested
    · exact .cons refers
        (ih has' shows' nested fun x mem => assigned x (List.mem_append_right _ mem))
    all_goals simp
  | @other a as s s₁ s' bs other ran rest ih =>
    obtain ⟨shows', nested'⟩ := shows_of_run has shows other nested ran
    have rest := ih has shows' nested' fun x mem => assigned x (List.mem_append_right _ mem)
    rw [occurrences]
    · exact rest
    · rintro use name line rfl
      cases other

theorem kind?_declareFuncs {seen : List String} {fs : List Func} (alone : s.stack = [])
    (ran : (declareFuncs seen fs).run s = .ok ((), s')) :
    s'.stack = [] ∧ ∀ x, s'.current.kind? x =
      if x ∈ (fs.filter (!·.isMethod)).map (·.name.name) then some .func
        else s.current.kind? x := by
  induction fs generalizing seen s with
  | nil =>
    cases ran
    exact ⟨alone, fun x => by simp⟩
  | cons f fs ih =>
    rw [declareFuncs] at ran
    split at ran
    · cases ran
    · split at ran
      next plain =>
        change (declare f.name.name .func f.name.line >>= fun _ =>
          declareFuncs (f.tableName :: seen) fs).run s = _ at ran
        rw [StateT.run_bind, run_declare] at ran
        obtain ⟨⟨_, s₁⟩, first, rest⟩ := bind_eq_ok_iff.mp ran
        obtain ⟨s₂, declared, same⟩ := bind_eq_ok_iff.mp first
        cases same
        obtain rfl := eq_put_of_declare declared
        have still : (s.put f.name.name .func f.name.line).stack = [] := alone
        obtain ⟨alone', kinds⟩ := ih still rest
        refine ⟨alone', fun x => ?_⟩
        have taken : (f :: fs).filter (!·.isMethod) = f :: fs.filter (!·.isMethod) :=
          List.filter_cons_of_pos plain
        rw [kinds, Scopes.put, Scope.kind?_put, taken, List.map_cons]
        by_cases here : f.name.name = x
        · simp [here]
        · simp only [List.mem_cons, here, Ne.symm here, if_false, false_or]
      next method =>
        obtain ⟨alone', kinds⟩ := ih alone ran
        refine ⟨alone', fun x => ?_⟩
        have skipped : (f :: fs).filter (!·.isMethod) = fs.filter (!·.isMethod) :=
          List.filter_cons_of_neg method
        rw [kinds, skipped]

theorem kind?_declareObjectVar (v : String × Nat) (alone : s.stack = [])
    (ran : (declareObjectVar env v).run s = .ok ((), s')) :
    s'.stack = [] ∧ ∀ x, s'.current.kind? x =
      (s.current.kind? x).or (if x ∈ hoistedNames env [v] then some .objectVar else none) := by
  rw [run_declareObjectVar] at ran
  cases ran
  have here : (s.local? v.1).isNone = (s.current.kind? v.1).isNone := by
    rw [← map_kind_local?, Option.isNone_map]
  rw [here]
  split
  next new =>
    rw [Bool.and_eq_true, Option.isNone_iff_eq_none] at new
    have object : s.declareObjectVar v.1 v.2 = s.put v.1 .objectVar v.2 := by
      rw [Scopes.declareObjectVar, alone]
      rfl
    refine ⟨object ▸ alone, fun x => ?_⟩
    rw [object, Scopes.put, Scope.kind?_put]
    by_cases same : v.1 = x
    · subst same
      simp [hoistedNames, new]
    · simp [hoistedNames, same, Ne.symm same]
  next old =>
    refine ⟨alone, fun x => ?_⟩
    by_cases mem : x ∈ hoistedNames env [v]
    · obtain ⟨rfl, free⟩ : x = v.1 ∧ isBuiltinValue env x = false := by
        simpa [hoistedNames] using mem
      cases kind : s.current.kind? v.1 with
      | none => simp [kind, free] at old
      | some _ => rfl
    · rw [if_neg mem, Option.or_none]

theorem kind?_declareObjectVars {vs : List (String × Nat)} (alone : s.stack = [])
    (ran : (vs.forM (declareObjectVar env)).run s = .ok ((), s')) :
    s'.stack = [] ∧ ∀ x, s'.current.kind? x =
      (s.current.kind? x).or (if x ∈ hoistedNames env vs then some .objectVar else none) := by
  induction vs generalizing s with
  | nil =>
    cases ran
    exact ⟨alone, fun x => by simp [hoistedNames]⟩
  | cons v vs ih =>
    rw [List.forM, StateT.run_bind] at ran
    obtain ⟨⟨_, s₁⟩, first, rest⟩ := bind_eq_ok_iff.mp ran
    obtain ⟨alone₁, kinds₁⟩ := kind?_declareObjectVar v alone first
    obtain ⟨alone', kinds⟩ := ih alone₁ rest
    refine ⟨alone', fun x => ?_⟩
    rw [kinds, kinds₁, Option.or_assoc, hoistedNames_cons env v vs]
    by_cases mem : x ∈ hoistedNames env [v] <;> simp [mem]

/-- Behind the prelude only the program is open, with its functions and object variables. -/
theorem shows_of_prelude (ran : (prelude env p).run .initial = .ok ((), s)) :
    p.HasGlobals env s.current.kind? ∧ Shows s.current.kind? [] s := by
  rw [prelude, StateT.run_bind] at ran
  obtain ⟨⟨_, s₁⟩, funcs, objects⟩ := bind_eq_ok_iff.mp ran
  obtain ⟨alone₁, kinds₁⟩ := kind?_declareFuncs rfl funcs
  obtain ⟨alone, kinds⟩ := kind?_declareObjectVars alone₁ objects
  have nothing (x : String) : Scopes.initial.current.kind? x = none :=
    Scope.kind?_opened 0 none .program x
  have globals (x : String) : s.current.kind? x = if x ∈ p.functionNames then some .func
      else if x ∈ hoistedNames env p.objectVars then some .objectVar else none := by
    rw [kinds, kinds₁, nothing, functionNames]
    split <;> rfl
  refine ⟨⟨fun x => ?_, fun x kind found => ?_⟩, fun k x isOpen => ?_⟩
  · rw [globals]
    grind
  · rw [globals] at found
    split at found
    · exact .inl (Option.some.inj found).symm
    · split at found
      next hoisted =>
        obtain ⟨mem, free⟩ := List.mem_filter.mp hoisted
        exact .inr ⟨(Option.some.inj found).symm,
          List.mem_filter.mpr ⟨ObjectVars.undeclared_of_mem_objectVars mem, free⟩⟩
      next => cases found
  · rw [chain, alone] at isOpen ⊢
    obtain rfl : k = 0 := by simpa using isOpen
    rw [visible?, Option.none_or, List.drop_zero, List.findSome?_singleton]

theorem exists_prelude_of_resolve {t : SymbolTable} (h : p.resolve env = .ok (bound, t)) :
    ∃ s s', (prelude env p).run .initial = .ok ((), s) ∧
      (p.items.mapM (item env)).run s = .ok (bound.items, s') := by
  rcases settles_prelude env p with ⟨s, ran, -⟩ | ⟨name, line, failed⟩
  · rw [resolve_eq ran] at h
    cases bindings : (p.items.mapM (item env)).run s with
    | error e =>
      rw [bindings] at h
      cases h
    | ok r =>
      rw [bindings] at h
      cases h
      exact ⟨s, r.2, ran, bindings⟩
  · rw [prelude] at failed
    rw [resolve, program_eq, StateT.run_bind, failed] at h
    cases h

end Program

open Program in
/-- Wherever a program can be resolved, its tree stays as it is apart from the bindings, and each
name is bound to what it refers to by the text. -/
theorem Program.bindings_of_resolve {p bound : Program} {env : Environment} {t : SymbolTable}
    (h : p.resolve env = .ok (bound, t)) :
    bound.actions = p.actions ∧
      List.Forall₂ (p.RefersTo env) (Action.occurrences [] p.actions) bound.bindings := by
  obtain ⟨s, s', ran, bindings⟩ := exists_prelude_of_resolve h
  obtain ⟨xs, binds, actions, recorded⟩ := Resolve.records_items p s bound.items s' bindings
  obtain ⟨has, shows⟩ := shows_of_prelude ran
  have nested : Action.isNested s.stack.length (p.actions ++ []) = true := by
    have whole : Action.Whole p.actions := Action.whole_flatMap p.items fun i _ =>
      Action.whole_item i
    rw [whole]
    rfl
  rw [List.append_nil] at nested
  refine ⟨actions, ?_⟩
  rw [Program.bindings, recorded]
  exact refersTo_of_binds binds has shows nested fun x mem => mem

/-- `y = 1; function f(y) { { var y = y; return y; } return y; } y;`. -/
def Program.shadowing : Program :=
  let y : Expr := .name 1 "y" .unresolved
  let inner : Stmt := .block 1 [.vars ⟨1, [⟨⟨"y", 1⟩, some y⟩]⟩, .ret 1 (some y)]
  ⟨[.stmt (.expr (.set "y" (.literal 1 (.int 1)))),
    .func ⟨1, false, none, ⟨"f", 1⟩, [⟨"y", 1⟩], ⟨1, [inner, .ret 1 (some y)]⟩⟩,
    .stmt (.expr y)], none⟩

/-- A variable hides a parameter behind its initial value and up to the end of its block, and the
parameter hides an object variable up to the end of its function. -/
theorem Program.bindings_of_resolve_shadowing : ∃ bound t,
    Program.shadowing.resolve .empty = .ok (bound, t) ∧
    bound.bindings = [.objectVar, .param, .localVar, .param, .objectVar] ∧
    bound.actions = Program.shadowing.actions ∧
    List.Forall₂ (Program.shadowing.RefersTo .empty)
      (Action.occurrences [] Program.shadowing.actions) bound.bindings :=
  ⟨_, _, rfl, rfl, bindings_of_resolve rfl⟩

end GraalScript
