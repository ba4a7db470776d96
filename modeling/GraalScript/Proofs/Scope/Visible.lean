import GraalScript.Proofs.Scope.Collecting

/-! Which declaration a name refers to, read off the text. A name refers to the declaration of the
innermost scope that is open and has one, among those that stand before it; so the actions of
resolving are gone through backwards, past all that happened in scopes which are closed by then. The
pass that finds the object variables of a program finds nothing but names that are assigned while
they have no such declaration. -/
namespace GraalScript

namespace Action

/-- The kind of the declaration that a name refers to behind some actions, of which the latest comes
first. Declarations in scopes that were closed do not count; so many scopes are to be left before
others do. A constant has the value of its expression at its place. -/
def visible? : List Action → Nat → String → Option SymbolKind
  | [], _, _ => none
  | leave :: before, closed, x => visible? before (closed + 1) x
  | enter _ :: before, closed, x => visible? before (closed - 1) x
  | declare name kind _ :: before, 0, x => if name = x then some kind else visible? before 0 x
  | constant line name value :: before, 0, x =>
    if name.name = x then
      (Constant.fold (fun y => (visible? before 0 y).map (⟨y, ·, 0, 0⟩))
        (.notConstant name.name line) value).toOption.map .constant
    else visible? before 0 x
  | _ :: before, closed, x => visible? before closed x

/-- The names that an action assigns, those in the expression of a constant included. -/
def targets : Action → List String
  | constant _ _ value => (value.actions .read).filterMap target?
  | a => a.target?.toList

/-- The names that are assigned while no declaration of them is visible. The actions before come
with the latest first. -/
def undeclared (before : List Action) : List Action → List String
  | [] => []
  | a :: as =>
    a.targets.filter (fun x => (visible? before 0 x).isNone) ++ undeclared (a :: before) as

variable {before as bs : List Action} {x : String}

theorem undeclared_append (before as bs : List Action) :
    undeclared before (as ++ bs) = undeclared before as ++
      undeclared (as.reverse ++ before) bs := by
  induction as generalizing before with
  | nil => rfl
  | cons a as ih => simp [undeclared, ih]

theorem visible?_of_isBind {a : Action} (h : a.IsBind) (closed : Nat) :
    visible? (a :: before) closed x = visible? before closed x := by
  obtain ⟨use, name, line, rfl⟩ := h
  rw [visible?] <;> simp

theorem visible?_append_of_isBind (h : ∀ a ∈ as, a.IsBind) (closed : Nat) :
    visible? (as.reverse ++ before) closed x = visible? before closed x := by
  induction as generalizing before with
  | nil => rfl
  | cons a as ih =>
    rw [List.forall_mem_cons] at h
    rw [List.reverse_cons, List.append_assoc, List.singleton_append, ih h.2, visible?_of_isBind h.1]

theorem targets_of_isBind {a : Action} (h : a.IsBind) : a.targets = a.target?.toList := by
  obtain ⟨use, name, line, rfl⟩ := h
  rfl

theorem mem_undeclared_of_isBind (h : ∀ a ∈ as, a.IsBind) (target : x ∈ as.filterMap target?)
    (unknown : visible? before 0 x = none) : x ∈ undeclared before as := by
  induction as generalizing before with
  | nil => cases target
  | cons a as ih =>
    rw [List.forall_mem_cons] at h
    obtain ⟨b, mem, assigned⟩ := List.mem_filterMap.mp target
    rw [undeclared, List.mem_append]
    rcases List.mem_cons.mp mem with rfl | mem
    · refine .inl (List.mem_filter.mpr ⟨?_, by rw [unknown]; rfl⟩)
      rw [targets_of_isBind h.1, assigned]
      exact List.mem_singleton_self x
    · exact .inr
        (ih h.2 (List.mem_filterMap.mpr ⟨b, mem, assigned⟩)
          ((visible?_of_isBind h.1 0).trans unknown))

end Action

namespace ObjectVars

open GraalScript.Action

variable {v v' : ObjectVars} {before as bs : List Action} {f g : ObjectVars → ObjectVars}
  {x : String}

/-- What is visible before the actions, the pass takes for declared. -/
def Knows (v : ObjectVars) (before : List Action) : Prop :=
  v.declared ≠ [] ∧ ∀ x, (visible? before 0 x).isSome → x ∈ v.declared.flatten

/-- Behind a piece of a program the pass knows what is visible, and what it has found there is
assigned without a declaration. The scopes around the piece are as they were. -/
structure Found (v v' : ObjectVars) (before as : List Action) : Prop where
  tail : v'.declared.tail = v.declared.tail
  around : ∀ k x, visible? (as.reverse ++ before) (k + 1) x = visible? before (k + 1) x
  knows : v'.Knows (as.reverse ++ before)
  origin : ∀ x ∈ v'.names, x ∈ v.names ∨ x ∈ undeclared before as

/-- Going over a piece of a program with `f` finds only what its actions assign without a
declaration. -/
def Finds (f : ObjectVars → ObjectVars) (as : List Action) : Prop :=
  ∀ v before, v.Knows before → Found v (f v) before as

theorem Found.append {v₁ v₂ : ObjectVars} (first : Found v v₁ before as)
    (second : Found v₁ v₂ (as.reverse ++ before) bs) : Found v v₂ before (as ++ bs) := by
  have behind : (as ++ bs).reverse ++ before = bs.reverse ++ (as.reverse ++ before) := by simp
  refine ⟨second.tail.trans first.tail, fun k x => ?_, behind ▸ second.knows, fun x mem => ?_⟩
  · rw [behind, second.around, first.around]
  · rw [undeclared_append, List.mem_append]
    rcases second.origin x mem with earlier | here
    · exact (first.origin x earlier).imp_right .inl
    · exact .inr (.inr here)

theorem Finds.append (first : Finds f as) (second : Finds g bs) :
    Finds (fun v => g (f v)) (as ++ bs) := by
  intro v before knows
  have found := first v before knows
  exact found.append (second (f v) _ found.knows)

theorem finds_nil : Finds (fun v => v) [] :=
  fun _ _ knows => ⟨rfl, fun _ _ => rfl, knows, fun _ => .inl⟩

theorem found_of_notes (notes : Notes v v' as) (knows : v.Knows before) : Found v v' before as := by
  refine ⟨congrArg _ notes.declared, fun k x => visible?_append_of_isBind notes.binds _, ?_,
    fun x mem => ?_⟩
  · refine ⟨notes.declared ▸ knows.1, fun x seen => ?_⟩
    rw [visible?_append_of_isBind notes.binds] at seen
    exact notes.declared ▸ knows.2 x seen
  · refine (notes.origin x mem).imp_right fun new => mem_undeclared_of_isBind notes.binds new.1 ?_
    exact Option.not_isSome_iff_eq_none.mp fun seen => new.2 (knows.2 x seen)

theorem finds_of_notes (h : ∀ v, Notes v (f v) as) : Finds f as :=
  fun v _ knows => found_of_notes (h v) knows

theorem finds_expr (e : Expr) : Finds (·.expr e) (e.actions .read) :=
  finds_of_notes fun v => v.notes_expr e (by decide)

theorem finds_expr? (e : Option Expr) : Finds (·.expr? e) (Expr.actions? e) :=
  finds_of_notes fun v => v.notes_expr? e

theorem names_declare (v : ObjectVars) (name : String) : (v.declare name).names = v.names := by
  unfold declare
  split <;> rfl

theorem mem_declare_iff (nonempty : v.declared ≠ []) (name : String) :
    x ∈ (v.declare name).declared.flatten ↔ x = name ∨ x ∈ v.declared.flatten := by
  obtain ⟨names, rest, found⟩ := List.exists_cons_of_ne_nil nonempty
  rw [declare, found, List.flatten_cons, List.cons_append, List.mem_cons, List.flatten_cons]

theorem declared_declare_ne_nil (nonempty : v.declared ≠ []) (name : String) :
    (v.declare name).declared ≠ [] := by
  obtain ⟨names, rest, found⟩ := List.exists_cons_of_ne_nil nonempty
  rw [declare, found]
  exact List.cons_ne_nil _ _

theorem Knows.declare (h : v.Knows before) (name : String) {a : Action}
    (here : ∀ x, (visible? (a :: before) 0 x).isSome → x = name ∨ (visible? before 0 x).isSome) :
    (v.declare name).Knows (a :: before) :=
  ⟨declared_declare_ne_nil h.1 name,
    fun x seen => (mem_declare_iff h.1 name).mpr ((here x seen).imp_right (h.2 x))⟩

theorem finds_declare (name : String) (kind : SymbolKind) (line : Nat) :
    Finds (·.declare name) [.declare name kind line] := by
  intro v before knows
  refine ⟨v.tail_declare name,
    fun k x => by simp [visible?], knows.declare name fun x seen => ?_, fun x mem => ?_⟩
  · rw [visible?] at seen
    split at seen
    next same => exact .inl same.symm
    next => exact .inr seen
  · exact .inl (by rwa [names_declare] at mem)

theorem finds_const (line : Nat) (name : Ident) (value : Expr) :
    Finds (fun v => (v.expr value).declare name.name) [.constant line name value] := by
  intro v before knows
  have notes : Notes v (v.expr value) (value.actions .read) := v.notes_expr value (by decide)
  have knows' : (v.expr value).Knows before :=
    ⟨notes.declared ▸ knows.1, fun x seen => notes.declared ▸ knows.2 x seen⟩
  refine ⟨?_,
    fun k x => by simp [visible?], knows'.declare name.name fun x seen => ?_, fun x mem => ?_⟩
  · exact (tail_declare _ _).trans (congrArg _ notes.declared)
  · rw [visible?] at seen
    split at seen
    next same => exact .inl same.symm
    next => exact .inr seen
  · rw [names_declare] at mem
    refine (notes.origin x mem).imp_right fun new => ?_
    rw [undeclared, undeclared, List.append_nil]
    refine List.mem_filter.mpr ⟨new.1, Option.isNone_iff_eq_none.mpr ?_⟩
    exact Option.not_isSome_iff_eq_none.mp fun seen => new.2 (knows.2 x seen)

theorem finds_foldl {α : Type} {step : ObjectVars → α → ObjectVars} {actions : α → List Action}
    (xs : List α) (h : ∀ x ∈ xs, Finds (step · x) (actions x)) :
    Finds (fun v => xs.foldl step v) (xs.flatMap actions) := by
  induction xs with
  | nil => exact finds_nil
  | cons x xs ih =>
    rw [List.forall_mem_cons] at h
    exact h.1.append (ih h.2)

/-- Behind a scope all is as it was before it. The first actions in it declare names, which the pass
knows from the start. -/
theorem Found.inScope {opened closed : ObjectVars} {inner : List Action} {kind : ScopeKind}
    (knows : v.Knows before) (found : Found opened v' (inner.reverse ++ enter kind :: before) as)
    (start : opened.names = v.names) (stop : closed.names = v'.names)
    (declared : closed.declared = v.declared)
    (around : ∀ k x, visible? (inner.reverse ++ enter kind :: before) (k + 1) x =
      visible? before k x)
    (plain : undeclared (enter kind :: before) inner = []) :
    Found v closed before (Action.inScope kind (inner ++ as)) := by
  have behind : (Action.inScope kind (inner ++ as)).reverse ++ before =
      leave :: (as.reverse ++ (inner.reverse ++ enter kind :: before)) := by simp [Action.inScope]
  have same (k : Nat) (x : String) :
      visible? ((Action.inScope kind (inner ++ as)).reverse ++ before) k x =
        visible? before k x := by
    rw [behind, visible?, found.around, around]
  refine ⟨congrArg _ declared, fun k x => same (k + 1) x, ⟨declared ▸ knows.1, fun x seen => ?_⟩,
    fun x mem => ?_⟩
  · rw [same] at seen
    exact declared ▸ knows.2 x seen
  · have whole : undeclared before (Action.inScope kind (inner ++ as)) =
        undeclared (inner.reverse ++ enter kind :: before) as := by
      simp [Action.inScope, undeclared, undeclared_append, plain, targets, target?]
    rw [whole, ← start]
    exact found.origin x (stop ▸ mem)

theorem Knows.opened (h : v.Knows before) (kind : ScopeKind) :
    (v.opened []).Knows (.enter kind :: before) :=
  ⟨List.cons_ne_nil _ _, fun x seen => h.2 x seen⟩

theorem Finds.inScope (kind : ScopeKind) (h : Finds f as) :
    Finds (fun v => (f (v.opened [])).closed) (Action.inScope kind as) := by
  intro v before knows
  have found : Found (v.opened []) (f (v.opened [])) ([].reverse ++ .enter kind :: before) as :=
    h (v.opened []) _ (knows.opened kind)
  exact found.inScope knows rfl rfl found.tail (fun _ _ => rfl) rfl

theorem finds_switch (value : Expr) (h : Finds f as) :
    Finds (fun v => (f ((v.opened []).expr value)).closed)
      (value.actions .read ++ Action.inScope .block as) := by
  intro v before knows
  let inside := (v.opened []).expr value
  have notes : Notes (v.opened []) inside (value.actions .read) := notes_expr _ value (by decide)
  have declared : inside.closed.declared = v.declared := congrArg List.tail notes.declared
  have reopened : inside.closed.opened [] = inside := by
    rw [opened, declared]
    exact congrArg (ObjectVars.mk · inside.seen inside.found) notes.declared.symm
  have outside : Notes v inside.closed (value.actions .read) :=
    ⟨notes.binds, declared, notes.kept, notes.marked, notes.noted, notes.origin⟩
  have first := found_of_notes outside knows
  have rest := h.inScope .block inside.closed _ first.knows
  dsimp only at rest
  rw [reopened] at rest
  exact first.append rest

theorem found_initializers (ds : List VarDef) (knows : v.Knows before)
    (heads : ∀ d ∈ ds, d.name.name ∈ v.declared.flatten) :
    Found v (v.initializers ds) before (ds.flatMap VarDef.actions) := by
  induction ds generalizing v before with
  | nil => exact finds_nil v before knows
  | cons d ds ih =>
    rw [List.forall_mem_cons] at heads
    have same := (v.notes_expr? d.value).declared
    have value := finds_expr? d.value v before knows
    have first : Found v (v.expr? d.value) before d.actions := by
      refine value.append
        ⟨rfl, fun k x => by simp [visible?], ⟨value.knows.1, fun x seen => ?_⟩, fun _ => .inl⟩
      rw [List.reverse_singleton, List.singleton_append, visible?] at seen
      split at seen
      next here =>
        rw [same, ← here]
        exact heads.1
      next => exact value.knows.2 x seen
    refine first.append (ih first.knows fun d mem => ?_)
    rw [same]
    exact heads.2 d mem

theorem mem_declare_heads (ds : List VarDef) (nonempty : v.declared ≠ []) :
    (ds.foldl (fun v d => v.declare d.name.name) v).declared ≠ [] ∧
      ∀ x, x ∈ ds.map (·.name.name) ∨ x ∈ v.declared.flatten →
        x ∈ (ds.foldl (fun v d => v.declare d.name.name) v).declared.flatten := by
  induction ds generalizing v with
  | nil => exact ⟨nonempty, fun x mem => mem.resolve_left List.not_mem_nil⟩
  | cons d ds ih =>
    obtain ⟨nonempty', kept⟩ := ih (declared_declare_ne_nil nonempty d.name.name)
    refine ⟨nonempty', fun x mem => kept x ?_⟩
    rw [mem_declare_iff nonempty]
    rw [List.map_cons, List.mem_cons] at mem
    tauto

theorem finds_forInit (init : Option ForInit) : Finds (·.forInit init) (ForInit.actions init) := by
  rcases init with _ | ⟨decl⟩ | ⟨e⟩
  · exact finds_nil
  · intro v before knows
    obtain ⟨nonempty, kept⟩ := mem_declare_heads decl.defs knows.1
    obtain ⟨tail, names, -, -⟩ := v.declare_head decl.defs
    have heads : ∀ d ∈ decl.defs, d.name.name ∈ _ :=
      fun d mem => kept _ (.inl (List.mem_map_of_mem mem))
    have found :=
      found_initializers decl.defs ⟨nonempty, fun x seen => kept x (.inr (knows.2 x seen))⟩ heads
    exact ⟨found.tail.trans tail, found.around, found.knows,
      fun x mem => names ▸ found.origin x mem⟩
  · exact finds_expr e

mutual

theorem finds_stmt (s : Stmt) : Finds (·.stmt s) s.actions := by
  cases s with
  | block _ body => exact (finds_stmts body).inScope .block
  | ifThen _ cond yes => exact (finds_expr cond).append (finds_stmt yes)
  | ifElse _ cond yes no => exact (finds_expr cond).append ((finds_stmt yes).append (finds_stmt no))
  | whileLoop _ cond body => exact (finds_expr cond).append (finds_stmt body)
  | forLoop _ init cond step body =>
    have turns := (finds_expr? cond).append ((finds_expr? step).append (finds_stmt body))
    exact ((finds_forInit init).append turns).inScope .block
  | forEach line declared item _ iterable body =>
    cases declared with
    | true =>
      have declare := finds_declare item .localVar line
      exact (finds_expr iterable).append ((declare.append (finds_stmt body)).inScope .block)
    | false =>
      have assign : Finds (·.assign item line) [.bind .assign item line] :=
        finds_of_notes fun v => v.notes_assign item line line
      exact (finds_expr iterable).append ((assign.append (finds_stmt body)).inScope .block)
  | withObject _ object body => exact (finds_expr object).append (finds_stmt body)
  | switch _ value cases => exact finds_switch value (finds_caseList cases)
  | new _ _ name _ body => exact (finds_expr name).append ((finds_stmts body).inScope .block)
  | ret _ value => exact finds_expr? value
  | vars decl =>
    exact finds_foldl decl.defs fun d _ =>
      (finds_expr? d.value).append (finds_declare d.name.name .localVar d.name.line)
  | const line name value => exact finds_const line name value
  | expr e => exact finds_expr e
  | breakOut | continueLoop | empty => exact finds_nil

theorem finds_stmts (ss : List Stmt) : Finds (·.stmts ss) (Stmt.allActions ss) := by
  cases ss with
  | nil => exact finds_nil
  | cons s ss => exact (finds_stmt s).append (finds_stmts ss)

theorem finds_caseList (cs : List Case) : Finds (·.caseList cs) (Case.allActions cs) := by
  cases cs with
  | nil => exact finds_nil
  | cons c cs => exact (finds_oneCase c).append (finds_caseList cs)

theorem finds_oneCase (c : Case) : Finds (·.oneCase c) c.actions := by
  cases c with
  | mk _ labels body =>
    exact (finds_foldl labels fun label _ => finds_expr? label).append (finds_stmts body)

end

theorem visible?_params (params : List Ident) (before : List Action) :
    (∀ k x,
      visible? ((params.map fun p => Action.declare p.name .param p.line).reverse ++ before)
        (k + 1) x = visible? before (k + 1) x) ∧
    ∀ x,
      (visible? ((params.map fun p => Action.declare p.name .param p.line).reverse ++ before)
        0 x).isSome → x ∈ params.map (·.name) ∨ (visible? before 0 x).isSome := by
  induction params generalizing before with
  | nil => exact ⟨fun _ _ => rfl, fun _ => .inr⟩
  | cons p params ih =>
    obtain ⟨around, here⟩ := ih (.declare p.name .param p.line :: before)
    simp only [List.map_cons, List.reverse_cons, List.append_assoc, List.singleton_append,
      List.mem_cons]
    refine ⟨fun k x => by rw [around, visible?] <;> simp, fun x seen => ?_⟩
    rcases here x seen with later | seen
    · exact .inl (.inr later)
    · rw [visible?] at seen
      split at seen
      next same => exact .inl (.inl same.symm)
      next => exact .inr seen

theorem undeclared_params (params : List Ident) (before : List Action) :
    undeclared before (params.map fun p => Action.declare p.name .param p.line) = [] := by
  induction params generalizing before with
  | nil => rfl
  | cons p params ih => exact ih _

theorem finds_item (i : Item) : Finds (·.item i) i.actions := by
  cases i with
  | stmt s => exact finds_stmt s
  | func f =>
    intro v before knows
    let inside := (v.opened (f.params.map (·.name))).opened []
    obtain ⟨around, here⟩ := visible?_params f.params (.enter .function :: before)
    have knows' :
        inside.Knows ((f.params.map fun p => Action.declare p.name .param p.line).reverse ++
          .enter .function :: before) := by
      refine ⟨List.cons_ne_nil _ _, fun x seen => ?_⟩
      have mem : x ∈ f.params.map (·.name) ++ v.declared.flatten :=
        List.mem_append.mpr ((here x seen).imp_right (knows.2 x))
      exact mem
    have found := finds_stmts f.body.body inside _ knows'
    have declared : (inside.stmts f.body.body).closed.closed.declared = v.declared :=
      congrArg List.tail found.tail
    exact found.inScope knows rfl rfl declared around (undeclared_params f.params _)

/-- All object variables that are found are assigned without a declaration. -/
theorem undeclared_of_mem_objectVars {p : Program} (h : x ∈ p.objectVars.map Prod.fst) :
    x ∈ undeclared [] p.actions := by
  have items : Finds (fun v => p.items.foldl item v) p.actions := finds_foldl p.items fun i _ =>
    finds_item i
  have found := items initial [] ⟨List.cons_ne_nil _ _, fun x seen => by simp [visible?] at seen⟩
  exact (found.origin x h).resolve_left List.not_mem_nil

end ObjectVars

end GraalScript
