import GraalScript.Proofs.Scope.Tracking

/-! The pass that finds the object variables of a program finds every name that the actions of
resolving assign unseen, unless the head of a `for` assigns a variable before it declares it: the
pass takes all variables of a head for declared from its start, and resolving declares each behind
its initial value. -/
namespace GraalScript

namespace ObjectVars

open GraalScript.Action

variable {v v₁ v₂ : ObjectVars} {x : String}

def names (v : ObjectVars) : List String := v.found.toList.map Prod.fst

def Marked (v : ObjectVars) : Prop := ∀ x, v.seen.contains x = true → x ∈ v.names

theorem mem_names_assign (v : ObjectVars) (name : String) (line : Nat) (h : x ∈ v.names) :
    x ∈ (v.assign name line).names := by
  unfold assign
  split
  · exact h
  · simp only [names, Array.toList_push, List.map_append, List.mem_append]
    exact .inl h

theorem declared_assign (v : ObjectVars) (name : String) (line : Nat) :
    (v.assign name line).declared = v.declared := by
  unfold assign
  split <;> rfl

theorem Marked.assign (h : v.Marked) (name : String) (line : Nat) :
    (v.assign name line).Marked := by
  intro x seen
  unfold ObjectVars.assign at seen ⊢
  split at seen
  next known =>
    rw [if_pos known]
    exact h x seen
  next known =>
    rw [if_neg known]
    simp only [Std.TreeSet.contains_insert, Bool.or_eq_true] at seen
    simp only [names, Array.toList_push, List.map_append, List.mem_append]
    rcases seen with same | before
    · obtain rfl : name = x := by simpa using same
      exact .inr List.mem_cons_self
    · exact .inl (h x before)

theorem mem_names_of_assign (h : v.Marked) (name : String) (line : Nat) :
    name ∈ v.declared.flatten ∨ name ∈ (v.assign name line).names := by
  unfold assign
  split
  next known =>
    simp only [Bool.or_eq_true, List.any_eq_true, List.contains_iff_mem] at known
    rcases known with ⟨scope, inside, here⟩ | seen
    · exact .inl (List.mem_flatten.mpr ⟨scope, inside, here⟩)
    · exact .inr (h name seen)
  next =>
    refine .inr ?_
    simp [names]

/-- Going over an expression finds the targets in it that are not declared. -/
structure Notes (v v' : ObjectVars) (as : List Action) : Prop where
  binds : ∀ a ∈ as, a.IsBind
  declared : v'.declared = v.declared
  kept : ∀ x ∈ v.names, x ∈ v'.names
  marked : v.Marked → v'.Marked
  noted : v.Marked → ∀ x ∈ as.filterMap target?, x ∈ v.declared.flatten ∨ x ∈ v'.names
  origin : ∀ x ∈ v'.names, x ∈ v.names ∨ x ∈ as.filterMap target? ∧ x ∉ v.declared.flatten

namespace Notes

variable {as bs : List Action}

theorem refl (v : ObjectVars) (binds : ∀ a ∈ as, a.IsBind) (h : as.filterMap target? = []) :
    Notes v v as where
  binds := binds
  declared := rfl
  kept _ mem := mem
  marked h := h
  noted _ x mem := by rw [h] at mem; cases mem
  origin _ mem := .inl mem

theorem nil (v : ObjectVars) : Notes v v [] := .refl v (List.forall_mem_nil _) rfl

theorem trans (first : Notes v v₁ as) (second : Notes v₁ v₂ bs) : Notes v v₂ (as ++ bs) where
  binds := List.forall_mem_append.mpr ⟨first.binds, second.binds⟩
  declared := second.declared.trans first.declared
  kept x mem := second.kept x (first.kept x mem)
  marked h := second.marked (first.marked h)
  noted h x mem := by
    rw [List.filterMap_append, List.mem_append] at mem
    rcases mem with here | later
    · exact (first.noted h x here).imp_right (second.kept x)
    · exact first.declared ▸ second.noted (first.marked h) x later
  origin x mem := by
    rw [List.filterMap_append, List.mem_append]
    rcases second.origin x mem with before | ⟨target, out⟩
    · exact (first.origin x before).imp_right fun new => ⟨.inl new.1, new.2⟩
    · exact .inr ⟨.inr target, first.declared ▸ out⟩

theorem swap (h : Notes v v₁ (as ++ bs)) : Notes v v₁ (bs ++ as) where
  binds := List.forall_mem_append.mpr (List.forall_mem_append.mp h.binds).symm
  declared := h.declared
  kept := h.kept
  marked := h.marked
  noted marked x mem := by
    refine h.noted marked x ?_
    rw [List.filterMap_append, List.mem_append] at mem ⊢
    exact mem.symm
  origin x mem := by
    have origin := h.origin x mem
    rw [List.filterMap_append, List.mem_append] at origin ⊢
    exact origin.imp_right fun new => ⟨new.1.symm, new.2⟩

end Notes

theorem notes_assign (v : ObjectVars) (name : String) (line line' : Nat) :
    Notes v (v.assign name line) [.bind .assign name line'] where
  binds := List.forall_mem_singleton.mpr ⟨.assign, name, line', rfl⟩
  declared := v.declared_assign name line
  kept _ := v.mem_names_assign name line
  marked h := h.assign name line
  noted h x mem := by
    obtain rfl : x = name := by simpa [target?] using mem
    exact mem_names_of_assign h x line
  origin x mem := by
    unfold assign at mem
    split at mem
    · exact .inl mem
    next new =>
      simp only [names, Array.toList_push, List.map_append, List.mem_append, List.map_cons,
        List.map_nil, List.mem_singleton] at mem
      refine mem.imp_right ?_
      rintro rfl
      have out : x ∉ v.declared.flatten := by
        intro inside
        obtain ⟨names, isOpen, mem⟩ := List.mem_flatten.mp inside
        refine new (Bool.or_eq_true_iff.mpr (.inl ?_))
        exact List.any_eq_true.mpr ⟨names, isOpen, by simpa using mem⟩
      exact ⟨by simp [target?], out⟩

theorem notes_target {target : Expr}
    (h : ∀ v : ObjectVars, Notes v (v.expr target) (target.actions .read)) (v : ObjectVars) :
    Notes v ((v.assignTo target).expr target) (target.actions .assign) := by
  cases target with
  | name line name _ => exact v.notes_assign name line line
  | _ => exact h v

mutual

theorem notes_expr (v : ObjectVars) (e : Expr) {use : Use} (other : use ≠ .assign) :
    Notes v (v.expr e) (e.actions use) := by
  have read : Use.read ≠ .assign := nofun
  have call : Use.call ≠ .assign := nofun
  cases e with
  | literal | newArray => exact .nil v
  | name line name _ =>
    refine .refl v (List.forall_mem_singleton.mpr ⟨use, name, line, rfl⟩) ?_
    cases use with
    | assign => exact absurd rfl other
    | _ => rfl
  | member _ object _ => exact v.notes_expr object read
  | index _ object i => exact (v.notes_expr object read).trans (notes_expr _ i read)
  | call _ callee args => exact (v.notes_expr callee call).trans (notes_exprs _ args)
  | array _ items => exact v.notes_exprs items
  | unary _ _ operand => exact v.notes_expr operand read
  | step _ _ _ target => exact notes_target (fun v => v.notes_expr target read) v
  | binary _ _ lhs rhs => exact (v.notes_expr lhs read).trans (notes_expr _ rhs read)
  | logical _ _ lhs rhs => exact (v.notes_expr lhs read).trans (notes_expr _ rhs read)
  | assign _ _ target value =>
    exact ((notes_target (fun v => v.notes_expr target read) v).trans
      (notes_expr _ value read)).swap
  | ternary _ cond yes no =>
    rw [Expr.actions, ← List.append_assoc]
    exact ((v.notes_expr cond read).trans (notes_expr _ yes read)).trans (notes_expr _ no read)
  | cast _ _ operand => exact v.notes_expr operand read
  | inRange _ value lower upper =>
    rw [Expr.actions, ← List.append_assoc]
    exact ((v.notes_expr value read).trans (notes_expr _ lower read)).trans
      (notes_expr _ upper read)
  | inObject _ value object => exact (v.notes_expr value read).trans (notes_expr _ object read)
  | new _ _ args => exact v.notes_exprs args

theorem notes_exprs (v : ObjectVars) (es : List Expr) :
    Notes v (v.exprs es) (Expr.allActions es) := by
  cases es with
  | nil => exact .nil v
  | cons e es =>
    have read : Use.read ≠ .assign := nofun
    exact (v.notes_expr e read).trans (notes_exprs _ es)

end

theorem notes_expr? (v : ObjectVars) (e : Option Expr) : Notes v (v.expr? e) (Expr.actions? e) := by
  cases e with
  | none => exact .nil v
  | some e =>
    have read : Use.read ≠ .assign := nofun
    exact v.notes_expr e read

/-- Going over a piece of a program finds the names that its actions assign unseen, provided the
pass takes no name for declared that is not; and behind the piece it takes none so either. -/
structure Collected (v v' : ObjectVars) (stack stack' : List (List String))
  (as : List Action) : Prop where
  tail : v'.declared.tail = v.declared.tail
  marked : v'.Marked
  kept : ∀ x ∈ v.names, x ∈ v'.names
  tracked : trackAll stack as = stack'
  declared : ∀ x ∈ v'.declared.flatten, x ∈ stack'.flatten
  found : ∀ x ∈ unseen stack as, x ∈ v'.names

def Collects (f : ObjectVars → ObjectVars) (as : List Action) : Prop :=
  ∀ v top rest, v.Marked → (∀ x ∈ v.declared.flatten, x ∈ (top :: rest).flatten) →
    ∃ top', Collected v (f v) (top :: rest) (top' :: rest) as

variable {f g : ObjectVars → ObjectVars} {as bs : List Action}

theorem Collects.append (first : Collects f as) (second : Collects g bs) :
    Collects (fun v => g (f v)) (as ++ bs) := by
  intro v top rest marked sound
  obtain ⟨top₁, h₁⟩ := first v top rest marked sound
  obtain ⟨top₂, h₂⟩ := second (f v) top₁ rest h₁.marked h₁.declared
  refine ⟨top₂, h₂.tail.trans h₁.tail, h₂.marked, fun x mem => h₂.kept x (h₁.kept x mem), ?_,
    h₂.declared, ?_⟩
  · rw [trackAll_append, h₁.tracked, h₂.tracked]
  · intro x mem
    rw [unseen_append, h₁.tracked, List.mem_append] at mem
    exact mem.elim (fun here => h₂.kept x (h₁.found x here)) (h₂.found x)

theorem collects_nil : Collects (fun v => v) [] := fun _ top _ marked sound =>
  ⟨top, rfl, marked, fun _ mem => mem, rfl, sound, fun _ mem => nomatch mem⟩

theorem Collects.inScope (kind : ScopeKind) (h : Collects f as) :
    Collects (fun v => (f (v.opened [])).closed) (Action.inScope kind as) := by
  intro v top rest marked sound
  obtain ⟨inner, hf⟩ := h (v.opened []) [] (top :: rest) marked sound
  have declared : (f (v.opened [])).closed.declared = v.declared := hf.tail
  refine ⟨top, ?_⟩
  have tracked : trackAll ([] :: top :: rest) as = inner :: top :: rest := hf.tracked
  refine ⟨congrArg _ declared, hf.marked, hf.kept, ?_, declared ▸ sound, fun x mem => hf.found x ?_⟩
  · rw [Action.inScope, List.cons_append, trackAll, trackAll_append]
    exact congrArg (trackAll · [.leave]) tracked
  · simpa [Action.inScope, unseen, unseen_append, target?, track] using mem

/-- What is noted in an expression is what it assigns unseen. -/
theorem collects_of_notes (h : ∀ v, Notes v (f v) as) : Collects f as := by
  intro v top rest marked sound
  have notes := h v
  refine ⟨top, congrArg _ notes.declared, notes.marked marked, notes.kept,
    trackAll_of_isBind notes.binds _, notes.declared ▸ sound, fun x mem => ?_⟩
  obtain ⟨target, out⟩ := mem_unseen_of_isBind notes.binds mem
  exact (notes.noted marked x target).resolve_left fun inside => out (sound x inside)

theorem collects_expr (e : Expr) : Collects (·.expr e) (e.actions .read) :=
  collects_of_notes fun v => v.notes_expr e (fun h : Use.read = .assign => nomatch h)

theorem collects_expr? (e : Option Expr) : Collects (·.expr? e) (Expr.actions? e) :=
  collects_of_notes fun v => v.notes_expr? e

theorem mem_declare (v : ObjectVars) (name : String) (h : x ∈ (v.declare name).declared.flatten) :
    x = name ∨ x ∈ v.declared.flatten := by
  unfold declare at h
  split at h
  · exact .inr h
  next found =>
    rw [List.flatten_cons, List.cons_append, List.mem_cons] at h
    rwa [found, List.flatten_cons]

theorem tail_declare (v : ObjectVars) (name : String) :
    (v.declare name).declared.tail = v.declared.tail := by
  unfold declare
  split
  · rfl
  next found => rw [found]; rfl

theorem collects_declare {name : String} {a : Action}
    (tracks : ∀ top rest, track (top :: rest) a = (name :: top) :: rest)
    (plain : a.target? = none) : Collects (·.declare name) [a] := by
  intro v top rest marked sound
  have same : (v.declare name).found = v.found ∧ (v.declare name).seen = v.seen := by
    unfold declare
    split <;> exact ⟨rfl, rfl⟩
  have names : (v.declare name).names = v.names := congrArg (·.toList.map Prod.fst) same.1
  refine ⟨name :: top, v.tail_declare name, fun x seen => ?_, fun x mem => names ▸ mem,
    tracks top rest, fun x mem => ?_, fun x mem => ?_⟩
  · rw [names]
    exact marked x (same.2 ▸ seen)
  · rcases v.mem_declare name mem with rfl | before
    · exact List.mem_cons_self
    · exact List.mem_cons_of_mem name (sound x before)
  · simp [unseen, plain] at mem

theorem collects_foldl {α : Type} {step : ObjectVars → α → ObjectVars} {actions : α → List Action}
    (xs : List α) (h : ∀ x ∈ xs, Collects (step · x) (actions x)) :
    Collects (fun v => xs.foldl step v) (xs.flatMap actions) := by
  induction xs with
  | nil => exact collects_nil
  | cons x xs ih =>
    rw [List.forall_mem_cons] at h
    exact h.1.append (ih h.2)

theorem collects_varDef (d : VarDef) :
    Collects (fun v => (v.expr? d.value).declare d.name.name) d.actions :=
  (collects_expr? d.value).append (collects_declare (fun _ _ => rfl) rfl)

theorem collects_silent (h : ∀ v, ∃ as, Notes v (f v) as) : Collects f [] := by
  intro v top rest marked sound
  obtain ⟨as, notes⟩ := h v
  exact ⟨top, congrArg _ notes.declared, notes.marked marked, notes.kept, rfl,
    notes.declared ▸ sound, fun _ mem => nomatch mem⟩

end ObjectVars

def VarDef.targets (d : VarDef) : List String := (Expr.actions? d.value).filterMap Action.target?

/-- No initial value assigns a name that is declared by it or behind it. -/
def VarDef.allFresh : List VarDef → Bool
  | [] => true
  | d :: ds =>
    d.targets.all (fun x => !((d :: ds).map (·.name.name)).contains x) && VarDef.allFresh ds

def ForInit.isFresh : ForInit → Bool
  | vars decl => VarDef.allFresh decl.defs
  | expr _ => true

mutual

/-- The variables in the head of each `for` are not assigned before they are declared. -/
def Stmt.freshHeads : Stmt → Bool
  | .block _ body => Stmt.allFreshHeads body
  | .ifThen _ _ yes => yes.freshHeads
  | .ifElse _ _ yes no => yes.freshHeads && no.freshHeads
  | .whileLoop _ _ body => body.freshHeads
  | .forLoop _ init _ _ body => init.all ForInit.isFresh && body.freshHeads
  | .forEach _ _ _ _ _ body => body.freshHeads
  | .withObject _ _ body => body.freshHeads
  | .switch _ _ cases => Case.allFreshHeads cases
  | .new _ _ _ _ body => Stmt.allFreshHeads body
  | .ret .. | .breakOut _ | .continueLoop _ | .vars _ | .const .. | .expr _ | .empty _ => true

def Stmt.allFreshHeads : List Stmt → Bool
  | [] => true
  | s :: ss => s.freshHeads && Stmt.allFreshHeads ss

def Case.allFreshHeads : List Case → Bool
  | [] => true
  | c :: cs => c.freshHeads && Case.allFreshHeads cs

def Case.freshHeads : Case → Bool
  | .mk _ _ body => Stmt.allFreshHeads body

end

def Item.freshHeads : Item → Bool
  | .func f => Stmt.allFreshHeads f.body.body
  | .stmt s => s.freshHeads

def Program.freshHeads (p : Program) : Bool := p.items.all Item.freshHeads

namespace ObjectVars

open GraalScript.Action

variable {v : ObjectVars} {x : String} {f g : ObjectVars → ObjectVars} {as bs : List Action}

theorem declare_head (defs : List VarDef) (v : ObjectVars) :
    let v' := defs.foldl (fun v d => v.declare d.name.name) v
    v'.declared.tail = v.declared.tail ∧ v'.names = v.names ∧ v'.seen = v.seen ∧
      ∀ x ∈ v'.declared.flatten, x ∈ v.declared.flatten ∨ x ∈ defs.map (·.name.name) := by
  induction defs generalizing v with
  | nil => exact ⟨rfl, rfl, rfl, fun _ mem => .inl mem⟩
  | cons d ds ih =>
    obtain ⟨tail, names, seen, declared⟩ := ih (v.declare d.name.name)
    have same : (v.declare d.name.name).names = v.names ∧
        (v.declare d.name.name).seen = v.seen := by
      unfold declare
      split <;> exact ⟨rfl, rfl⟩
    refine ⟨tail.trans (v.tail_declare _), names.trans same.1, seen.trans same.2, fun x mem => ?_⟩
    rw [List.map_cons, List.mem_cons]
    rcases declared x mem with before | later
    · exact (v.mem_declare _ before).elim (fun here => .inr (.inl here)) .inl
    · exact .inr (.inr later)

/-- Initial values one after the other, while the pass takes the variables still to come for
declared. -/
theorem collected_initializers (ds : List VarDef) (fresh : VarDef.allFresh ds = true)
    (v : ObjectVars) (top : List String) (rest : List (List String)) (marked : v.Marked)
    (sound : ∀ x ∈ v.declared.flatten, x ∈ (top :: rest).flatten ∨ x ∈ ds.map (·.name.name)) :
    ∃ top', Collected v (v.initializers ds) (top :: rest) (top' :: rest)
      (ds.flatMap VarDef.actions) := by
  induction ds generalizing v top with
  | nil =>
    exact ⟨top, rfl, marked, fun _ mem => mem, rfl,
      fun x mem => (sound x mem).resolve_right (List.not_mem_nil), fun _ mem => nomatch mem⟩
  | cons d ds ih =>
    rw [VarDef.allFresh, Bool.and_eq_true, List.all_eq_true] at fresh
    have notes := v.notes_expr? d.value
    have sound₁ : ∀ x ∈ (v.expr? d.value).declared.flatten,
        x ∈ ((d.name.name :: top) :: rest).flatten ∨ x ∈ ds.map (·.name.name) := by
      intro x mem
      rw [notes.declared] at mem
      rcases sound x mem with seen | later
      · exact .inl (List.mem_cons_of_mem _ seen)
      · rcases List.mem_cons.mp later with rfl | later
        · exact .inl List.mem_cons_self
        · exact .inr later
    obtain ⟨top', h⟩ :=
      ih fresh.2 (v.expr? d.value) (d.name.name :: top) (notes.marked marked) sound₁
    have still := trackAll_of_isBind notes.binds (top :: rest)
    refine ⟨top', h.tail.trans (congrArg _ notes.declared), h.marked,
      fun x mem => h.kept x (notes.kept x mem), ?_, h.declared, fun x mem => ?_⟩
    · rw [List.flatMap_cons, VarDef.actions, trackAll_append, trackAll_append, still]
      exact h.tracked
    · rw [List.flatMap_cons, VarDef.actions, unseen_append, unseen_append, trackAll_append, still,
        List.mem_append, List.mem_append] at mem
      rcases mem with (value | declare) | later
      · obtain ⟨target, out⟩ := mem_unseen_of_isBind notes.binds value
        refine h.kept x ((notes.noted marked x target).resolve_left fun inside => ?_)
        have apart := fresh.1 x target
        rw [Bool.not_eq_true', ← Bool.not_eq_true, List.contains_iff_mem] at apart
        exact (sound x inside).elim out apart
      · simp [unseen, target?] at declare
      · exact h.found x later

theorem collects_forInit (init : Option ForInit) (fresh : init.all ForInit.isFresh = true) :
    Collects (·.forInit init) (ForInit.actions init) := by
  rcases init with _ | ⟨decl⟩ | ⟨e⟩
  · exact collects_nil
  · intro v top rest marked sound
    obtain ⟨tail, names, seen, declared⟩ := v.declare_head decl.defs
    have marked' : (decl.defs.foldl (fun v d => v.declare d.name.name) v).Marked := by
      intro x found
      rw [names]
      exact marked x (seen ▸ found)
    obtain ⟨top', h⟩ := collected_initializers decl.defs fresh _ top rest marked'
      fun x mem => (declared x mem).imp_left (sound x)
    exact ⟨top', h.tail.trans tail, h.marked, fun x mem => h.kept x (names ▸ mem), h.tracked,
      h.declared, h.found⟩
  · exact collects_expr e

theorem collects_switch (value : Expr) (h : Collects f as) :
    Collects (fun v => (f ((v.opened []).expr value)).closed)
      (value.actions .read ++ Action.inScope .block as) := by
  intro v top rest marked sound
  have notes : Notes (v.opened []) ((v.opened []).expr value) (value.actions .read) :=
    notes_expr _ value (fun h : Use.read = .assign => nomatch h)
  have same : ((v.opened []).expr value).declared = [] :: v.declared := notes.declared
  obtain ⟨inner, hf⟩ :=
    h ((v.opened []).expr value) [] (top :: rest) (notes.marked marked) (same ▸ sound)
  have declared : (f ((v.opened []).expr value)).closed.declared = v.declared := by
    rw [closed, hf.tail, same]
    rfl
  have still := trackAll_of_isBind notes.binds (top :: rest)
  refine ⟨top, congrArg _ declared, hf.marked, fun x mem => hf.kept x (notes.kept x mem), ?_,
    declared ▸ sound, ?_⟩
  · rw [trackAll_append, still, Action.inScope, List.cons_append, trackAll, trackAll_append]
    exact congrArg (trackAll · [.leave]) hf.tracked
  · intro x mem
    rw [unseen_append, still, List.mem_append] at mem
    rcases mem with before | inside
    · obtain ⟨target, out⟩ := mem_unseen_of_isBind notes.binds before
      exact hf.kept x ((notes.noted marked x target).resolve_left fun known => out (sound x known))
    · exact hf.found x
        (by simpa [Action.inScope, unseen, unseen_append, target?, track] using inside)

mutual

theorem collects_stmt (s : Stmt) (fresh : s.freshHeads = true) : Collects (·.stmt s) s.actions := by
  cases s with
  | block _ body => exact (collects_stmts body fresh).inScope .block
  | ifThen _ cond yes => exact (collects_expr cond).append (collects_stmt yes fresh)
  | ifElse _ cond yes no =>
    have both := Bool.and_eq_true_iff.mp fresh
    exact (collects_expr cond).append ((collects_stmt yes both.1).append (collects_stmt no both.2))
  | whileLoop _ cond body => exact (collects_expr cond).append (collects_stmt body fresh)
  | forLoop _ init cond step body =>
    have both := Bool.and_eq_true_iff.mp fresh
    have turns :=
      (collects_expr? cond).append ((collects_expr? step).append (collects_stmt body both.2))
    exact ((collects_forInit init both.1).append turns).inScope .block
  | forEach line declared item _ iterable body =>
    have inside := collects_stmt body fresh
    cases declared with
    | true =>
      have declare : Collects (·.declare item) [.declare item .localVar line] :=
        collects_declare (fun _ _ => rfl) rfl
      exact (collects_expr iterable).append ((declare.append inside).inScope .block)
    | false =>
      have assign : Collects (·.assign item line) [.bind .assign item line] :=
        collects_of_notes fun v => v.notes_assign item line line
      exact (collects_expr iterable).append ((assign.append inside).inScope .block)
  | withObject _ object body => exact (collects_expr object).append (collects_stmt body fresh)
  | switch _ value cases => exact collects_switch value (collects_caseList cases fresh)
  | new _ _ name _ body =>
    exact (collects_expr name).append ((collects_stmts body fresh).inScope .block)
  | ret _ value => exact collects_expr? value
  | vars decl => exact collects_foldl decl.defs fun d _ => collects_varDef d
  | const line name value =>
    have silent : Collects (·.expr value) [] :=
      collects_silent fun v => ⟨_, v.notes_expr value (fun h : Use.read = .assign => nomatch h)⟩
    exact silent.append (collects_declare (fun _ _ => rfl) rfl)
  | expr e => exact collects_expr e
  | breakOut | continueLoop | empty => exact collects_nil

theorem collects_stmts (ss : List Stmt) (fresh : Stmt.allFreshHeads ss = true) :
    Collects (·.stmts ss) (Stmt.allActions ss) := by
  cases ss with
  | nil => exact collects_nil
  | cons s ss =>
    have both := Bool.and_eq_true_iff.mp fresh
    exact (collects_stmt s both.1).append (collects_stmts ss both.2)

theorem collects_caseList (cs : List Case) (fresh : Case.allFreshHeads cs = true) :
    Collects (·.caseList cs) (Case.allActions cs) := by
  cases cs with
  | nil => exact collects_nil
  | cons c cs =>
    have both := Bool.and_eq_true_iff.mp fresh
    exact (collects_oneCase c both.1).append (collects_caseList cs both.2)

theorem collects_oneCase (c : Case) (fresh : c.freshHeads = true) :
    Collects (·.oneCase c) c.actions := by
  cases c with
  | mk _ labels body =>
    exact (collects_foldl labels fun label _ => collects_expr? label).append
      (collects_stmts body fresh)

end

theorem trackAll_params (params : List Ident) (top : List String) (rest : List (List String)) :
    trackAll (top :: rest) (params.map fun p => .declare p.name .param p.line) =
      ((params.map (·.name)).reverse ++ top) :: rest := by
  induction params generalizing top with
  | nil => rfl
  | cons p params ih =>
    rw [List.map_cons, trackAll, track, ih]
    simp

theorem unseen_params (params : List Ident) (stack : List (List String)) :
    unseen stack (params.map fun p => .declare p.name .param p.line) = [] := by
  induction params generalizing stack with
  | nil => rfl
  | cons p params ih => exact ih _

theorem collects_func (f : Func) (fresh : Stmt.allFreshHeads f.body.body = true) :
    Collects (·.func f) f.actions := by
  intro v top rest marked sound
  let inside := (v.opened (f.params.map (·.name))).opened []
  have tracked := trackAll_params f.params [] (top :: rest)
  have sound' : ∀ x ∈ inside.declared.flatten,
      x ∈ (((f.params.map (·.name)).reverse ++ []) :: top :: rest).flatten := by
    intro x mem
    rw [List.append_nil, List.flatten_cons, List.mem_append, List.mem_reverse]
    have mem : x ∈ f.params.map (·.name) ++ v.declared.flatten := mem
    exact (List.mem_append.mp mem).imp_right (sound x)
  obtain ⟨inner, h⟩ := collects_stmts f.body.body fresh inside _ (top :: rest) marked sound'
  have declared : (v.func f).declared = v.declared := congrArg List.tail h.tail
  refine ⟨top, congrArg _ declared, h.marked, h.kept, ?_, declared ▸ sound,
    fun x mem => h.found x ?_⟩
  · rw [Func.actions, Action.inScope, List.cons_append, trackAll, List.append_assoc,
      trackAll_append, track, tracked, trackAll_append]
    exact congrArg (trackAll · [.leave]) h.tracked
  · simpa [Func.actions, Action.inScope, unseen, unseen_append, unseen_params, target?, track,
      tracked] using mem

theorem collects_item (i : Item) (fresh : i.freshHeads = true) : Collects (·.item i) i.actions := by
  cases i with
  | func f => exact collects_func f fresh
  | stmt s => exact collects_stmt s fresh

/-- All names that a program assigns unseen are found. -/
theorem mem_objectVars_of_unseen {p : Program} (fresh : p.freshHeads = true)
    (h : x ∈ unseen [[]] p.actions) : x ∈ p.objectVars.map Prod.fst := by
  have items : Collects (fun v => p.items.foldl item v) p.actions :=
    collects_foldl p.items fun i mem => collects_item i (List.all_eq_true.mp fresh i mem)
  have nothing : initial.Marked := by
    intro x seen
    simp [initial] at seen
  obtain ⟨top, collected⟩ := items initial [] [] nothing fun _ mem => mem
  exact collected.found x h

end ObjectVars

end GraalScript
