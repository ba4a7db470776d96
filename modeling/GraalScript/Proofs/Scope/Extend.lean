import GraalScript.Diagnostic
import GraalScript.Proofs.Scope.Mirror
import GraalScript.Proofs.Scope.ObjectVars
import GraalScript.Scope.Resolve

/-! Resolving the same program with other lines and in an environment with more names. What could be
bound is bound again: to the same, or to the environment where it was a variable of the object. In
the same environment the failures are the same, too, up to their lines. -/
namespace GraalScript

def ResolveError.relined (line : Nat → Nat) : ResolveError → ResolveError
  | unresolved name l => unresolved name (line l)
  | duplicate name l => duplicate name (line l)
  | notConstant name l => notConstant name (line l)

theorem ResolveError.kind_relined (line : Nat → Nat) (e : ResolveError) :
    CompileError.resolveKind (e.relined line) = CompileError.resolveKind e := by
  cases e <;> rfl

/-- The other environment has all names of this one. -/
structure Environment.Within (env env' : Environment) : Prop where
  hasVariable : ∀ name, env.hasVariable name = true → env'.hasVariable name = true
  hasFunction : ∀ name, env.hasFunction name = true → env'.hasFunction name = true

namespace Environment.Within

variable {env env' : Environment} (within : env.Within env')

include within

theorem isBuiltinValue {name : String} (h : Resolve.isBuiltinValue env name = true) :
    Resolve.isBuiltinValue env' name = true := by
  simp only [Resolve.isBuiltinValue, Bool.or_eq_true] at h ⊢
  exact h.imp_left (Or.imp_left (Or.imp (within.hasVariable name) (within.hasFunction name)))

theorem isBuiltinFunction {name : String} (h : Resolve.isBuiltinFunction env name = true) :
    Resolve.isBuiltinFunction env' name = true := by
  simp only [Resolve.isBuiltinFunction, Bool.or_eq_true] at h ⊢
  exact h.imp_left (Or.imp (within.hasFunction name) (within.hasVariable name))

end Environment.Within

def Environment.added (env env' : Environment) (name : String) : Bool :=
  Resolve.isBuiltinValue env' name && !Resolve.isBuiltinValue env name

theorem Environment.isBuiltinFunction_of_added {env env' : Environment} {name : String}
    (h : env.added env' name = true) : Resolve.isBuiltinFunction env' name = true := by
  simp only [added, Resolve.isBuiltinValue, Resolve.isBuiltinFunction] at h ⊢
  grind

/-- The recast of what is bound in an environment with more names. -/
def Recast.extended (env env' : Environment) (line : Nat → Nat) : Recast where
  line := line
  binding name b := if b = .objectVar && env.added env' name then .builtin else b

namespace Resolve

variable {α β γ δ : Type} {line : Nat → Nat} {P : Prop}

/-- Whatever `x` finds is found by `y`, as `Q` says; under `P` they fail for the same reason, up to
its line. -/
def Matches (line : Nat → Nat) (P : Prop) (Q : α → β → Prop) (x : Except ResolveError α)
    (y : Except ResolveError β) : Prop :=
  match x with
  | .ok a => ∃ b, y = .ok b ∧ Q a b
  | .error e => P → y = .error (e.relined line)

theorem matches_ok {Q : α → β → Prop} {a : α} {b : β} (h : Q a b) :
    Matches line P Q (.ok a) (.ok b) :=
  ⟨b, rfl, h⟩

theorem matches_error {Q : α → β → Prop} {e e' : ResolveError} (h : e' = e.relined line) :
    Matches line P Q (.error e) (.error e') := fun _ => congrArg Except.error h

theorem Matches.bind {Q : α → β → Prop} {R : γ → δ → Prop} {x : Except ResolveError α}
    {y : Except ResolveError β} {f : α → Except ResolveError γ} {f' : β → Except ResolveError δ}
    (first : Matches line P Q x y) (rest : ∀ a b, Q a b → Matches line P R (f a) (f' b)) :
    Matches line P R (x >>= f) (y >>= f') := by
  cases x with
  | ok a =>
    obtain ⟨b, rfl, related⟩ := first
    exact rest a b related
  | error e =>
    intro p
    rw [first p]
    rfl

theorem Matches.mono {Q R : α → β → Prop} {x : Except ResolveError α} {y : Except ResolveError β}
    (h : Matches line P Q x y) (imp : ∀ a b, Q a b → R a b) : Matches line P R x y := by
  cases x with
  | ok a =>
    obtain ⟨b, found, related⟩ := h
    exact ⟨b, found, imp a b related⟩
  | error e => exact h

end Resolve

namespace Constant

open Resolve

variable {line : Nat → Nat} {P : Prop} {hidden : String → Bool}
  {symbol? symbol?' : String → Option Symbol}
  {fault fault' : ResolveError} (same : fault' = fault.relined line)

include same

theorem matches_require {α : Type} (x : Option α) :
    Matches line P Eq (require fault x) (require fault' x) := by
  cases x with
  | none => exact matches_error same
  | some a => exact matches_ok rfl

theorem matches_number {α β : Type} {x : Except ResolveError Constant}
    {x' : Except ResolveError Constant} {f : Float → Except ResolveError α}
    {f' : Float → Except ResolveError β} {Q : α → β → Prop} (value : Matches line P Eq x x')
    (rest : ∀ n, Matches line P Q (f n) (f' n)) :
    Matches line P Q (do f (← require fault (← x).number?))
      (do f' (← require fault' (← x').number?)) := by
  refine value.bind fun a b => ?_
  rintro rfl
  refine (matches_require same a.number?).bind fun n m => ?_
  rintro rfl
  exact rest n

theorem matches_symbol (shown : P → ∀ name, hidden name = false) {name : String}
    (symbols : (symbol?' name).map Symbol.kind = ((symbol? name).map Symbol.kind).filter
      (Scopes.shown hidden name))
    (l : Nat) (b b' : Binding) :
    Matches line P Eq (fold symbol? fault (.name l name b))
      (fold symbol?' fault' (.name (line l) name b')) := by
  rcases Scopes.shown_cases symbols with ⟨h, h'⟩ | ⟨a, a', h, h', kind, _⟩ | ⟨a, h, _, kind, out⟩
  · simp only [fold, h, h']
    exact matches_error rfl
  · simp only [fold, h, h', kind]
    cases a.kind with
    | constant value => exact matches_ok rfl
    | _ => exact matches_error same
  · simp only [fold, h, kind]
    exact fun p => absurd out (by simp [shown p name])

theorem matches_fold (shown : P → ∀ name, hidden name = false)
    (symbols : ∀ name, (symbol?' name).map Symbol.kind =
      ((symbol? name).map Symbol.kind).filter (Scopes.shown hidden name)) (e : Expr) :
    Matches line P Eq (fold symbol? fault e) (fold symbol?' fault' (e.recast (.lines line))) := by
  cases e with
  | literal _ value => exact matches_require same (ofLiteral? value)
  | name l name b => exact matches_symbol same shown (symbols name) l b _
  | unary _ op operand =>
    exact matches_number same (matches_fold shown symbols operand) fun x =>
      matches_require same (unary? op x)
  | binary _ op lhs rhs =>
    refine (matches_fold shown symbols lhs).bind fun a a' => ?_
    rintro rfl
    have right := matches_fold shown symbols rhs
    cases op with
    | concat | eq | notEq =>
      refine right.bind fun b b' => ?_
      rintro rfl
      exact matches_ok rfl
    | _ =>
      refine (matches_require same a.number?).bind fun x x' => ?_
      rintro rfl
      exact matches_number same right fun y => matches_require same (arithmetic? _ x y)
  | logical _ op lhs rhs =>
    refine matches_number same (matches_fold shown symbols lhs) fun x => ?_
    have right := matches_number (Q := Eq) same (matches_fold shown symbols rhs)
      (f := fun y => .ok (ofBool (y != 0))) fun y => matches_ok rfl
    split
    · exact matches_ok rfl
    · exact matches_ok rfl
    · exact right
  | ternary _ cond yes no =>
    refine matches_number same (matches_fold shown symbols cond) fun x => ?_
    split
    · exact matches_fold shown symbols yes
    · exact matches_fold shown symbols no
  | _ => exact matches_error same

end Constant

namespace Environment

@[simp] theorem added_self (env : Environment) (name : String) : env.added env name = false := by
  simp [added]

theorem not_added {env env' : Environment} (same : env = env') (name : String) :
    env.added env' name = false := by
  rw [same, added_self]

end Environment

namespace Resolve

open Scopes

variable {α β γ δ : Type} {line : Nat → Nat} {P : Prop} {R : Scopes → Scopes → Prop}
  {env env' : Environment}
  {f : α → β} {g : Resolve α} {g' : Resolve β}

/-- From scopes related by `R`, whatever `g` returns is returned by `g'`, seen through `f`, and the
scopes they leave are related again; under `P` they fail for the same reason, up to its line. -/
def Tracks (line : Nat → Nat) (P : Prop) (R : Scopes → Scopes → Prop) (f : α → β) (g : Resolve α)
    (g' : Resolve β) : Prop :=
  ∀ s s', R s s' → Matches line P (fun r r' => r'.1 = f r.1 ∧ R r.2 r'.2) (g.run s) (g'.run s')

theorem tracks_pure {a : α} {b : β} (h : b = f a) : Tracks line P R f (pure a) (pure b) :=
  fun _ _ related => matches_ok ⟨h, related⟩

theorem tracks_throw {e e' : ResolveError} (h : e' = e.relined line) :
    Tracks line P R f (throw e) (throw e') := fun _ _ _ => matches_error h

theorem Tracks.bind {h : γ → δ} {k : α → Resolve γ} {k' : β → Resolve δ}
    (first : Tracks line P R f g g') (rest : ∀ a, Tracks line P R h (k a) (k' (f a))) :
    Tracks line P R h (g >>= k) (g' >>= k') := by
  intro s s' related
  rw [StateT.run_bind, StateT.run_bind]
  refine (first s s' related).bind fun r r' found => ?_
  rw [found.1]
  exact rest r.1 r.2 r'.2 found.2

theorem tracks_get {k : Scopes → Resolve α} {k' : Scopes → Resolve β}
    (h : ∀ s s', R s s' → Tracks line P R f (k s) (k' s')) :
    Tracks line P R f (do k (← get)) (do k' (← get)) :=
  fun s s' related => h s s' related s s' related

theorem tracks_modify {m m' : Scopes → Scopes} (h : ∀ s s', R s s' → R (m s) (m' s')) :
    Tracks line P R id (modify m) (modify m') :=
  fun s s' related => matches_ok ⟨rfl, h s s' related⟩

theorem tracks_lift {x y : Except ResolveError α} (h : Matches line P Eq x y) :
    Tracks line P R id (liftM x) (liftM y) := by
  intro s s' related
  exact h.bind fun a b same => matches_ok ⟨same.symm, related⟩

theorem tracks_mapM {ι κ : Type} {m : ι → κ} {k : ι → Resolve α} {k' : κ → Resolve β} (xs : List ι)
    (h : ∀ x ∈ xs, Tracks line P R f (k x) (k' (m x))) :
    Tracks line P R (List.map f) (xs.mapM k) ((xs.map m).mapM k') := by
  induction xs with
  | nil => exact tracks_pure rfl
  | cons x xs ih =>
    rw [List.forall_mem_cons] at h
    rw [List.map_cons, List.mapM_cons, List.mapM_cons]
    exact h.1.bind fun a => (ih h.2).bind fun as => tracks_pure rfl

theorem tracks_forM {ι κ : Type} {m : ι → κ} {k : ι → Resolve Unit} {k' : κ → Resolve Unit}
    (xs : List ι) (h : ∀ x ∈ xs, Tracks line P R id (k x) (k' (m x))) :
    Tracks line P R id (xs.forM k) ((xs.map m).forM k') := by
  induction xs with
  | nil => exact tracks_pure rfl
  | cons x xs ih =>
    rw [List.forall_mem_cons] at h
    exact h.1.bind fun _ => ih h.2

/-- In an environment with more names `g'` does what `g` does, without the object variables that
have become names of the environment. -/
abbrev Extends (line : Nat → Nat) (env env' : Environment) (f : α → β) (g : Resolve α)
    (g' : Resolve β) : Prop :=
  Tracks line (env = env') (Mirrors (env.added env')) f g g'

theorem tracks_inScope (kind : ScopeKind) (h : Extends line env env' f g g') :
    Extends line env env' f (inScope kind g) (inScope kind g') := by
  refine (tracks_modify fun _ _ mirrors => mirrors.enter kind).bind fun _ => h.bind fun a => ?_
  exact (tracks_modify fun _ _ mirrors => mirrors.leave).bind fun _ => tracks_pure rfl

theorem run_declare (name : String) (kind : SymbolKind) (line : Nat) (s : Scopes) :
    (declare name kind line).run s = (do let t ← s.declare name kind line; return ((), t)) := by
  change (do let r ← (do let t ← s.declare name kind line; return (t, s)); return ((), r.1)) = _
  cases s.declare name kind line <;> rfl

theorem matches_declare {s s' : Scopes} (mirrors : Mirrors (env.added env') s s') (name : String)
    {kind : SymbolKind} (other : kind ≠ .objectVar) (l : Nat) :
    Matches line (env = env')
      (fun r r' => r'.1 = id r.1 ∧ Mirrors (env.added env') r.2 r'.2 ∧ r.2.stack = s.stack)
      ((declare name kind l).run s) ((declare name kind (line l)).run s') := by
  have put := mirrors.put name other l (line l)
  have declared :
      Matches line (env = env') (fun t t' => Mirrors (env.added env') t t' ∧ t.stack = s.stack)
      (s.declare name kind l) (s'.declare name kind (line l)) := by
    simp only [Scopes.declare]
    rcases shown_cases (mirrors.local?_eq name) with ⟨h, h'⟩ | ⟨a, a', h, h', same, _⟩ |
      ⟨a, h, h', same, out⟩
    · rw [h, h']
      exact matches_ok ⟨put, rfl⟩
    · simp only [h, h', same]
      split
      · exact matches_ok ⟨put, rfl⟩
      · exact matches_error rfl
    · simp only [h, h', same, true_and]
      split
      · exact matches_ok ⟨put, rfl⟩
      · exact fun equal => absurd out (by simp [Environment.not_added equal])
  rw [run_declare, run_declare]
  exact declared.bind fun t t' related => matches_ok ⟨rfl, related⟩

theorem tracks_declare (name : String) {kind : SymbolKind} (other : kind ≠ .objectVar) (l : Nat) :
    Extends line env env' id (declare name kind l) (declare name kind (line l)) :=
  fun _ _ mirrors => (matches_declare mirrors name other l).mono fun _ _ h => ⟨h.1, h.2.1⟩

theorem binding_extended {name : String} {kind : SymbolKind} (line : Nat → Nat)
    (h : shown (env.added env') name kind = true) :
    kind.binding = (Recast.extended env env' line).binding name kind.binding := by
  cases kind with
  | objectVar =>
    have known : env.added env' name = false := by simpa [shown] using h
    simp [Recast.extended, SymbolKind.binding, known]
  | _ => rfl

theorem kind?_program_of_lookup? {s : Scopes} {name : String} (h : s.lookup? name = none) :
    s.program.kind? name = none := by
  have none := congrArg (Option.map Symbol.kind) h
  rw [map_kind_lookup?, s.chain_eq, Option.map_none, List.findSome?_eq_none_iff] at none
  exact none s.program (by simp)

def isBuiltin (env : Environment) : Use → String → Bool
  | .call => isBuiltinFunction env
  | .read | .assign => isBuiltinValue env

def isConstant : SymbolKind → Bool
  | .constant _ => true
  | _ => false

theorem run_bindName_some (env : Environment) (use : Use) (name : String) (line : Nat) {s : Scopes}
    {a : Symbol} (h : s.lookup? name = some a) :
    (bindName env use name line).run s =
      if use = .assign && isConstant a.kind then .error (.duplicate name line)
      else .ok (a.kind.binding, s) := by
  unfold bindName
  rw [StateT.run_bind]
  simp only [StateT.run_get, pure_bind, h]
  obtain ⟨_, kind, _, _⟩ := a
  cases use <;> cases kind <;> rfl

theorem run_bindName_none (env : Environment) (use : Use) (name : String) (line : Nat) {s : Scopes}
    (h : s.lookup? name = none) :
    (bindName env use name line).run s =
      if isBuiltin env use name then .ok (.builtin, s)
      else if use = .assign then .ok (.objectVar, s.declareObjectVar name line)
      else .error (.unresolved name line) := by
  unfold bindName
  rw [StateT.run_bind]
  simp only [StateT.run_get, pure_bind, h]
  by_cases known : isBuiltin env use name = true
  · rw [if_pos known]
    cases use with
    | _ =>
      simp only [isBuiltin] at known
      simp only [known, if_true]
      rfl
  · rw [if_neg known]
    cases use with
    | _ =>
      simp only [isBuiltin] at known
      simp only [known, Bool.false_eq_true, if_false]
      rfl

section traversal

variable (line)

theorem isBuiltin_of_within (within : env.Within env') {use : Use} {name : String}
    (h : isBuiltin env use name = true) : isBuiltin env' use name = true := by
  cases use with
  | call => exact within.isBuiltinFunction h
  | _ => exact within.isBuiltinValue h

theorem tracks_bindName (within : env.Within env') (use : Use) (name : String) (l : Nat) :
    Extends line env env' ((Recast.extended env env' line).binding name) (bindName env use name l)
      (bindName env' use name (line l)) := by
  intro s s' mirrors
  rcases shown_cases (mirrors.lookup?_eq name) with ⟨h, h'⟩ | ⟨a, a', h, h', same, left⟩ |
    ⟨a, h, h', same, out⟩
  · rw [run_bindName_none env use name l h, run_bindName_none env' use name _ h']
    by_cases known : isBuiltin env use name = true
    · rw [if_pos known, if_pos (isBuiltin_of_within within known)]
      exact matches_ok ⟨rfl, mirrors⟩
    rw [if_neg known]
    by_cases assigned : use = .assign
    · subst assigned
      rw [if_pos rfl]
      by_cases added : isBuiltin env' .assign name = true
      · have out : env.added env' name = true := by
          simp only [isBuiltin] at known added
          simp [Environment.added, known, added]
        rw [if_pos added]
        refine matches_ok ⟨?_, mirrors.declareObjectVar_left out l (kind?_program_of_lookup? h)⟩
        simp [Recast.extended, out]
      · have kept : env.added env' name = false := by
          simp only [isBuiltin] at added
          simp [Environment.added, added]
        rw [if_neg added, if_pos rfl]
        refine matches_ok ⟨?_, mirrors.declareObjectVar kept l (line l)⟩
        simp [Recast.extended, kept]
    · rw [if_neg assigned]
      intro same
      rw [if_neg (same ▸ known), if_neg assigned]
      rfl
  · rw [run_bindName_some env use name l h, run_bindName_some env' use name _ h', same]
    split
    · exact matches_error rfl
    · exact matches_ok ⟨binding_extended line left, mirrors⟩
  · have known : isBuiltin env' use name = true := by
      cases use with
      | call => exact Environment.isBuiltinFunction_of_added out
      | _ => exact (Bool.and_eq_true_iff.mp out).1
    rw [run_bindName_some env use name l h, run_bindName_none env' use name _ h', same,
      if_pos known]
    simp only [isConstant, Bool.and_false, Bool.false_eq_true, if_false]
    exact matches_ok ⟨by simp [Recast.extended, SymbolKind.binding, out], mirrors⟩

mutual

theorem tracks_expr (within : env.Within env') (use : Use) (e : Expr) :
    Extends line env env' (Expr.recast (.extended env env' line)) (expr env use e)
      (expr env' use (e.recast (.lines line))) := by
  cases e with
  | literal l value => exact tracks_pure rfl
  | name l name b => exact (tracks_bindName line within use name l).bind fun b => tracks_pure rfl
  | member l object member => exact (tracks_expr within .read object).bind fun o => tracks_pure rfl
  | index l object index =>
    exact (tracks_expr within .read object).bind fun o =>
      (tracks_expr within .read index).bind fun i => tracks_pure rfl
  | call l callee args =>
    refine (tracks_expr within .call callee).bind fun c =>
      (tracks_exprs within [] args).bind fun es => tracks_pure ?_
    rw [← Expr.recastAll_eq]
    rfl
  | array l items =>
    refine (tracks_exprs within [] items).bind fun es => tracks_pure ?_
    rw [← Expr.recastAll_eq]
    rfl
  | unary l op operand => exact (tracks_expr within .read operand).bind fun o => tracks_pure rfl
  | step l op before target =>
    exact (tracks_expr within .assign target).bind fun t => tracks_pure rfl
  | binary l op lhs rhs =>
    exact (tracks_expr within .read lhs).bind fun a => (tracks_expr within .read rhs).bind fun b =>
      tracks_pure rfl
  | logical l op lhs rhs =>
    exact (tracks_expr within .read lhs).bind fun a => (tracks_expr within .read rhs).bind fun b =>
      tracks_pure rfl
  | assign l op target value =>
    exact (tracks_expr within .read value).bind fun v =>
      (tracks_expr within .assign target).bind fun t => tracks_pure rfl
  | ternary l cond yes no =>
    refine (tracks_expr within .read cond).bind fun c =>
      (tracks_expr within .read yes).bind fun y => ?_
    exact (tracks_expr within .read no).bind fun n => tracks_pure rfl
  | cast l kind operand => exact (tracks_expr within .read operand).bind fun o => tracks_pure rfl
  | inRange l value lower upper =>
    refine (tracks_expr within .read value).bind fun v =>
      (tracks_expr within .read lower).bind fun a => ?_
    exact (tracks_expr within .read upper).bind fun b => tracks_pure rfl
  | inObject l value object =>
    exact (tracks_expr within .read value).bind fun v =>
      (tracks_expr within .read object).bind fun o => tracks_pure rfl
  | new l cls args =>
    refine (tracks_exprs within [] args).bind fun es => tracks_pure ?_
    rw [← Expr.recastAll_eq]
    rfl
  | newArray l dims => exact tracks_pure rfl

theorem tracks_exprs (within : env.Within env') (done es : List Expr) :
    Extends line env env' (List.map (Expr.recast (.extended env env' line))) (exprs env done es)
      (exprs env' (done.map (Expr.recast (.extended env env' line)))
        (Expr.recastAll (.lines line) es)) := by
  cases es with
  | nil => exact tracks_pure List.map_reverse.symm
  | cons e es =>
    exact (tracks_expr within .read e).bind fun e' => tracks_exprs within (e' :: done) es

end

theorem tracks_readExpr? (within : env.Within env') (e : Option Expr) :
    Extends line env env' (Option.map (Expr.recast (.extended env env' line))) (readExpr? env e)
      (readExpr? env' (e.map (Expr.recast (.lines line)))) := by
  cases e with
  | none => exact tracks_pure rfl
  | some e => exact (tracks_expr line within .read e).bind fun e' => tracks_pure rfl

theorem tracks_varDecl (within : env.Within env') (decl : VarDecl) :
    Extends line env env' (VarDecl.recast (.extended env env' line)) (varDecl env decl)
      (varDecl env' (decl.recast (.lines line))) := by
  refine Tracks.bind (tracks_mapM decl.defs fun d _ => ?_) fun defs => tracks_pure rfl
  refine (tracks_readExpr? line within d.value).bind fun value => ?_
  exact (tracks_declare d.name.name (by decide) d.name.line).bind fun _ => tracks_pure rfl

theorem tracks_forInit (within : env.Within env') (init : Option ForInit) :
    Extends line env env' (Option.map (ForInit.recast (.extended env env' line))) (forInit env init)
      (forInit env' (init.map (ForInit.recast (.lines line)))) := by
  rcases init with _ | ⟨decl⟩ | ⟨e⟩
  · exact tracks_pure rfl
  · exact (tracks_varDecl line within decl).bind fun decl' => tracks_pure rfl
  · exact (tracks_expr line within .read e).bind fun e' => tracks_pure rfl

theorem tracks_constDef (l : Nat) (name : Ident) (value : Expr) :
    Extends line env env' id (constDef l name value)
      (constDef (line l) (name.relined line) (value.recast (.lines line))) := by
  have rest : Extends line env env' id
      (do
        let folded ← Constant.fold (← get).lookup? (.notConstant name.name l) value
        declare name.name (.constant folded) l)
      (do
        let folded ← Constant.fold (← get).lookup? (.notConstant name.name (line l))
          (value.recast (.lines line))
        declare name.name (.constant folded) (line l)) := by
    refine tracks_get fun s s' mirrors => ?_
    have fault : ResolveError.notConstant name.name (line l) =
        (ResolveError.notConstant name.name l).relined line := rfl
    have folded := Constant.matches_fold fault Environment.not_added mirrors.lookup?_eq value
    refine (tracks_lift folded).bind fun c => ?_
    have other : SymbolKind.constant c ≠ .objectVar := nofun
    exact tracks_declare name.name other l
  refine tracks_get fun s s' mirrors => ?_
  rcases shown_cases (mirrors.local?_eq name.name) with ⟨h, h'⟩ | ⟨a, a', h, h', _⟩ |
    ⟨a, h, _, _, out⟩
  · simp only [h, h', Ident.relined, Option.isSome_none, Bool.false_eq_true, if_false]
    exact rest
  · simp only [h, h', Ident.relined, Option.isSome_some, if_true]
    exact (tracks_throw (f := id) rfl).bind fun _ => rest
  · simp only [h, Option.isSome_some, if_true]
    exact fun _ _ _ equal => absurd out (by simp [Environment.not_added equal])

theorem tracks_loopItem (within : env.Within env') (declared : Bool) (item : String) (l : Nat) :
    Extends line env env' ((Recast.extended env env' line).binding item)
      (loopItem env declared item l)
      (loopItem env' declared item (line l)) := by
  cases declared with
  | true => exact (tracks_declare item (by decide) l).bind fun _ => tracks_pure rfl
  | false => exact tracks_bindName line within .assign item l

mutual

theorem tracks_stmt (within : env.Within env') (s : Stmt) :
    Extends line env env' (Stmt.recast (.extended env env' line)) (stmt env s)
      (stmt env' (s.recast (.lines line))) := by
  cases s with
  | block l body =>
    refine (tracks_inScope .block (tracks_stmts within [] body)).bind fun ss => tracks_pure ?_
    rw [← Stmt.recastAll_eq]
    rfl
  | ifThen l cond yes =>
    exact (tracks_expr line within .read cond).bind fun c => (tracks_stmt within yes).bind fun y =>
      tracks_pure rfl
  | ifElse l cond yes no =>
    refine (tracks_expr line within .read cond).bind fun c =>
      (tracks_stmt within yes).bind fun y => ?_
    exact (tracks_stmt within no).bind fun n => tracks_pure rfl
  | whileLoop l cond body =>
    exact (tracks_expr line within .read cond).bind fun c => (tracks_stmt within body).bind fun b =>
      tracks_pure rfl
  | forLoop l init cond step body =>
    refine tracks_inScope .block ((tracks_forInit line within init).bind fun i => ?_)
    refine (tracks_readExpr? line within cond).bind fun c => ?_
    refine (tracks_readExpr? line within step).bind fun st => ?_
    exact (tracks_stmt within body).bind fun b => tracks_pure rfl
  | forEach l declared item b iterable body =>
    refine (tracks_expr line within .read iterable).bind fun it => tracks_inScope .block ?_
    refine (tracks_loopItem line within declared item l).bind fun v => ?_
    exact (tracks_stmt within body).bind fun b => tracks_pure rfl
  | withObject l object body =>
    refine (tracks_expr line within .read object).bind fun o => ?_
    exact (tracks_stmt within body).bind fun b => tracks_pure rfl
  | switch l value cases =>
    refine (tracks_expr line within .read value).bind fun v => ?_
    refine (tracks_inScope .block (tracks_caseList within [] cases)).bind fun cs => tracks_pure ?_
    rw [← Case.recastAll_eq]
    rfl
  | new l cls name bodyLine body =>
    refine (tracks_expr line within .read name).bind fun n => ?_
    refine (tracks_inScope .block (tracks_stmts within [] body)).bind fun ss => tracks_pure ?_
    rw [← Stmt.recastAll_eq]
    rfl
  | ret l value => exact (tracks_readExpr? line within value).bind fun v => tracks_pure rfl
  | vars decl => exact (tracks_varDecl line within decl).bind fun d => tracks_pure rfl
  | const l name value => exact (tracks_constDef line l name value).bind fun _ => tracks_pure rfl
  | expr e => exact (tracks_expr line within .read e).bind fun e' => tracks_pure rfl
  | breakOut l => exact tracks_pure rfl
  | continueLoop l => exact tracks_pure rfl
  | empty l => exact tracks_pure rfl

theorem tracks_stmts (within : env.Within env') (done ss : List Stmt) :
    Extends line env env' (List.map (Stmt.recast (.extended env env' line))) (stmts env done ss)
      (stmts env' (done.map (Stmt.recast (.extended env env' line)))
        (Stmt.recastAll (.lines line) ss)) := by
  cases ss with
  | nil => exact tracks_pure List.map_reverse.symm
  | cons s ss => exact (tracks_stmt within s).bind fun s' => tracks_stmts within (s' :: done) ss

theorem tracks_caseList (within : env.Within env') (done cs : List Case) :
    Extends line env env' (List.map (Case.recast (.extended env env' line))) (caseList env done cs)
      (caseList env' (done.map (Case.recast (.extended env env' line)))
        (Case.recastAll (.lines line) cs)) := by
  cases cs with
  | nil => exact tracks_pure List.map_reverse.symm
  | cons c cs =>
    exact (tracks_oneCase within c).bind fun c' => tracks_caseList within (c' :: done) cs

theorem tracks_oneCase (within : env.Within env') (c : Case) :
    Extends line env env' (Case.recast (.extended env env' line)) (oneCase env c)
      (oneCase env' (c.recast (.lines line))) := by
  cases c with
  | mk l labels body =>
    refine (tracks_mapM labels fun label _ => tracks_readExpr? line within label).bind fun ls => ?_
    refine (tracks_stmts within [] body).bind fun ss => tracks_pure ?_
    rw [← Stmt.recastAll_eq]
    rfl

end

theorem tracks_item (within : env.Within env') (i : Item) :
    Extends line env env' (Item.recast (.extended env env' line)) (item env i)
      (item env' (i.recast (.lines line))) := by
  cases i with
  | stmt s => exact (tracks_stmt line within s).bind fun s' => tracks_pure rfl
  | func f =>
    have body : Extends line env env' (Func.recast (.extended env env' line)) (func env f)
        (func env' (f.recast (.lines line))) := by
      refine tracks_inScope .function ?_
      have params : Extends line env env' id (f.params.forM fun p => declare p.name .param p.line)
          ((f.params.map (Ident.relined line)).forM fun p => declare p.name .param p.line) :=
        tracks_forM f.params fun p _ => tracks_declare p.name (by decide) p.line
      refine params.bind fun _ => ?_
      refine (tracks_stmts line within [] f.body.body).bind fun ss => tracks_pure ?_
      rw [← Stmt.recastAll_eq]
      rfl
    exact body.bind fun f' => tracks_pure rfl

/-- Outside of all other scopes. -/
def AtRoot (env env' : Environment) (s s' : Scopes) : Prop :=
  Mirrors (env.added env') s s' ∧ s.stack = []

theorem tracks_declareFuncs (seen : List String) (fs : List Func) :
    Tracks line (env = env') (AtRoot env env') id (declareFuncs seen fs)
      (declareFuncs seen (fs.map (Func.recast (.lines line)))) := by
  induction fs generalizing seen with
  | nil => exact tracks_pure rfl
  | cons f fs ih =>
    have method : (f.recast (.lines line)).isMethod = f.isMethod := by
      simp [Func.isMethod, Func.recast]
    have declared :
        Tracks line (env = env') (AtRoot env env') id (declare f.name.name .func f.name.line)
        (declare f.name.name .func (line f.name.line)) := by
      intro s s' related
      refine (matches_declare related.1 f.name.name (by decide) f.name.line).mono fun r r' h => ?_
      exact ⟨h.1, h.2.1, h.2.2.trans related.2⟩
    have rest : Tracks line (env = env') (AtRoot env env') id
        (if !f.isMethod then
            (do declare f.name.name .func f.name.line; declareFuncs (f.tableName :: seen) fs)
          else declareFuncs (f.tableName :: seen) fs)
        (if !f.isMethod then (do
            declare f.name.name .func (line f.name.line)
            declareFuncs (f.tableName :: seen) (fs.map (Func.recast (.lines line))))
          else declareFuncs (f.tableName :: seen) (fs.map (Func.recast (.lines line)))) := by
      split
      · exact declared.bind fun _ => ih (f.tableName :: seen)
      · exact ih (f.tableName :: seen)
    rw [List.map_cons, declareFuncs, declareFuncs, Func.tableName_recast, method]
    split
    · exact (tracks_throw (f := id) rfl).bind fun _ => rest
    · exact rest

theorem run_declareObjectVar (env : Environment) (v : String × Nat) (s : Scopes) :
    (declareObjectVar env v).run s =
      .ok ((), if (s.local? v.1).isNone && !isBuiltinValue env v.1 then s.declareObjectVar v.1 v.2
        else s) := by
  unfold declareObjectVar
  rw [StateT.run_bind, StateT.run_get, pure_bind]
  split <;> rfl

theorem tracks_declareObjectVar (within : env.Within env') (v : String × Nat) :
    Tracks line (env = env') (AtRoot env env') id (declareObjectVar env v)
      (declareObjectVar env' (v.1, line v.2)) := by
  rintro s s' ⟨mirrors, root⟩
  rw [run_declareObjectVar, run_declareObjectVar]
  refine matches_ok ⟨rfl, ?_⟩
  rcases shown_cases (mirrors.local?_eq v.1) with ⟨h, h'⟩ | ⟨a, a', h, h', _⟩ | ⟨a, h, h', _, out⟩
  · have new : s.program.kind? v.1 = none := by
      have current : s.program = s.current := by rw [Scopes.program, root]; rfl
      rw [current, ← map_kind_local?, h, Option.map_none]
    have kept (l : Nat) : (s.declareObjectVar v.1 l).stack = [] := by
      rw [Scopes.declareObjectVar, root]; exact root
    simp only [h, h', Option.isNone_none, Bool.true_and]
    cases known : isBuiltinValue env v.1 with
    | true =>
      rw [within.isBuiltinValue known]
      exact ⟨mirrors, root⟩
    | false =>
      cases added : isBuiltinValue env' v.1 with
      | true =>
        exact ⟨mirrors.declareObjectVar_left (by simp [Environment.added, known, added]) v.2 new,
          kept v.2⟩
      | false =>
        have seen : env.added env' v.1 = false := by simp [Environment.added, added]
        exact ⟨mirrors.declareObjectVar seen v.2 _, kept v.2⟩
  · simp only [h, h', Option.isNone_some, Bool.false_and]
    exact ⟨mirrors, root⟩
  · have known : isBuiltinValue env' v.1 = true := (Bool.and_eq_true_iff.mp out).1
    simp only [h, h', known, Option.isNone_some, Bool.false_and, Bool.not_true, Bool.and_false]
    exact ⟨mirrors, root⟩

theorem program_eq (env : Environment) (p : Program) :
    program env p = (do declareFuncs [] p.funcs; p.objectVars.forM (declareObjectVar env)) >>=
      fun _ => do
      return { p with items := ← p.items.mapM (item env) } := by
  rw [program, bind_assoc]

theorem matches_program (within : env.Within env') (p : Program) :
    Matches line (env = env') (fun r r' => r'.1 = r.1.recast (.extended env env' line))
      ((program env p).run .initial) ((program env' (p.recast (.lines line))).run .initial) := by
  have funcs : (p.recast (.lines line)).funcs = p.funcs.map (Func.recast (.lines line)) := by
    simp only [Program.funcs, Program.recast, List.filterMap_map, List.map_filterMap]
    refine congrArg (p.items.filterMap ·) (funext fun i => ?_)
    cases i <;> rfl
  have prelude : Tracks line (env = env') (AtRoot env env') id
      (do declareFuncs [] p.funcs; p.objectVars.forM (declareObjectVar env))
      (do
        declareFuncs [] (p.funcs.map (Func.recast (.lines line)))
        (p.objectVars.map fun v => (v.1, line v.2)).forM (declareObjectVar env')) :=
    (tracks_declareFuncs line [] p.funcs).bind fun _ =>
      tracks_forM p.objectVars fun v _ => tracks_declareObjectVar line within v
  have items : Extends line env env' (Program.recast (.extended env env' line))
      (do return { p with items := ← p.items.mapM (item env) })
      (do
        let items ← (p.recast (.lines line)).items.mapM (item env')
        return { p.recast (.lines line) with items }) :=
    (tracks_mapM p.items fun i _ => tracks_item line within i).bind fun is => tracks_pure rfl
  rw [program_eq, program_eq, funcs, Program.objectVars_recast, StateT.run_bind, StateT.run_bind]
  refine (prelude .initial .initial ⟨.initial _, rfl⟩).bind fun r r' related => ?_
  exact (items r.2 r'.2 related.2.1).mono fun _ _ h => h.1

end traversal

end Resolve

/-- A program that can be bound can be bound in an environment with more names, whatever its lines
are. -/
theorem Program.matches_resolve {env env' : Environment} (within : env.Within env')
    (line : Nat → Nat) (p : Program) :
    Resolve.Matches line (env = env') (fun r r' => r'.1 = r.1.recast (.extended env env' line))
      (p.resolve env)
      ((p.recast (.lines line)).resolve env') :=
  (Resolve.matches_program line within p).bind fun _ _ same => Resolve.matches_ok same

end GraalScript
