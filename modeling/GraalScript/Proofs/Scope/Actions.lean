import GraalScript.Proofs.Compilation
import GraalScript.Proofs.Scope.Extend

/-! What resolving does with the scopes, as a list of actions. The list depends on the tree alone,
and running it leaves the scopes that resolving leaves, or fails as resolving fails; so a fact about
scopes that every action keeps holds at every moment of resolving. -/
namespace GraalScript

open Resolve

/-- One thing that resolving does with the scopes. -/
inductive Action where
  | bind (use : Use) (name : String) (line : Nat)
  | enter (kind : ScopeKind)
  | leave
  | declare (name : String) (kind : SymbolKind) (line : Nat)
  | constant (line : Nat) (name : Ident) (value : Expr)

namespace Action

def run (env : Environment) : Action → Scopes → Except ResolveError Scopes
  | bind use name line, s => ((bindName env use name line).run s).map Prod.snd
  | enter kind, s => .ok (s.enter kind)
  | leave, s => .ok s.leave
  | declare name kind line, s => s.declare name kind line
  | constant line name value, s => ((constDef line name value).run s).map Prod.snd

def runAll (env : Environment) : List Action → Scopes → Except ResolveError Scopes
  | [], s => .ok s
  | a :: as, s => a.run env s >>= runAll env as

def inScope (kind : ScopeKind) (inside : List Action) : List Action :=
  enter kind :: inside ++ [leave]

theorem runAll_append (env : Environment) (as bs : List Action) (s : Scopes) :
    runAll env (as ++ bs) s = runAll env as s >>= runAll env bs := by
  induction as generalizing s with
  | nil => rfl
  | cons a as ih =>
    rw [List.cons_append, runAll, runAll]
    cases a.run env s with
    | error e => rfl
    | ok s₁ => exact ih s₁

end Action

mutual

/-- The names of an expression in the order in which they are bound; `use` is how the expression is
used. -/
def Expr.actions (use : Use) : Expr → List Action
  | .literal .. | .newArray .. => []
  | .name line n _ => [.bind use n line]
  | .member _ object _ => object.actions .read
  | .index _ object i => object.actions .read ++ i.actions .read
  | .call _ callee args => callee.actions .call ++ Expr.allActions args
  | .array _ items => Expr.allActions items
  | .unary _ _ operand => operand.actions .read
  | .step _ _ _ target => target.actions .assign
  | .binary _ _ lhs rhs => lhs.actions .read ++ rhs.actions .read
  | .logical _ _ lhs rhs => lhs.actions .read ++ rhs.actions .read
  | .assign _ _ target value => value.actions .read ++ target.actions .assign
  | .ternary _ cond yes no => cond.actions .read ++ (yes.actions .read ++ no.actions .read)
  | .cast _ _ operand => operand.actions .read
  | .inRange _ value lower upper =>
    value.actions .read ++ (lower.actions .read ++ upper.actions .read)
  | .inObject _ value object => value.actions .read ++ object.actions .read
  | .new _ _ args => Expr.allActions args

def Expr.allActions : List Expr → List Action
  | [] => []
  | e :: es => e.actions .read ++ Expr.allActions es

end

def Expr.actions? (e : Option Expr) : List Action := e.elim [] (Expr.actions .read)

/-- The initial value comes before the variable. -/
def VarDef.actions (d : VarDef) : List Action :=
  Expr.actions? d.value ++ [.declare d.name.name .localVar d.name.line]

def VarDecl.actions (decl : VarDecl) : List Action := decl.defs.flatMap VarDef.actions

def ForInit.actions : Option ForInit → List Action
  | none => []
  | some (.vars decl) => decl.actions
  | some (.expr e) => e.actions .read

def Action.loopItem (declared : Bool) (item : String) (line : Nat) : Action :=
  if declared then .declare item .localVar line else .bind .assign item line

mutual

def Stmt.actions : Stmt → List Action
  | .block _ body => Action.inScope .block (Stmt.allActions body)
  | .ifThen _ cond yes => cond.actions .read ++ yes.actions
  | .ifElse _ cond yes no => cond.actions .read ++ (yes.actions ++ no.actions)
  | .whileLoop _ cond body => cond.actions .read ++ body.actions
  | .forLoop _ init cond step body => Action.inScope .block
      (ForInit.actions init ++ (Expr.actions? cond ++ (Expr.actions? step ++ body.actions)))
  | .forEach line declared item _ iterable body => iterable.actions .read ++
      Action.inScope .block (Action.loopItem declared item line :: body.actions)
  | .withObject _ object body => object.actions .read ++ body.actions
  | .switch _ value cases => value.actions .read ++ Action.inScope .block (Case.allActions cases)
  | .new _ _ name _ body => name.actions .read ++ Action.inScope .block (Stmt.allActions body)
  | .ret _ value => Expr.actions? value
  | .vars decl => decl.actions
  | .const line name value => [.constant line name value]
  | .expr e => e.actions .read
  | .breakOut _ | .continueLoop _ | .empty _ => []

def Stmt.allActions : List Stmt → List Action
  | [] => []
  | s :: ss => s.actions ++ Stmt.allActions ss

def Case.allActions : List Case → List Action
  | [] => []
  | c :: cs => c.actions ++ Case.allActions cs

def Case.actions : Case → List Action
  | .mk _ labels body => labels.flatMap Expr.actions? ++ Stmt.allActions body

end

def Func.actions (f : Func) : List Action :=
  Action.inScope .function
    (f.params.map (fun p => .declare p.name .param p.line) ++ Stmt.allActions f.body.body)

def Item.actions : Item → List Action
  | .func f => f.actions
  | .stmt s => s.actions

def Program.actions (p : Program) : List Action := p.items.flatMap Item.actions

namespace Resolve

variable {α β : Type} {env : Environment} {g : Resolve α} {as bs : List Action}

/-- Apart from its result, `g` does with the scopes what the actions do. -/
def Does (env : Environment) (g : Resolve α) (as : List Action) : Prop :=
  ∀ s, (g.run s).map Prod.snd = Action.runAll env as s

theorem does_pure (a : α) : Does env (pure a) [] := fun _ => rfl

theorem Does.bind {f : α → Resolve β} (first : Does env g as) (rest : ∀ a, Does env (f a) bs) :
    Does env (g >>= f) (as ++ bs) := by
  intro s
  rw [Action.runAll_append, ← first s, StateT.run_bind]
  cases g.run s with
  | error e => rfl
  | ok r => exact rest r.1 r.2

theorem Does.result {f : α → β} (h : Does env g as) : Does env (do return f (← g)) as := by
  have built : Does env (do return f (← g)) (as ++ []) := h.bind fun a => does_pure (f a)
  rwa [List.append_nil] at built

theorem Does.single {a : Action} (h : ∀ s, (g.run s).map Prod.snd = a.run env s) :
    Does env g [a] := by
  intro s
  rw [h, Action.runAll]
  cases a.run env s <;> rfl

theorem does_bindName (use : Use) (name : String) (line : Nat) :
    Does env (bindName env use name line) [.bind use name line] := .single fun _ => rfl

theorem does_declare (name : String) (kind : SymbolKind) (line : Nat) :
    Does env (declare name kind line) [.declare name kind line] := by
  refine .single fun s => ?_
  rw [run_declare, Action.run]
  cases s.declare name kind line <;> rfl

theorem Does.inScope (kind : ScopeKind) (h : Does env g as) :
    Does env (inScope kind g) (Action.inScope kind as) := by
  have enter : Does env (modify (·.enter kind)) [.enter kind] := .single fun _ => rfl
  have leave : Does env (modify Scopes.leave) [.leave] := .single fun _ => rfl
  exact enter.bind fun _ => h.bind fun a => leave.bind fun _ => does_pure a

theorem does_mapM {f : α → Resolve β} {actions : α → List Action} (xs : List α)
    (h : ∀ x ∈ xs, Does env (f x) (actions x)) : Does env (xs.mapM f) (xs.flatMap actions) := by
  induction xs with
  | nil => exact does_pure []
  | cons x xs ih =>
    rw [List.forall_mem_cons] at h
    rw [List.mapM_cons, List.flatMap_cons]
    exact h.1.bind fun y => (ih h.2).result

theorem does_forM {f : α → Resolve Unit} {action : α → Action} (xs : List α)
    (h : ∀ x ∈ xs, Does env (f x) [action x]) : Does env (xs.forM f) (xs.map action) := by
  induction xs with
  | nil => exact does_pure ()
  | cons x xs ih =>
    rw [List.forall_mem_cons] at h
    exact h.1.bind fun _ => ih h.2

mutual

theorem does_expr (use : Use) (e : Expr) : Does env (expr env use e) (e.actions use) := by
  cases e with
  | literal | newArray => exact does_pure _
  | name line name _ => exact (does_bindName use name line).result
  | member _ object _ => exact (does_expr .read object).result
  | index _ object index =>
    exact (does_expr .read object).bind fun _ => (does_expr .read index).result
  | call _ callee args => exact (does_expr .call callee).bind fun _ => (does_exprs [] args).result
  | array _ items => exact (does_exprs [] items).result
  | unary _ _ operand => exact (does_expr .read operand).result
  | step _ _ _ target => exact (does_expr .assign target).result
  | binary _ _ lhs rhs => exact (does_expr .read lhs).bind fun _ => (does_expr .read rhs).result
  | logical _ _ lhs rhs => exact (does_expr .read lhs).bind fun _ => (does_expr .read rhs).result
  | assign _ _ target value =>
    exact (does_expr .read value).bind fun _ => (does_expr .assign target).result
  | ternary _ cond yes no =>
    exact (does_expr .read cond).bind fun _ => (does_expr .read yes).bind fun _ =>
      (does_expr .read no).result
  | cast _ _ operand => exact (does_expr .read operand).result
  | inRange _ value lower upper =>
    exact (does_expr .read value).bind fun _ => (does_expr .read lower).bind fun _ =>
      (does_expr .read upper).result
  | inObject _ value object =>
    exact (does_expr .read value).bind fun _ => (does_expr .read object).result
  | new _ _ args => exact (does_exprs [] args).result

theorem does_exprs (done es : List Expr) : Does env (exprs env done es) (Expr.allActions es) := by
  cases es with
  | nil => exact does_pure _
  | cons e es => exact (does_expr .read e).bind fun e' => does_exprs (e' :: done) es

end

theorem does_readExpr? (e : Option Expr) : Does env (readExpr? env e) (Expr.actions? e) := by
  cases e with
  | none => exact does_pure _
  | some e => exact (does_expr .read e).result

theorem does_varDecl (decl : VarDecl) : Does env (varDecl env decl) decl.actions := by
  refine Does.result (does_mapM decl.defs fun d _ => ?_)
  exact (does_readExpr? d.value).bind fun _ =>
    (does_declare d.name.name .localVar d.name.line).result

theorem does_forInit (init : Option ForInit) :
    Does env (forInit env init) (ForInit.actions init) := by
  rcases init with _ | ⟨decl⟩ | ⟨e⟩
  · exact does_pure _
  · exact (does_varDecl decl).result
  · exact (does_expr .read e).result

theorem does_loopItem (declared : Bool) (item : String) (line : Nat) :
    Does env (loopItem env declared item line) [.loopItem declared item line] := by
  cases declared with
  | true => exact (does_declare item .localVar line).result
  | false => exact does_bindName .assign item line

theorem does_constDef (line : Nat) (name : Ident) (value : Expr) :
    Does env (constDef line name value) [.constant line name value] := .single fun _ => rfl

mutual

theorem does_stmt (s : Stmt) : Does env (stmt env s) s.actions := by
  cases s with
  | block _ body => exact ((does_stmts [] body).inScope .block).result
  | ifThen _ cond yes => exact (does_expr .read cond).bind fun _ => (does_stmt yes).result
  | ifElse _ cond yes no =>
    exact (does_expr .read cond).bind fun _ => (does_stmt yes).bind fun _ => (does_stmt no).result
  | whileLoop _ cond body => exact (does_expr .read cond).bind fun _ => (does_stmt body).result
  | forLoop _ init cond step body =>
    refine Does.inScope .block
      ((does_forInit init).bind fun _ => (does_readExpr? cond).bind fun _ => ?_)
    exact (does_readExpr? step).bind fun _ => (does_stmt body).result
  | forEach line declared item _ iterable body =>
    refine (does_expr .read iterable).bind fun _ => Does.inScope .block ?_
    exact (does_loopItem declared item line).bind fun _ => (does_stmt body).result
  | withObject _ object body => exact (does_expr .read object).bind fun _ => (does_stmt body).result
  | switch _ value cases =>
    exact (does_expr .read value).bind fun _ => ((does_caseList [] cases).inScope .block).result
  | new _ _ name _ body =>
    exact (does_expr .read name).bind fun _ => ((does_stmts [] body).inScope .block).result
  | ret _ value => exact (does_readExpr? value).result
  | vars decl => exact (does_varDecl decl).result
  | const line name value => exact (does_constDef line name value).result
  | expr e => exact (does_expr .read e).result
  | breakOut | continueLoop | empty => exact does_pure _

theorem does_stmts (done ss : List Stmt) : Does env (stmts env done ss) (Stmt.allActions ss) := by
  cases ss with
  | nil => exact does_pure _
  | cons s ss => exact (does_stmt s).bind fun s' => does_stmts (s' :: done) ss

theorem does_caseList (done cs : List Case) :
    Does env (caseList env done cs) (Case.allActions cs) := by
  cases cs with
  | nil => exact does_pure _
  | cons c cs => exact (does_oneCase c).bind fun c' => does_caseList (c' :: done) cs

theorem does_oneCase (c : Case) : Does env (oneCase env c) c.actions := by
  cases c with
  | mk _ labels body =>
    exact (does_mapM labels fun label _ => does_readExpr? label).bind fun _ =>
      (does_stmts [] body).result

end

theorem does_item (i : Item) : Does env (item env i) i.actions := by
  cases i with
  | stmt s => exact (does_stmt s).result
  | func f =>
    have params : Does env (f.params.forM fun p => declare p.name .param p.line)
        (f.params.map fun p => .declare p.name .param p.line) :=
      does_forM f.params fun p _ => does_declare p.name .param p.line
    exact Does.result
      (Does.inScope .function (params.bind fun _ => (does_stmts [] f.body.body).result))

theorem does_items (p : Program) : Does env (p.items.mapM (item env)) p.actions :=
  does_mapM p.items fun i _ => does_item i

end Resolve

namespace Constant

variable {symbol? : String → Option Symbol} {fault : ResolveError}

/-- A name that folding cannot resolve has no symbol. -/
def Blames {α : Type} (symbol? : String → Option Symbol) (r : Except ResolveError α) : Prop :=
  ∀ name line, r = .error (.unresolved name line) → symbol? name = none

theorem blames_ok {α : Type} (a : α) : Blames symbol? (.ok a) := fun _ _ h => nomatch h

theorem Blames.bind {α β : Type} {r : Except ResolveError α} {f : α → Except ResolveError β}
    (first : Blames symbol? r) (rest : ∀ a, Blames symbol? (f a)) : Blames symbol? (r >>= f) := by
  intro name line h
  cases r with
  | error e => exact first name line (congrArg _ (Except.error.inj h))
  | ok a => exact rest a name line h

theorem blames_require {α : Type} (other : ∀ name line, fault ≠ .unresolved name line)
    (x : Option α) : Blames symbol? (require fault x) := by
  intro name line h
  cases x with
  | some a => cases h
  | none => exact absurd (Except.error.inj h) (other name line)

theorem blames_fold (other : ∀ name line, fault ≠ .unresolved name line) (e : Expr) :
    Blames symbol? (fold symbol? fault e) := by
  have required {α : Type} (x : Option α) : Blames symbol? (require fault x) :=
    blames_require other x
  cases e with
  | literal _ value => exact required _
  | name line name _ =>
    rw [fold]
    split
    · rename_i missing
      rintro _ _ ⟨⟩
      exact missing
    · split
      · exact blames_ok _
      · exact required (α := Constant) none
  | unary _ op operand =>
    exact (blames_fold other operand).bind fun a => (required _).bind fun x => required _
  | binary _ op lhs rhs =>
    refine (blames_fold other lhs).bind fun a => ?_
    have right : Blames symbol? (fold symbol? fault rhs) := blames_fold other rhs
    split
    · exact right.bind fun b => blames_ok _
    · exact right.bind fun b => blames_ok _
    · exact right.bind fun b => blames_ok _
    · exact (required _).bind fun x => right.bind fun b => (required _).bind fun y => required _
  | logical _ op lhs rhs =>
    refine (blames_fold other lhs).bind fun a => (required _).bind fun x => ?_
    split
    · exact blames_ok _
    · exact blames_ok _
    · exact (blames_fold other rhs).bind fun b => (required _).bind fun y => blames_ok _
  | ternary _ cond yes no =>
    refine (blames_fold other cond).bind fun a => (required _).bind fun x => ?_
    split
    · exact blames_fold other yes
    · exact blames_fold other no
  | _ => exact required (α := Constant) none

end Constant

namespace Action

open Resolve

variable {env : Environment} {s s' : Scopes} {a : Action}

/-- All that an action can do to the scopes. -/
def Leaves : Action → Scopes → Scopes → Prop
  | bind _ name line, s, s' => s' = s ∨ s' = s.declareObjectVar name line
  | enter kind, s, s' => s' = s.enter kind
  | leave, s, s' => s' = s.leave
  | declare name kind line, s, s' => s' = s.put name kind line
  | constant line name _, s, s' => ∃ value, s' = s.put name.name (.constant value) line

theorem eq_put_of_declare {name : String} {kind : SymbolKind} {line : Nat}
    (h : s.declare name kind line = .ok s') : s' = s.put name kind line := by
  unfold Scopes.declare at h
  split at h
  · exact (Except.ok.inj h).symm
  · split at h
    · exact (Except.ok.inj h).symm
    · cases h

/-- A constant is folded where it stands, and declared then. -/
theorem run_constDef (line : Nat) (name : Ident) (value : Expr) (s : Scopes) :
    ((constDef line name value).run s).map Prod.snd =
      if (s.local? name.name).isSome then .error (.duplicate name.name line)
      else Constant.fold s.lookup? (.notConstant name.name line) value >>= fun folded =>
        s.declare name.name (.constant folded) line := by
  unfold constDef
  rw [StateT.run_bind, StateT.run_get, pure_bind]
  split
  · rfl
  · simp only [StateT.run_bind, StateT.run_get, pure_bind]
    cases Constant.fold s.lookup? (.notConstant name.name line) value with
    | error e => rfl
    | ok folded =>
      change ((Resolve.declare name.name (.constant folded) line).run s).map Prod.snd =
        s.declare name.name (.constant folded) line
      rw [run_declare]
      cases s.declare name.name (.constant folded) line <;> rfl

theorem leaves_of_run (h : a.run env s = .ok s') : a.Leaves s s' := by
  cases a with
  | bind use name line =>
    rw [run] at h
    cases found : s.lookup? name with
    | some symbol =>
      rw [run_bindName_some env use name line found] at h
      split at h
      · cases h
      · exact .inl (Except.ok.inj h).symm
    | none =>
      rw [run_bindName_none env use name line found] at h
      split at h
      · exact .inl (Except.ok.inj h).symm
      · split at h
        · exact .inr (Except.ok.inj h).symm
        · cases h
  | enter kind => exact (Except.ok.inj h).symm
  | leave => exact (Except.ok.inj h).symm
  | declare name kind line => exact eq_put_of_declare h
  | constant line name value =>
    rw [run, run_constDef] at h
    split at h
    · cases h
    · obtain ⟨folded, -, declared⟩ := bind_eq_ok_iff.mp h
      exact ⟨folded, eq_put_of_declare declared⟩

theorem blames_declare (symbol? : String → Option Symbol) (s : Scopes) (name : String)
    (kind : SymbolKind) (line : Nat) : Constant.Blames symbol? (s.declare name kind line) := by
  intro n l h
  unfold Scopes.declare at h
  split at h
  · cases h
  · split at h <;> cases h

/-- Only a name that no open scope has is unresolved. -/
theorem blames_run (a : Action) (env : Environment) (s : Scopes) :
    Constant.Blames s.lookup? (a.run env s) := by
  cases a with
  | bind use n l =>
    rintro name line h
    rw [run] at h
    cases found : s.lookup? n with
    | some symbol =>
      rw [run_bindName_some env use n l found] at h
      split at h <;> cases h
    | none =>
      rw [run_bindName_none env use n l found] at h
      split at h
      · cases h
      · split at h
        · cases h
        · cases h
          exact found
  | enter kind => exact Constant.blames_ok _
  | leave => exact Constant.blames_ok _
  | declare n kind l => exact blames_declare _ s n kind l
  | constant l n value =>
    rw [run, run_constDef]
    split
    · rintro _ _ ⟨⟩
    · have other (name : String) (line : Nat) :
          ResolveError.notConstant n.name l ≠ .unresolved name line := nofun
      exact (Constant.blames_fold other value).bind fun folded =>
        blames_declare _ s n.name (.constant folded) l

end Action

end GraalScript
