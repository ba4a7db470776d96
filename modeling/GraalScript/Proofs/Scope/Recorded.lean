import GraalScript.Proofs.Scope.Actions

/-! The bindings that resolving records. They stand in the tree in the order in which the names are
bound, which is that of the actions; and apart from them the tree stays as it is. -/
namespace GraalScript

open Resolve

mutual

def Expr.bindings : Expr → List Binding
  | .literal .. | .newArray .. => []
  | .name _ _ binding => [binding]
  | .member _ object _ => object.bindings
  | .index _ object i => object.bindings ++ i.bindings
  | .call _ callee args => callee.bindings ++ Expr.allBindings args
  | .array _ items => Expr.allBindings items
  | .unary _ _ operand => operand.bindings
  | .step _ _ _ target => target.bindings
  | .binary _ _ lhs rhs => lhs.bindings ++ rhs.bindings
  | .logical _ _ lhs rhs => lhs.bindings ++ rhs.bindings
  | .assign _ _ target value => value.bindings ++ target.bindings
  | .ternary _ cond yes no => cond.bindings ++ (yes.bindings ++ no.bindings)
  | .cast _ _ operand => operand.bindings
  | .inRange _ value lower upper => value.bindings ++ (lower.bindings ++ upper.bindings)
  | .inObject _ value object => value.bindings ++ object.bindings
  | .new _ _ args => Expr.allBindings args

def Expr.allBindings : List Expr → List Binding
  | [] => []
  | e :: es => e.bindings ++ Expr.allBindings es

end

def Expr.bindings? (e : Option Expr) : List Binding := e.elim [] Expr.bindings

def VarDecl.bindings (decl : VarDecl) : List Binding :=
  decl.defs.flatMap fun d => Expr.bindings? d.value

def ForInit.bindings : Option ForInit → List Binding
  | none => []
  | some (.vars decl) => decl.bindings
  | some (.expr e) => e.bindings

mutual

/-- The bindings recorded in a statement. A constant's expression is left as it is, and the variable
that a loop declares is no name that refers to another place: it counts only where it is not
recorded as a local one. -/
def Stmt.bindings : Stmt → List Binding
  | .block _ body => Stmt.allBindings body
  | .ifThen _ cond yes => cond.bindings ++ yes.bindings
  | .ifElse _ cond yes no => cond.bindings ++ (yes.bindings ++ no.bindings)
  | .whileLoop _ cond body => cond.bindings ++ body.bindings
  | .forLoop _ init cond step body =>
    ForInit.bindings init ++ (Expr.bindings? cond ++ (Expr.bindings? step ++ body.bindings))
  | .forEach _ declared _ binding iterable body =>
    iterable.bindings ++
      ((if declared ∧ binding = .localVar then [] else [binding]) ++ body.bindings)
  | .withObject _ object body => object.bindings ++ body.bindings
  | .switch _ value cases => value.bindings ++ Case.allBindings cases
  | .new _ _ name _ body => name.bindings ++ Stmt.allBindings body
  | .ret _ value => Expr.bindings? value
  | .vars decl => decl.bindings
  | .expr e => e.bindings
  | .const .. | .breakOut _ | .continueLoop _ | .empty _ => []

def Stmt.allBindings : List Stmt → List Binding
  | [] => []
  | s :: ss => s.bindings ++ Stmt.allBindings ss

def Case.allBindings : List Case → List Binding
  | [] => []
  | c :: cs => c.bindings ++ Case.allBindings cs

def Case.bindings : Case → List Binding
  | .mk _ labels body => labels.flatMap Expr.bindings? ++ Stmt.allBindings body

end

def Item.bindings : Item → List Binding
  | .func f => Stmt.allBindings f.body.body
  | .stmt s => s.bindings

def Program.bindings (p : Program) : List Binding := p.items.flatMap Item.bindings

namespace Action

def isBind : Action → Bool
  | bind .. => true
  | _ => false

/-- Running the actions from the first scopes leaves the others, and binds the names to `bs`. -/
inductive Binds (env : Environment) : List Action → Scopes → List Binding → Scopes → Prop where
  | nil (s : Scopes) : Binds env [] s [] s
  | bind {use : Use} {name : String} {line : Nat} {as : List Action} {s s₁ s' : Scopes}
      {b : Binding}
      {bs : List Binding}
      (bound : (bindName env use name line).run s = .ok (b, s₁)) (rest : Binds env as s₁ bs s') :
      Binds env (bind use name line :: as) s (b :: bs) s'
  | other {a : Action} {as : List Action} {s s₁ s' : Scopes} {bs : List Binding}
      (other : a.isBind = false)
      (ran : a.run env s = .ok s₁) (rest : Binds env as s₁ bs s') : Binds env (a :: as) s bs s'

variable {env : Environment} {as bs : List Action} {s s₁ s' : Scopes} {xs ys : List Binding}

theorem Binds.append (first : Binds env as s xs s₁) (second : Binds env bs s₁ ys s') :
    Binds env (as ++ bs) s (xs ++ ys) s' := by
  induction first with
  | nil s => exact second
  | bind bound _ ih => exact .bind bound (ih second)
  | other other ran _ ih => exact .other other ran (ih second)

theorem Binds.single {a : Action} (other : a.isBind = false) (ran : a.run env s = .ok s') :
    Binds env [a] s [] s' :=
  .other other ran (.nil s')

end Action

namespace Resolve

open GraalScript.Action

variable {α β : Type} {env : Environment} {g : Resolve α} {f : α → Resolve β} {as bs : List Action}
  {R : α → List Binding → Prop} {S : β → List Binding → Prop}

/-- Where `g` succeeds it runs the actions, and its result and the bindings made on the way satisfy
`R`. -/
def Records (env : Environment) (g : Resolve α) (as : List Action) (R : α → List Binding → Prop) :
    Prop :=
  ∀ s a s', g.run s = .ok (a, s') → ∃ xs, Binds env as s xs s' ∧ R a xs

theorem records_pure {a : α} (h : R a []) : Records env (pure a) [] R := by
  intro s b s' run
  cases run
  exact ⟨[], .nil s, h⟩

theorem Records.bind (first : Records env g as R)
    (second : ∀ a xs, R a xs → Records env (f a) bs fun b ys => S b (xs ++ ys)) :
    Records env (g >>= f) (as ++ bs) S := by
  intro s b s' run
  rw [StateT.run_bind] at run
  obtain ⟨⟨a, s₁⟩, ran, rest⟩ := bind_eq_ok_iff.mp run
  obtain ⟨xs, binds, ha⟩ := first s a s₁ ran
  obtain ⟨ys, binds', hb⟩ := second a xs ha s₁ b s' rest
  exact ⟨xs ++ ys, binds.append binds', hb⟩

theorem Records.result {f : α → β} (h : Records env g as R) (built : ∀ a xs, R a xs → S (f a) xs) :
    Records env (do return f (← g)) as S := by
  intro s b s' run
  rw [StateT.run_bind] at run
  obtain ⟨⟨a, s₁⟩, ran, rest⟩ := bind_eq_ok_iff.mp run
  cases rest
  obtain ⟨xs, binds, ha⟩ := h s a s₁ ran
  exact ⟨xs, binds, built a xs ha⟩

theorem records_bindName (use : Use) (name : String) (line : Nat) :
    Records env (bindName env use name line) [.bind use name line] fun b xs => xs = [b] :=
  fun _ b s' run => ⟨[b], .bind run (.nil s'), rfl⟩

theorem records_declare (name : String) (kind : SymbolKind) (line : Nat) :
    Records env (declare name kind line) [.declare name kind line] fun _ xs => xs = [] := by
  intro s a s' run
  rw [run_declare] at run
  obtain ⟨s₁, ran, rest⟩ := bind_eq_ok_iff.mp run
  cases rest
  exact ⟨[], .single rfl ran, rfl⟩

theorem records_constDef (line : Nat) (name : Ident) (value : Expr) :
    Records env (constDef line name value) [.constant line name value] fun _ xs => xs = [] := by
  intro s a s' run
  have ran : (Action.constant line name value).run env s = .ok s' := by rw [Action.run, run]; rfl
  exact ⟨[], .single rfl ran, rfl⟩

theorem Records.inScope (kind : ScopeKind) (h : Records env g as R) :
    Records env (inScope kind g) (Action.inScope kind as) R := by
  intro s a s' run
  have enter : Records env (modify (·.enter kind)) [.enter kind] fun _ xs => xs = [] := by
    intro s _ s' run
    cases run
    exact ⟨[], .single rfl rfl, rfl⟩
  have leave : Records env (modify Scopes.leave) [.leave] fun _ xs => xs = [] := by
    intro s _ s' run
    cases run
    exact ⟨[], .single rfl rfl, rfl⟩
  refine enter.bind (fun _ xs none => ?_) s a s' run
  subst none
  exact h.bind fun a xs ha => leave.result fun _ ys none => by rw [none, List.append_nil]; exact ha

theorem records_mapM {f : α → Resolve β} {actions : α → List Action} {actions' : β → List Action}
    {bindings : β → List Binding} (xs : List α)
    (h : ∀ x ∈ xs, Records env (f x) (actions x) fun y bs => actions' y = actions x ∧
      bindings y = bs) :
    Records env (xs.mapM f) (xs.flatMap actions) fun ys bs =>
      ys.flatMap actions' = xs.flatMap actions ∧ ys.flatMap bindings = bs := by
  induction xs with
  | nil => exact records_pure ⟨rfl, rfl⟩
  | cons x xs ih =>
    rw [List.forall_mem_cons] at h
    rw [List.mapM_cons, List.flatMap_cons]
    exact h.1.bind fun y bs hy => (ih h.2).result fun ys bs' hys => by simp [hy, hys]

mutual

theorem records_expr (use : Use) (e : Expr) :
    Records env (expr env use e) (e.actions use) fun e' xs => e'.actions use = e.actions use ∧
      e'.bindings = xs := by
  cases e with
  | literal | newArray => exact records_pure ⟨rfl, rfl⟩
  | name line name _ => exact (records_bindName use name line).result fun b xs h => ⟨rfl, h.symm⟩
  | member _ object _ => exact (records_expr .read object).result fun _ _ h => h
  | index _ object index =>
    exact (records_expr .read object).bind fun _ _ ho =>
      (records_expr .read index).result fun _ _ hi => by
      simp [Expr.actions, Expr.bindings, ho, hi]
  | call _ callee args =>
    exact (records_expr .call callee).bind fun _ _ hc =>
      (records_exprs [] args).result fun _ _ ha => by
      obtain ⟨_, rfl, actions, bindings⟩ := ha
      simp [Expr.actions, Expr.bindings, hc, actions, bindings]
  | array _ items =>
    exact (records_exprs [] items).result fun _ _ h => by
      obtain ⟨_, rfl, actions, bindings⟩ := h
      exact ⟨actions, bindings⟩
  | unary _ _ operand => exact (records_expr .read operand).result fun _ _ h => h
  | step _ _ _ target => exact (records_expr .assign target).result fun _ _ h => h
  | binary _ _ lhs rhs | logical _ _ lhs rhs =>
    exact (records_expr .read lhs).bind fun _ _ hl =>
      (records_expr .read rhs).result fun _ _ hr => by
      simp [Expr.actions, Expr.bindings, hl, hr]
  | assign _ _ target value =>
    exact (records_expr .read value).bind fun _ _ hv =>
      (records_expr .assign target).result fun _ _ ht => by
      simp [Expr.actions, Expr.bindings, hv, ht]
  | ternary _ cond yes no =>
    exact (records_expr .read cond).bind fun _ _ hc => (records_expr .read yes).bind fun _ _ hy =>
      (records_expr .read no).result fun _ _ hn => by simp [Expr.actions, Expr.bindings, hc, hy, hn]
  | cast _ _ operand => exact (records_expr .read operand).result fun _ _ h => h
  | inRange _ value lower upper =>
    exact (records_expr .read value).bind fun _ _ hv =>
      (records_expr .read lower).bind fun _ _ hl =>
      (records_expr .read upper).result fun _ _ hu =>
        by simp [Expr.actions, Expr.bindings, hv, hl, hu]
  | inObject _ value object =>
    exact (records_expr .read value).bind fun _ _ hv =>
      (records_expr .read object).result fun _ _ ho => by
      simp [Expr.actions, Expr.bindings, hv, ho]
  | new _ _ args =>
    exact (records_exprs [] args).result fun _ _ h => by
      obtain ⟨_, rfl, actions, bindings⟩ := h
      exact ⟨actions, bindings⟩

theorem records_exprs (done es : List Expr) :
    Records env (exprs env done es) (Expr.allActions es) fun r xs =>
      ∃ es', r = done.reverse ++ es' ∧
      Expr.allActions es' = Expr.allActions es ∧ Expr.allBindings es' = xs := by
  cases es with
  | nil => exact records_pure ⟨[], by simp, rfl, rfl⟩
  | cons e es =>
    refine (records_expr .read e).bind fun e' _ he s r s' run => ?_
    obtain ⟨ys, binds, es', built, actions, bindings⟩ := records_exprs (e' :: done) es s r s' run
    exact ⟨ys, binds, e' :: es', by simp [built], by simp [Expr.allActions, he, actions],
      by simp [Expr.allBindings, he, bindings]⟩

end

theorem records_readExpr? (e : Option Expr) :
    Records env (readExpr? env e) (Expr.actions? e) fun e' xs =>
      Expr.actions? e' = Expr.actions? e ∧ Expr.bindings? e' = xs := by
  cases e with
  | none => exact records_pure ⟨rfl, rfl⟩
  | some e => exact (records_expr .read e).result fun _ _ h => h

theorem records_varDecl (decl : VarDecl) :
    Records env (varDecl env decl) decl.actions fun decl' xs =>
      decl'.actions = decl.actions ∧ decl'.bindings = xs := by
  refine Records.result (records_mapM decl.defs fun d _ => ?_) fun _ _ h => h
  refine (records_readExpr? d.value).bind fun value xs h => ?_
  refine (records_declare d.name.name .localVar d.name.line).result fun _ ys none => ?_
  subst none
  simp [VarDef.actions, h]

theorem records_forInit (init : Option ForInit) :
    Records env (forInit env init) (ForInit.actions init) fun init' xs =>
      ForInit.actions init' = ForInit.actions init ∧ ForInit.bindings init' = xs := by
  rcases init with _ | ⟨decl⟩ | ⟨e⟩
  · exact records_pure ⟨rfl, rfl⟩
  · exact (records_varDecl decl).result fun _ _ h => h
  · exact (records_expr .read e).result fun _ _ h => h

theorem records_loopItem (declared : Bool) (item : String) (line : Nat) :
    Records env (loopItem env declared item line) [.loopItem declared item line] fun b xs =>
      xs = if declared ∧ b = .localVar then [] else [b] := by
  cases declared with
  | true => exact (records_declare item .localVar line).result fun _ _ none => by simp [none]
  | false =>
    intro s b s' run
    obtain ⟨xs, binds, single⟩ := records_bindName .assign item line s b s' run
    exact ⟨xs, binds, by simp [single]⟩

mutual

theorem records_stmt (s : Stmt) :
    Records env (stmt env s) s.actions fun s' xs => s'.actions = s.actions ∧ s'.bindings = xs := by
  cases s with
  | block _ body =>
    exact ((records_stmts [] body).inScope .block).result fun _ _ h => by
      obtain ⟨_, rfl, actions, bindings⟩ := h
      simp [Stmt.actions, Stmt.bindings, actions, bindings]
  | ifThen _ cond yes =>
    exact (records_expr .read cond).bind fun _ _ hc => (records_stmt yes).result fun _ _ hy => by
      simp [Stmt.actions, Stmt.bindings, hc, hy]
  | ifElse _ cond yes no =>
    exact (records_expr .read cond).bind fun _ _ hc => (records_stmt yes).bind fun _ _ hy =>
      (records_stmt no).result fun _ _ hn => by simp [Stmt.actions, Stmt.bindings, hc, hy, hn]
  | whileLoop _ cond body =>
    exact (records_expr .read cond).bind fun _ _ hc => (records_stmt body).result fun _ _ hb => by
      simp [Stmt.actions, Stmt.bindings, hc, hb]
  | forLoop _ init cond step body =>
    refine Records.inScope .block ((records_forInit init).bind fun _ _ hi =>
      (records_readExpr? cond).bind fun _ _ hc => ?_)
    exact (records_readExpr? step).bind fun _ _ hs => (records_stmt body).result fun _ _ hb => by
      simp [Stmt.actions, Stmt.bindings, hi, hc, hs, hb]
  | forEach line declared item _ iterable body =>
    refine (records_expr .read iterable).bind fun _ _ hi => Records.inScope .block ?_
    exact (records_loopItem declared item line).bind fun _ _ hl =>
      (records_stmt body).result fun _ _ hb => by
      simp [Stmt.actions, Stmt.bindings, hi, hl, hb]
  | withObject _ object body =>
    exact (records_expr .read object).bind fun _ _ ho => (records_stmt body).result fun _ _ hb => by
      simp [Stmt.actions, Stmt.bindings, ho, hb]
  | switch _ value cases =>
    exact (records_expr .read value).bind fun _ _ hv =>
      ((records_caseList [] cases).inScope .block).result fun _ _ h => by
      obtain ⟨_, rfl, actions, bindings⟩ := h
      simp [Stmt.actions, Stmt.bindings, hv, actions, bindings]
  | new _ _ name _ body =>
    exact (records_expr .read name).bind fun _ _ hn =>
      ((records_stmts [] body).inScope .block).result fun _ _ h => by
      obtain ⟨_, rfl, actions, bindings⟩ := h
      simp [Stmt.actions, Stmt.bindings, hn, actions, bindings]
  | ret _ value => exact (records_readExpr? value).result fun _ _ h => h
  | vars decl => exact (records_varDecl decl).result fun _ _ h => h
  | const line name value =>
    exact (records_constDef line name value).result fun _ _ h => ⟨rfl, h.symm⟩
  | expr e => exact (records_expr .read e).result fun _ _ h => h
  | breakOut | continueLoop | empty => exact records_pure ⟨rfl, rfl⟩

theorem records_stmts (done ss : List Stmt) :
    Records env (stmts env done ss) (Stmt.allActions ss) fun r xs =>
      ∃ ss', r = done.reverse ++ ss' ∧
      Stmt.allActions ss' = Stmt.allActions ss ∧ Stmt.allBindings ss' = xs := by
  cases ss with
  | nil => exact records_pure ⟨[], by simp, rfl, rfl⟩
  | cons st ss =>
    refine (records_stmt st).bind fun st' _ hst s r s' run => ?_
    obtain ⟨ys, binds, ss', built, actions, bindings⟩ := records_stmts (st' :: done) ss s r s' run
    exact ⟨ys, binds, st' :: ss', by simp [built], by simp [Stmt.allActions, hst, actions],
      by simp [Stmt.allBindings, hst, bindings]⟩

theorem records_caseList (done cs : List Case) :
    Records env (caseList env done cs) (Case.allActions cs) fun r xs =>
      ∃ cs', r = done.reverse ++ cs' ∧
      Case.allActions cs' = Case.allActions cs ∧ Case.allBindings cs' = xs := by
  cases cs with
  | nil => exact records_pure ⟨[], by simp, rfl, rfl⟩
  | cons c cs =>
    refine (records_oneCase c).bind fun c' _ hc s r s' run => ?_
    obtain ⟨ys, binds, cs', built, actions, bindings⟩ := records_caseList (c' :: done) cs s r s' run
    exact ⟨ys, binds, c' :: cs', by simp [built], by simp [Case.allActions, hc, actions],
      by simp [Case.allBindings, hc, bindings]⟩

theorem records_oneCase (c : Case) :
    Records env (oneCase env c) c.actions fun c' xs =>
      c'.actions = c.actions ∧ c'.bindings = xs := by
  cases c with
  | mk _ labels body =>
    refine (records_mapM labels fun label _ => records_readExpr? label).bind fun _ _ hl => ?_
    exact (records_stmts [] body).result fun _ _ h => by
      obtain ⟨_, rfl, actions, bindings⟩ := h
      simp [Case.actions, Case.bindings, hl, actions, bindings]

end

theorem records_params (params : List Ident) :
    Records env (params.forM fun p => declare p.name .param p.line)
      (params.map fun p => .declare p.name .param p.line) fun _ xs => xs = [] := by
  induction params with
  | nil => exact records_pure rfl
  | cons p params ih =>
    refine (records_declare p.name .param p.line).bind fun _ xs none => ?_
    subst none
    exact ih

theorem records_item (i : Item) :
    Records env (item env i) i.actions fun i' xs => i'.actions = i.actions ∧ i'.bindings = xs := by
  cases i with
  | stmt s => exact (records_stmt s).result fun _ _ h => h
  | func f =>
    have body : Records env _ (Stmt.allActions f.body.body) _ := records_stmts [] f.body.body
    refine Records.result (Records.inScope .function
      ((records_params f.params).bind fun _ xs none => ?_)) fun _ _ h => h
    subst none
    refine body.result fun _ _ h => ?_
    obtain ⟨_, rfl, actions, bindings⟩ := h
    simp [Item.actions, Item.bindings, Func.actions, actions, bindings]

/-- Resolving the items of a program keeps their actions, and the bindings that it makes stand in
them. -/
theorem records_items (p : Program) :
    Records env (p.items.mapM (item env)) p.actions fun items xs =>
      items.flatMap Item.actions = p.actions ∧ items.flatMap Item.bindings = xs :=
  records_mapM p.items fun i _ => records_item i

end Resolve

end GraalScript
