import GraalScript.Proofs.Tree.Ready
import GraalScript.Scope.Resolve
import Mathlib.Data.List.Forall2

/-! What resolving leaves: a tree of the same form in which every name is bound, and functions whose
names in the function table differ. -/
namespace GraalScript

namespace Resolve

variable {α β : Type} {g : Resolve α} {f : α → Resolve β} {Q R : α → Prop} {S : β → Prop}

/-- Whatever `g` returns satisfies `Q`. -/
def Gives (g : Resolve α) (Q : α → Prop) : Prop := ∀ s a s', g.run s = .ok (a, s') → Q a

theorem gives_pure {a : α} (h : Q a) : Gives (pure a) Q := by
  intro s b s' run
  cases run
  exact h

theorem gives_throw (e : ResolveError) : Gives (throw e) Q := by
  intro s b s' run
  cases run

theorem gives_any (g : Resolve α) : Gives g fun _ => True := fun _ _ _ _ => trivial

theorem Gives.bind (first : Gives g Q) (second : ∀ a, Q a → Gives (f a) S) : Gives (g >>= f) S := by
  intro s b s' run
  rw [StateT.run_bind] at run
  cases mid : g.run s with
  | error e => rw [mid] at run; cases run
  | ok r => rw [mid] at run; exact second r.1 (first s r.1 r.2 mid) r.2 b s' run

theorem Gives.mono (h : Gives g Q) (imp : ∀ a, Q a → R a) : Gives g R :=
  fun s a s' run => imp a (h s a s' run)

theorem gives_ite {p : Prop} [Decidable p] {g' : Resolve α} (yes : p → Gives g Q)
    (no : ¬p → Gives g' Q) : Gives (if p then g else g') Q := by
  split
  next h => exact yes h
  next h => exact no h

theorem gives_inScope (kind : ScopeKind) (h : Gives g Q) : Gives (inScope kind g) Q :=
  (gives_any _).bind fun _ _ => h.bind fun _ ha => (gives_any _).bind fun _ _ => gives_pure ha

theorem gives_mapM {f : α → Resolve β} {Q : α → β → Prop} (xs : List α)
    (h : ∀ x ∈ xs, Gives (f x) (Q x)) : Gives (xs.mapM f) (List.Forall₂ Q xs) := by
  induction xs with
  | nil => exact gives_pure .nil
  | cons x xs ih =>
    rw [List.mapM_cons]
    refine (h x List.mem_cons_self).bind fun y hy => ?_
    refine (ih fun z hz => h z (List.mem_cons_of_mem x hz)).bind fun ys hys => ?_
    exact gives_pure (.cons hy hys)

theorem gives_mapM_all {f : α → Resolve β} {q : β → Bool} (xs : List α)
    (h : ∀ x ∈ xs, Gives (f x) fun y => q y = true) : Gives (xs.mapM f) fun ys => ys.all q = true :=
  (gives_mapM xs h).mono fun ys each => by
    induction each with
    | nil => rfl
    | cons first _ ih =>
      rw [List.all_cons, first, ih fun x hx => h x (List.mem_cons_of_mem _ hx)]; rfl

theorem isBound_binding (kind : SymbolKind) : kind.binding.isBound = true := by
  cases kind <;> rfl

section environment

variable (env : Environment)

theorem gives_bindName (use : Use) (name : String) (line : Nat) :
    Gives (bindName env use name line) fun b => b.isBound = true := by
  refine (gives_any _).bind fun s _ => ?_
  split
  · split
    · exact gives_throw _
    · exact gives_pure (isBound_binding _)
  · refine gives_ite (fun _ => gives_pure rfl) fun _ => ?_
    exact (gives_any _).bind fun _ _ => gives_pure rfl
  · exact gives_pure (isBound_binding _)
  · exact gives_ite (fun _ => gives_pure rfl) fun _ => gives_throw _
  · exact gives_ite (fun _ => gives_pure rfl) fun _ => gives_throw _

mutual

theorem gives_expr (use : Use) (e : Expr) : Gives (expr env use e) fun e' => e'.isBound = true := by
  cases e with
  | literal line value => exact gives_pure rfl
  | name line name binding =>
    exact (gives_bindName env use name line).bind fun b hb => gives_pure hb
  | member line object member => exact (gives_expr .read object).bind fun o ho => gives_pure ho
  | index line object index =>
    refine (gives_expr .read object).bind fun o ho => (gives_expr .read index).bind fun i hi => ?_
    exact gives_pure (by simp [Expr.isBound, ho, hi])
  | call line callee args =>
    refine (gives_expr .call callee).bind fun c hc =>
      (gives_exprs [] args rfl).bind fun es hes => ?_
    exact gives_pure (by simp [Expr.isBound, hc, hes])
  | array line items => exact (gives_exprs [] items rfl).bind fun es hes => gives_pure hes
  | unary line op operand => exact (gives_expr .read operand).bind fun o ho => gives_pure ho
  | step line op before target => exact (gives_expr .assign target).bind fun t ht => gives_pure ht
  | binary line op lhs rhs =>
    refine (gives_expr .read lhs).bind fun l hl => (gives_expr .read rhs).bind fun r hr => ?_
    exact gives_pure (by simp [Expr.isBound, hl, hr])
  | logical line op lhs rhs =>
    refine (gives_expr .read lhs).bind fun l hl => (gives_expr .read rhs).bind fun r hr => ?_
    exact gives_pure (by simp [Expr.isBound, hl, hr])
  | assign line op target value =>
    refine (gives_expr .read value).bind fun v hv => (gives_expr .assign target).bind fun t ht => ?_
    exact gives_pure (by simp [Expr.isBound, hv, ht])
  | ternary line cond yes no =>
    refine (gives_expr .read cond).bind fun c hc => (gives_expr .read yes).bind fun y hy => ?_
    exact (gives_expr .read no).bind fun n hn => gives_pure (by simp [Expr.isBound, hc, hy, hn])
  | cast line kind operand => exact (gives_expr .read operand).bind fun o ho => gives_pure ho
  | inRange line value lower upper =>
    refine (gives_expr .read value).bind fun v hv => (gives_expr .read lower).bind fun l hl => ?_
    exact (gives_expr .read upper).bind fun u hu => gives_pure (by simp [Expr.isBound, hv, hl, hu])
  | inObject line value object =>
    refine (gives_expr .read value).bind fun v hv => (gives_expr .read object).bind fun o ho => ?_
    exact gives_pure (by simp [Expr.isBound, hv, ho])
  | new line cls args => exact (gives_exprs [] args rfl).bind fun es hes => gives_pure hes
  | newArray line dims => exact gives_pure rfl

theorem gives_exprs (done es : List Expr) (h : Expr.allBound done = true) :
    Gives (exprs env done es) fun es' => Expr.allBound es' = true := by
  cases es with
  | nil => exact gives_pure (by rwa [Expr.allBound_eq, List.all_reverse, ← Expr.allBound_eq])
  | cons e es =>
    refine (gives_expr .read e).bind fun e' he => ?_
    exact gives_exprs (e' :: done) es (by simp [Expr.allBound, he, h])

end

theorem gives_readExpr? (e : Option Expr) :
    Gives (readExpr? env e) fun e' => e'.all Expr.isBound = true := by
  cases e with
  | none => exact gives_pure rfl
  | some e => exact (gives_expr env .read e).bind fun e' he => gives_pure he

theorem gives_varDecl (decl : VarDecl) :
    Gives (varDecl env decl) fun decl' => decl'.isBound = true := by
  have each (d : VarDef) : Gives (varDef env d) fun d' => d'.value.all Expr.isBound = true :=
    (gives_readExpr? env d.value).bind fun v hv => (gives_any _).bind fun _ _ => gives_pure hv
  exact (gives_mapM_all decl.defs fun d _ => each d).bind fun defs bound => gives_pure bound

theorem gives_forInit (init : Option ForInit) :
    Gives (forInit env init) fun init' => init'.all ForInit.isBound = true := by
  rcases init with _ | ⟨decl⟩ | ⟨e⟩
  · exact gives_pure rfl
  · exact (gives_varDecl env decl).bind fun decl' h => gives_pure h
  · exact (gives_expr env .read e).bind fun e' h => gives_pure h

theorem gives_loopItem (declared : Bool) (item : String) (line : Nat) :
    Gives (loopItem env declared item line) fun b => b.isBound = true := by
  refine gives_ite (fun _ => ?_) fun _ => gives_bindName env .assign item line
  exact (gives_any _).bind fun _ _ => gives_pure rfl

def BoundStmt (s s' : Stmt) : Prop :=
  s'.isBound = true ∧ ∀ inLoop canBreak, s'.isPlaced inLoop canBreak = s.isPlaced inLoop canBreak

def BoundStmts (ss ss' : List Stmt) : Prop :=
  Stmt.allBound ss' = true ∧
    ∀ inLoop canBreak, Stmt.allPlaced inLoop canBreak ss' = Stmt.allPlaced inLoop canBreak ss

def BoundCases (cs cs' : List Case) : Prop :=
  Case.allBound cs' = true ∧
    ∀ inLoop canBreak, Case.allPlaced inLoop canBreak cs' = Case.allPlaced inLoop canBreak cs

mutual

theorem gives_stmt (s : Stmt) : Gives (stmt env s) (BoundStmt s) := by
  cases s with
  | block line body =>
    exact (gives_inScope .block (gives_stmts [] body rfl)).bind fun ss h => gives_pure h
  | ifThen line cond yes =>
    refine (gives_expr env .read cond).bind fun c hc => (gives_stmt yes).bind fun y hy => ?_
    exact gives_pure ⟨by simp [Stmt.isBound, hc, hy.1], hy.2⟩
  | ifElse line cond yes no =>
    refine (gives_expr env .read cond).bind fun c hc => (gives_stmt yes).bind fun y hy => ?_
    refine (gives_stmt no).bind fun n hn => gives_pure ⟨by simp [Stmt.isBound, hc, hy.1, hn.1], ?_⟩
    exact fun inLoop canBreak => by simp only [Stmt.isPlaced, hy.2, hn.2]
  | whileLoop line cond body =>
    refine (gives_expr env .read cond).bind fun c hc => (gives_stmt body).bind fun b hb => ?_
    exact gives_pure ⟨by simp [Stmt.isBound, hc, hb.1], fun _ _ => hb.2 true true⟩
  | forLoop line init cond step body =>
    refine gives_inScope .block ((gives_forInit env init).bind fun i hi => ?_)
    refine (gives_readExpr? env cond).bind fun c hc =>
      (gives_readExpr? env step).bind fun st hst => ?_
    refine (gives_stmt body).bind fun b hb => ?_
    exact gives_pure
      ⟨by simp only [Stmt.isBound, hi, hc, hst, hb.1, Bool.and_self], fun _ _ => hb.2 true true⟩
  | forEach line declared item binding iterable body =>
    refine (gives_expr env .read iterable).bind fun it hit => gives_inScope .block ?_
    refine (gives_loopItem env declared item line).bind fun v hv =>
      (gives_stmt body).bind fun b hb => ?_
    exact gives_pure ⟨by simp [Stmt.isBound, hv, hit, hb.1], fun _ _ => hb.2 true true⟩
  | withObject line object body =>
    refine (gives_expr env .read object).bind fun o ho => (gives_stmt body).bind fun b hb => ?_
    exact gives_pure ⟨by simp [Stmt.isBound, ho, hb.1], hb.2⟩
  | switch line value cases =>
    refine (gives_expr env .read value).bind fun v hv => ?_
    refine (gives_inScope .block (gives_caseList [] cases rfl)).bind fun cs hcs => ?_
    exact gives_pure ⟨by simp [Stmt.isBound, hv, hcs.1], fun inLoop _ => hcs.2 inLoop true⟩
  | new line cls name bodyLine body =>
    refine (gives_expr env .read name).bind fun n hn => ?_
    refine (gives_inScope .block (gives_stmts [] body rfl)).bind fun ss hss => ?_
    exact gives_pure ⟨by simp [Stmt.isBound, hn, hss.1], hss.2⟩
  | ret line value =>
    exact (gives_readExpr? env value).bind fun v hv => gives_pure ⟨hv, fun _ _ => rfl⟩
  | vars decl => exact (gives_varDecl env decl).bind fun d hd => gives_pure ⟨hd, fun _ _ => rfl⟩
  | const line name value => exact (gives_any _).bind fun _ _ => gives_pure ⟨rfl, fun _ _ => rfl⟩
  | expr e => exact (gives_expr env .read e).bind fun e' he => gives_pure ⟨he, fun _ _ => rfl⟩
  | breakOut line => exact gives_pure ⟨rfl, fun _ _ => rfl⟩
  | continueLoop line => exact gives_pure ⟨rfl, fun _ _ => rfl⟩
  | empty line => exact gives_pure ⟨rfl, fun _ _ => rfl⟩

theorem gives_stmts (done ss : List Stmt) (h : Stmt.allBound done = true) :
    Gives (stmts env done ss) (BoundStmts (done.reverse ++ ss)) := by
  cases ss with
  | nil =>
    refine gives_pure ⟨?_, fun _ _ => by rw [List.append_nil]⟩
    rwa [Stmt.allBound_eq, List.all_reverse, ← Stmt.allBound_eq]
  | cons s ss =>
    refine (gives_stmt s).bind fun s' hs => ?_
    refine (gives_stmts (s' :: done) ss (by simp [Stmt.allBound, hs.1, h])).mono fun ss' hss =>
      ⟨hss.1, ?_⟩
    intro inLoop canBreak
    rw [hss.2]
    simp [Stmt.allPlaced_eq, hs.2]

theorem gives_caseList (done cs : List Case) (h : Case.allBound done = true) :
    Gives (caseList env done cs) (BoundCases (done.reverse ++ cs)) := by
  cases cs with
  | nil =>
    refine gives_pure ⟨?_, fun _ _ => by rw [List.append_nil]⟩
    rwa [Case.allBound_eq, List.all_reverse, ← Case.allBound_eq]
  | cons c cs =>
    refine (gives_oneCase c).bind fun c' hc => ?_
    refine (gives_caseList (c' :: done) cs (by simp [Case.allBound, hc.1, h])).mono fun cs' hcs =>
      ⟨hcs.1, ?_⟩
    intro inLoop canBreak
    rw [hcs.2]
    simp [Case.allPlaced_eq, hc.2]

theorem gives_oneCase (c : Case) :
    Gives (oneCase env c) fun c' => c'.isBound = true ∧
      ∀ inLoop canBreak, c'.isPlaced inLoop canBreak = c.isPlaced inLoop canBreak := by
  obtain ⟨line, labels, body⟩ := c
  refine (gives_mapM_all labels fun label _ => gives_readExpr? env label).bind fun ls hls => ?_
  refine (gives_stmts [] body rfl).bind fun ss hss => gives_pure ⟨?_, hss.2⟩
  simp only [Case.isBound, hls, hss.1, Bool.and_self]

end

def BoundItem (i i' : Item) : Prop :=
  i'.isBound = true ∧ i'.isPlaced = i.isPlaced ∧
    i'.func?.map Func.tableName = i.func?.map Func.tableName

theorem gives_item (i : Item) : Gives (item env i) (BoundItem i) := by
  cases i with
  | func f =>
    have body : Gives (func env f) fun f' => BoundItem (.func f) (.func f') := by
      refine gives_inScope .function ((gives_any _).bind fun _ _ => ?_)
      refine (gives_stmts env [] f.body.body rfl).bind fun ss hss => gives_pure ?_
      exact ⟨hss.1, hss.2 false false, rfl⟩
    exact body.bind fun f' h => gives_pure h
  | stmt s => exact (gives_stmt env s).bind fun s' h => gives_pure ⟨h.1, h.2 false false, rfl⟩

theorem gives_declareFuncs (seen : List String) (fs : List Func) :
    Gives (declareFuncs seen fs) fun _ =>
      (fs.map Func.tableName).Nodup ∧ ∀ name ∈ fs.map Func.tableName, name ∉ seen := by
  induction fs generalizing seen with
  | nil => exact gives_pure ⟨.nil, fun _ h => nomatch h⟩
  | cons f fs ih =>
    refine gives_ite (fun _ => (gives_throw _).bind fun _ (h : False) => h.elim) fun known => ?_
    have rest : Gives (declareFuncs (f.tableName :: seen) fs) fun _ =>
        ((f :: fs).map Func.tableName).Nodup ∧ ∀ name ∈ (f :: fs).map Func.tableName,
          name ∉ seen := by
      refine (ih (f.tableName :: seen)).mono fun _ h => ⟨?_, ?_⟩
      · exact List.nodup_cons.mpr ⟨fun found => h.2 _ found List.mem_cons_self, h.1⟩
      · intro name hname
        rcases List.mem_cons.mp hname with rfl | later
        · simpa using known
        · exact fun old => h.2 name later (List.mem_cons_of_mem _ old)
    exact gives_ite (fun _ => (gives_any _).bind fun _ _ => rest) fun _ => rest

theorem isBound_items {is is' : List Item} (h : List.Forall₂ BoundItem is is') :
    ∀ i ∈ is', i.isBound = true := by
  induction h with
  | nil => exact fun _ h => nomatch h
  | cons first _ ih => exact List.forall_mem_cons.mpr ⟨first.1, ih⟩

theorem isPlaced_items {is is' : List Item} (h : List.Forall₂ BoundItem is is')
    (placed : ∀ i ∈ is, i.isPlaced = true) : ∀ i ∈ is', i.isPlaced = true := by
  induction h with
  | nil => exact fun _ h => nomatch h
  | cons first _ ih =>
    rw [List.forall_mem_cons] at placed ⊢
    exact ⟨first.2.1.trans placed.1, ih placed.2⟩

theorem tableNames_items {is is' : List Item} (h : List.Forall₂ BoundItem is is') :
    (is'.filterMap Item.func?).map Func.tableName =
      (is.filterMap Item.func?).map Func.tableName := by
  induction h with
  | nil => rfl
  | cons first _ ih =>
    rw [List.map_filterMap, List.map_filterMap] at ih ⊢
    rw [List.filterMap_cons, List.filterMap_cons, first.2.2, ih]

theorem gives_program (p : Program) :
    Gives (program env p) fun p' =>
      List.Forall₂ BoundItem p.items p'.items ∧ (p.funcs.map Func.tableName).Nodup := by
  refine (gives_declareFuncs [] p.funcs).bind fun _ distinct => (gives_any _).bind fun _ _ => ?_
  exact (gives_mapM p.items fun i _ => gives_item env i).bind fun is h => gives_pure ⟨h, distinct.1⟩

end environment

end Resolve

/-- A program whose names could be bound is ready if its breaks and continues stand where they
may. -/
theorem Program.ready_of_resolve {p bound : Program} {env : Environment} {symbols : SymbolTable}
    (placed : ∀ i ∈ p.items, i.isPlaced = true) (h : p.resolve env = .ok (bound, symbols)) :
    bound.Ready := by
  unfold resolve at h
  cases run : (Resolve.program env p).run .initial with
  | error e => rw [run] at h; cases h
  | ok r =>
    rw [run] at h
    cases h
    obtain ⟨items, distinct⟩ := Resolve.gives_program env p _ _ _ run
    refine ⟨Resolve.isBound_items items, Resolve.isPlaced_items items placed, ?_⟩
    rw [funcs_eq, Resolve.tableNames_items items, ← funcs_eq]
    exact distinct

end GraalScript
