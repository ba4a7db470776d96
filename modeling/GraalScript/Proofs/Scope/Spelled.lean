import GraalScript.Number.Shortest
import GraalScript.Proofs.Compilation
import GraalScript.Proofs.Scope.Chain
import GraalScript.Proofs.Tree.Spelled
import GraalScript.Scope.Resolve

/-! Resolving brings no new texts into a tree but the values of constants, and these are joined from
the texts of the tree and from numbers. -/
namespace GraalScript

namespace Number

theorem zeroFree_positional (d : Decimal) : Text.ZeroFree d.positional := by
  have digits : '\x00' ∉ Nat.toDigits 10 d.digits := by
    intro inside
    exact absurd (Nat.isDigit_of_mem_toDigits (by decide) (by decide) inside) (by decide)
  have zeros (n : Nat) : '\x00' ∉ List.replicate n '0' := by
    intro inside
    exact absurd (List.eq_of_mem_replicate inside) (by decide)
  unfold Decimal.positional
  dsimp only
  split
  · rw [Text.ZeroFree, String.toList_ofList, List.mem_append]
    exact not_or.mpr ⟨digits, zeros _⟩
  · generalize whole : List.replicate _ '0' ++ Nat.toDigits 10 d.digits = padded
    have zeroFree : '\x00' ∉ padded := by
      rw [← whole, List.mem_append]
      exact not_or.mpr ⟨zeros _, digits⟩
    rw [Text.ZeroFree, String.toList_ofList]
    have front (n : Nat) : '\x00' ∉ padded.take n :=
      fun inside => zeroFree (List.mem_of_mem_take inside)
    split
    · exact front _
    · rw [List.mem_append, List.mem_cons, List.mem_reverse]
      rintro (inside | dot | inside)
      · exact front _ inside
      · exact absurd dot (by decide)
      · have later := (List.dropWhile_sublist _).mem inside
        exact zeroFree (List.mem_of_mem_drop (List.mem_reverse.mp later))

theorem zeroFree_render (x : Float) : Text.ZeroFree (render x) := by
  have magnitude (m : Nat) (q : Int) :
      Text.ZeroFree (if m = 0 then "0" else (shortest m q).positional) := by
    split
    · decide
    · exact zeroFree_positional _
  unfold render
  dsimp only
  split
  · exact Text.zeroFree_append (by decide) (magnitude _ _)
  · exact magnitude _ _

end Number

variable {P : String → Prop}

namespace Constant

theorem spelled_ofBool (b : Bool) : (ofBool b).Spelled P := trivial

theorem spelled_finite? {x : Float} {c : Constant} (h : finite? x = some c) : c.Spelled P := by
  unfold finite? at h
  split at h
  · cases h
    trivial
  · cases h

theorem spelled_ofLiteral? {value : Literal} (spelled : value.Spelled P) {c : Constant}
    (h : ofLiteral? value = some c) : c.Spelled P := by
  cases value with
  | int n =>
    cases h
    trivial
  | float digits => exact spelled_finite? h
  | str s =>
    cases h
    exact spelled
  | bool b =>
    cases h
    exact spelled_ofBool b
  | null => cases h

theorem spelled_unary? {op : UnaryOp} {x : Float} {c : Constant} (h : unary? op x = some c) :
    c.Spelled P := by
  cases op with
  | neg => exact spelled_finite? h
  | not =>
    cases h
    exact spelled_ofBool _

theorem spelled_arithmetic? {op : BinaryOp} {x y : Float} {c : Constant}
    (h : arithmetic? op x y = some c) : c.Spelled P := by
  cases op with
  | add | sub | mul | pow => exact spelled_finite? h
  | div | mod =>
    rw [arithmetic?] at h
    split at h
    · cases h
    · exact spelled_finite? h
  | less | greater | lessEq | greaterEq =>
    cases h
    exact spelled_ofBool _
  | concat | eq | notEq => cases h

theorem render_of_spelled (admits : Text.Admits P) {c : Constant} (h : c.Spelled P) :
    P c.render := by
  cases c with
  | number x => exact admits.of_zeroFree _ (Number.zeroFree_render x)
  | text s => exact h

theorem require_eq_ok {α : Type} {e : ResolveError} {x : Option α} {a : α}
    (h : require e x = .ok a) : x = some a := by
  cases x with
  | none => cases h
  | some b =>
    cases h
    rfl

theorem spelled_fold (admits : Text.Admits P) {symbol? : String → Option Symbol}
    {fault : ResolveError}
    (symbols : ∀ name symbol value, symbol? name = some symbol → symbol.kind = .constant value →
      value.Spelled P)
    (e : Expr) (spelled : e.Spelled P) {c : Constant} (h : fold symbol? fault e = .ok c) :
    c.Spelled P := by
  cases e with
  | literal _ value => exact spelled_ofLiteral? spelled (require_eq_ok h)
  | name _ name _ =>
    rw [fold] at h
    split at h
    · cases h
    · rename_i symbol found
      split at h
      · rename_i value kind
        cases h
        exact symbols name symbol c found kind
      · cases h
  | unary _ op operand =>
    rw [fold] at h
    obtain ⟨a, -, h⟩ := bind_eq_ok_iff.mp h
    obtain ⟨x, -, h⟩ := bind_eq_ok_iff.mp h
    exact spelled_unary? (require_eq_ok h)
  | binary _ op lhs rhs =>
    rw [fold] at h
    obtain ⟨a, left, h⟩ := bind_eq_ok_iff.mp h
    have ha := spelled_fold admits symbols lhs spelled.1 left
    -- Only joining makes a new text; comparing and calculating give numbers.
    split at h
    · obtain ⟨b, right, h⟩ := bind_eq_ok_iff.mp h
      have hb := spelled_fold admits symbols rhs spelled.2 right
      cases h
      exact admits.append _ _ (render_of_spelled admits ha) (render_of_spelled admits hb)
    · obtain ⟨b, -, h⟩ := bind_eq_ok_iff.mp h
      cases h
      exact spelled_ofBool _
    · obtain ⟨b, -, h⟩ := bind_eq_ok_iff.mp h
      cases h
      exact spelled_ofBool _
    · obtain ⟨x, -, h⟩ := bind_eq_ok_iff.mp h
      obtain ⟨b, -, h⟩ := bind_eq_ok_iff.mp h
      obtain ⟨y, -, h⟩ := bind_eq_ok_iff.mp h
      exact spelled_arithmetic? (require_eq_ok h)
  | logical _ op lhs rhs =>
    rw [fold] at h
    obtain ⟨a, -, h⟩ := bind_eq_ok_iff.mp h
    obtain ⟨x, -, h⟩ := bind_eq_ok_iff.mp h
    split at h
    · cases h
      exact spelled_ofBool _
    · cases h
      exact spelled_ofBool _
    · obtain ⟨b, -, h⟩ := bind_eq_ok_iff.mp h
      obtain ⟨y, -, h⟩ := bind_eq_ok_iff.mp h
      cases h
      exact spelled_ofBool _
  | ternary _ cond yes no =>
    rw [fold] at h
    obtain ⟨a, -, h⟩ := bind_eq_ok_iff.mp h
    obtain ⟨x, -, h⟩ := bind_eq_ok_iff.mp h
    split at h
    · exact spelled_fold admits symbols yes spelled.2.1 h
    · exact spelled_fold admits symbols no spelled.2.2 h
  | _ => cases h

end Constant

def SymbolKind.Spelled (P : String → Prop) : SymbolKind → Prop
  | constant value => value.Spelled P
  | _ => True

theorem SymbolKind.spelled_binding {kind : SymbolKind} (h : kind.Spelled P) :
    kind.binding.Spelled P := by
  cases kind with
  | constant value => exact h
  | _ => trivial

def Scope.Spelled (P : String → Prop) (scope : Scope) : Prop :=
  ∀ name symbol, scope.symbol? name = some symbol → symbol.kind.Spelled P

theorem Scope.spelled_opened (id : Nat) (parent : Option Nat) (kind : ScopeKind) :
    Scope.Spelled P ⟨id, parent, kind, ∅⟩ := by
  intro name symbol found
  simp [symbol?] at found

theorem Scope.Spelled.put {scope : Scope} (h : scope.Spelled P) {kind : SymbolKind}
    (spelled : kind.Spelled P) (name : String) (line : Nat) :
    (scope.put name kind line).Spelled P := by
  intro x symbol found
  rw [symbol?_put] at found
  split at found
  · cases found
    exact spelled
  · exact h x symbol found

def Scopes.Spelled (P : String → Prop) (s : Scopes) : Prop := ∀ scope ∈ s.chain, scope.Spelled P

namespace Scopes

variable {s s' : Scopes}

theorem spelled_initial : initial.Spelled P :=
  List.forall_mem_singleton.mpr (Scope.spelled_opened 0 none .program)

theorem Spelled.lookup? (h : s.Spelled P) {name : String} {symbol : Symbol}
    (found : s.lookup? name = some symbol) : symbol.kind.Spelled P := by
  obtain ⟨scope, isOpen, there⟩ := List.exists_of_findSome?_eq_some found
  exact h scope isOpen name symbol there

theorem Spelled.enter (h : s.Spelled P) (kind : ScopeKind) : (s.enter kind).Spelled P :=
  List.forall_mem_cons.mpr ⟨Scope.spelled_opened s.nextId (some s.current.id) kind, h⟩

theorem Spelled.leave (h : s.Spelled P) : s.leave.Spelled P := by
  unfold Scopes.leave
  split
  · exact h
  next outer =>
    rw [Scopes.Spelled, chain, outer] at h
    exact (List.forall_mem_cons.mp h).2

theorem Spelled.put (h : s.Spelled P) {kind : SymbolKind} (spelled : kind.Spelled P) (name : String)
    (line : Nat) : (s.put name kind line).Spelled P := by
  obtain ⟨current, around⟩ := List.forall_mem_cons.mp h
  exact List.forall_mem_cons.mpr ⟨current.put spelled name line, around⟩

theorem Spelled.declareObjectVar (h : s.Spelled P) (name : String) (line : Nat) :
    (s.declareObjectVar name line).Spelled P := by
  obtain ⟨inner, program⟩ := s.parts_declareObjectVar name line
  rw [Scopes.Spelled, chain_eq, List.forall_mem_append] at h ⊢
  obtain ⟨inside, outside⟩ := h
  have plain : SymbolKind.objectVar.Spelled P := trivial
  rw [inner, program]
  exact ⟨inside,
    List.forall_mem_singleton.mpr ((List.forall_mem_singleton.mp outside).put plain name line)⟩

theorem Spelled.declare (h : s.Spelled P) {kind : SymbolKind} (spelled : kind.Spelled P)
    {name : String} {line : Nat} (declared : s.declare name kind line = .ok s') : s'.Spelled P := by
  unfold Scopes.declare at declared
  split at declared
  · cases declared
    exact h.put spelled name line
  · split at declared
    · cases declared
      exact h.put spelled name line
    · cases declared

end Scopes

namespace Resolve

variable {α β : Type} {g g' : Resolve α} {f : α → Resolve β} {Q R : α → Prop} {S : β → Prop}

/-- Over spelled scopes, what `g` returns satisfies `Q`, and spelled scopes are left. -/
def Keeps (P : String → Prop) (g : Resolve α) (Q : α → Prop) : Prop :=
  ∀ s a s', s.Spelled P → g.run s = .ok (a, s') → Q a ∧ s'.Spelled P

theorem keeps_pure {a : α} (h : Q a) : Keeps P (pure a) Q := by
  rintro s _ _ spelled ⟨⟩
  exact ⟨h, spelled⟩

theorem keeps_throw (e : ResolveError) : Keeps P (throw e) Q := by
  rintro s a s' _ ⟨⟩

theorem Keeps.bind (first : Keeps P g Q) (second : ∀ a, Q a → Keeps P (f a) S) :
    Keeps P (g >>= f) S := by
  intro s b s' spelled run
  rw [StateT.run_bind] at run
  obtain ⟨⟨a, s₁⟩, mid, rest⟩ := bind_eq_ok_iff.mp run
  obtain ⟨ha, spelled₁⟩ := first s a s₁ spelled mid
  exact second a ha s₁ b s' spelled₁ rest

theorem keeps_ite {c : Prop} [Decidable c] (yes : Keeps P g Q) (no : Keeps P g' Q) :
    Keeps P (if c then g else g') Q := by
  split
  · exact yes
  · exact no

theorem keeps_get {f : Scopes → Resolve α} (h : ∀ s, s.Spelled P → Keeps P (f s) Q) :
    Keeps P (do f (← get)) Q :=
  fun s a s' spelled run => h s spelled s a s' spelled run

theorem keeps_modify {change : Scopes → Scopes} (h : ∀ s, s.Spelled P → (change s).Spelled P) :
    Keeps P (modify change) fun _ => True := by
  rintro s _ _ spelled ⟨⟩
  exact ⟨trivial, h s spelled⟩

theorem keeps_inScope (kind : ScopeKind) (h : Keeps P g Q) : Keeps P (inScope kind g) Q := by
  refine (keeps_modify fun s spelled => spelled.enter kind).bind fun _ _ => h.bind fun a ha => ?_
  exact (keeps_modify fun s spelled => spelled.leave).bind fun _ _ => keeps_pure ha

theorem keeps_lift (x : Except ResolveError α) : Keeps P (liftM x) fun a => x = .ok a := by
  intro s a s' spelled run
  cases x with
  | error e => cases run
  | ok b =>
    cases run
    exact ⟨rfl, spelled⟩

theorem keeps_set {s : Scopes} (h : s.Spelled P) : Keeps P (set s) fun _ => True := by
  rintro _ _ _ _ ⟨⟩
  exact ⟨trivial, h⟩

theorem keeps_declare (name : String) (kind : SymbolKind) (h : kind.Spelled P) (line : Nat) :
    Keeps P (declare name kind line) fun _ => True :=
  keeps_get fun _ spelled => (keeps_lift _).bind fun _ declared =>
    keeps_set (spelled.declare h declared)

theorem keeps_mapM {h : α → Resolve β} {S : β → Prop} (xs : List α)
    (each : ∀ x ∈ xs, Keeps P (h x) S) : Keeps P (xs.mapM h) fun ys => ∀ y ∈ ys, S y := by
  induction xs with
  | nil => exact keeps_pure (List.forall_mem_nil _)
  | cons x xs ih =>
    rw [List.forall_mem_cons] at each
    rw [List.mapM_cons]
    refine each.1.bind fun y hy => (ih each.2).bind fun ys hys => ?_
    exact keeps_pure (List.forall_mem_cons.mpr ⟨hy, hys⟩)

theorem keeps_forM {h : α → Resolve Unit} (xs : List α)
    (each : ∀ x ∈ xs, Keeps P (h x) fun _ => True) : Keeps P (xs.forM h) fun _ => True := by
  induction xs with
  | nil => exact keeps_pure trivial
  | cons x xs ih =>
    rw [List.forall_mem_cons] at each
    exact each.1.bind fun _ _ => ih each.2

section environment

variable (env : Environment)

theorem keeps_bindName (use : Use) (name : String) (line : Nat) :
    Keeps P (bindName env use name line) (Binding.Spelled P) := by
  refine keeps_get fun s spelled => ?_
  split
  · rename_i symbol found
    split
    · exact keeps_throw _
    · exact keeps_pure (SymbolKind.spelled_binding (spelled.lookup? found))
  · refine keeps_ite (keeps_pure trivial) ?_
    refine (keeps_modify fun s spelled => spelled.declareObjectVar _ _).bind fun _ _ => ?_
    exact keeps_pure trivial
  · rename_i symbol _ found
    exact keeps_pure (SymbolKind.spelled_binding (spelled.lookup? found))
  · exact keeps_ite (keeps_pure trivial) (keeps_throw _)
  · exact keeps_ite (keeps_pure trivial) (keeps_throw _)

mutual

theorem keeps_expr (use : Use) (e : Expr) (h : e.Spelled P) :
    Keeps P (expr env use e) (Expr.Spelled P) := by
  cases e with
  | literal line value => exact keeps_pure h
  | name line name binding =>
    exact (keeps_bindName env use name line).bind fun b hb => keeps_pure ⟨h.1, hb⟩
  | member line object member =>
    exact (keeps_expr .read object h.1).bind fun o ho => keeps_pure ⟨ho, h.2⟩
  | index line object index =>
    refine (keeps_expr .read object h.1).bind fun o ho =>
      (keeps_expr .read index h.2).bind fun i hi => ?_
    exact keeps_pure ⟨ho, hi⟩
  | call line callee args =>
    refine (keeps_expr .call callee h.1).bind fun c hc => ?_
    exact (keeps_exprs [] args trivial h.2).bind fun es hes => keeps_pure ⟨hc, hes⟩
  | array line items => exact (keeps_exprs [] items trivial h).bind fun es hes => keeps_pure hes
  | unary line op operand => exact (keeps_expr .read operand h).bind fun o ho => keeps_pure ho
  | step line op before target => exact (keeps_expr .assign target h).bind fun t ht => keeps_pure ht
  | binary line op lhs rhs =>
    refine (keeps_expr .read lhs h.1).bind fun l hl =>
      (keeps_expr .read rhs h.2).bind fun r hr => ?_
    exact keeps_pure ⟨hl, hr⟩
  | logical line op lhs rhs =>
    refine (keeps_expr .read lhs h.1).bind fun l hl =>
      (keeps_expr .read rhs h.2).bind fun r hr => ?_
    exact keeps_pure ⟨hl, hr⟩
  | assign line op target value =>
    refine (keeps_expr .read value h.2).bind fun v hv => ?_
    exact (keeps_expr .assign target h.1).bind fun t ht => keeps_pure ⟨ht, hv⟩
  | ternary line cond yes no =>
    refine (keeps_expr .read cond h.1).bind fun c hc =>
      (keeps_expr .read yes h.2.1).bind fun y hy => ?_
    exact (keeps_expr .read no h.2.2).bind fun n hn => keeps_pure ⟨hc, hy, hn⟩
  | cast line kind operand => exact (keeps_expr .read operand h).bind fun o ho => keeps_pure ho
  | inRange line value lower upper =>
    refine (keeps_expr .read value h.1).bind fun v hv =>
      (keeps_expr .read lower h.2.1).bind fun l hl => ?_
    exact (keeps_expr .read upper h.2.2).bind fun u hu => keeps_pure ⟨hv, hl, hu⟩
  | inObject line value object =>
    refine (keeps_expr .read value h.1).bind fun v hv =>
      (keeps_expr .read object h.2).bind fun o ho => ?_
    exact keeps_pure ⟨hv, ho⟩
  | new line cls args =>
    exact (keeps_exprs [] args trivial h.2).bind fun es hes => keeps_pure ⟨h.1, hes⟩
  | newArray line dims => exact keeps_pure trivial

theorem keeps_exprs (done es : List Expr) (before : Expr.AllSpelled P done)
    (h : Expr.AllSpelled P es) : Keeps P (exprs env done es) (Expr.AllSpelled P) := by
  cases es with
  | nil =>
    rw [Expr.allSpelled_iff] at before
    exact keeps_pure
      ((Expr.allSpelled_iff P).mpr fun e inside => before e (List.mem_reverse.mp inside))
  | cons e es =>
    refine (keeps_expr .read e h.1).bind fun e' he => ?_
    exact keeps_exprs (e' :: done) es ⟨he, before⟩ h.2

end

theorem keeps_readExpr? {e : Option Expr} (h : ∀ x ∈ e, x.Spelled P) :
    Keeps P (readExpr? env e) fun e' => ∀ x ∈ e', x.Spelled P := by
  cases e with
  | none => exact keeps_pure nofun
  | some e =>
    refine (keeps_expr env .read e (h e rfl)).bind fun e' he => keeps_pure ?_
    rintro _ ⟨⟩
    exact he

theorem keeps_varDecl {decl : VarDecl} (h : decl.Spelled P) :
    Keeps P (varDecl env decl) (VarDecl.Spelled P) := by
  have each (d : VarDef) (hd : d.Spelled P) : Keeps P (varDef env d) (VarDef.Spelled P) := by
    refine (keeps_readExpr? env hd.2).bind fun v hv => ?_
    exact (keeps_declare _ .localVar trivial _).bind fun _ _ => keeps_pure ⟨hd.1, hv⟩
  exact (keeps_mapM decl.defs fun d hd => each d (h d hd)).bind fun defs spelled =>
    keeps_pure spelled

theorem keeps_forInit {init : Option ForInit} (h : ∀ i ∈ init, i.Spelled P) :
    Keeps P (forInit env init) fun init' => ∀ i ∈ init', i.Spelled P := by
  rcases init with _ | ⟨decl⟩ | ⟨e⟩
  · exact keeps_pure nofun
  · refine (keeps_varDecl env (h _ rfl)).bind fun decl' hd => keeps_pure ?_
    rintro _ ⟨⟩
    exact hd
  · refine (keeps_expr env .read e (h _ rfl)).bind fun e' he => keeps_pure ?_
    rintro _ ⟨⟩
    exact he

theorem keeps_loopItem (declared : Bool) (item : String) (line : Nat) :
    Keeps P (loopItem env declared item line) (Binding.Spelled P) := by
  refine keeps_ite ?_ (keeps_bindName env .assign item line)
  exact (keeps_declare _ .localVar trivial _).bind fun _ _ => keeps_pure trivial

theorem keeps_constDef (admits : Text.Admits P) (line : Nat) (name : Ident) {value : Expr}
    (h : value.Spelled P) : Keeps P (constDef line name value) fun _ => True := by
  refine keeps_get fun s _ => keeps_ite ?_ ?_
  · exact Keeps.bind (keeps_throw (Q := fun _ => False) _) fun _ never => never.elim
  · refine keeps_get fun s spelled => (keeps_lift _).bind fun folded found => ?_
    refine keeps_declare _ (.constant folded) ?_ _
    refine Constant.spelled_fold admits (fun name symbol value known kind => ?_) value h found
    have constant := spelled.lookup? known
    rw [kind] at constant
    exact constant

mutual

theorem keeps_stmt (admits : Text.Admits P) (s : Stmt) (h : s.Spelled P) :
    Keeps P (stmt env s) (Stmt.Spelled P) := by
  cases s with
  | block line body =>
    exact (keeps_inScope .block (keeps_stmts admits [] body trivial h)).bind fun ss hss =>
      keeps_pure hss
  | ifThen line cond yes =>
    refine (keeps_expr env .read cond h.1).bind fun c hc => ?_
    exact (keeps_stmt admits yes h.2).bind fun y hy => keeps_pure ⟨hc, hy⟩
  | ifElse line cond yes no =>
    refine (keeps_expr env .read cond h.1).bind fun c hc => ?_
    refine (keeps_stmt admits yes h.2.1).bind fun y hy => ?_
    exact (keeps_stmt admits no h.2.2).bind fun n hn => keeps_pure ⟨hc, hy, hn⟩
  | whileLoop line cond body =>
    refine (keeps_expr env .read cond h.1).bind fun c hc => ?_
    exact (keeps_stmt admits body h.2).bind fun b hb => keeps_pure ⟨hc, hb⟩
  | forLoop line init cond step body =>
    obtain ⟨hi, hc, hs, hb⟩ := h
    refine keeps_inScope .block ((keeps_forInit env hi).bind fun i hi => ?_)
    refine (keeps_readExpr? env hc).bind fun c hc => (keeps_readExpr? env hs).bind fun st hst => ?_
    exact (keeps_stmt admits body hb).bind fun b hb => keeps_pure ⟨hi, hc, hst, hb⟩
  | forEach line declared item binding iterable body =>
    obtain ⟨plain, -, hi, hb⟩ := h
    refine (keeps_expr env .read iterable hi).bind fun it hit => keeps_inScope .block ?_
    refine (keeps_loopItem env declared item line).bind fun v hv => ?_
    exact (keeps_stmt admits body hb).bind fun b hb => keeps_pure ⟨plain, hv, hit, hb⟩
  | withObject line object body =>
    refine (keeps_expr env .read object h.1).bind fun o ho => ?_
    exact (keeps_stmt admits body h.2).bind fun b hb => keeps_pure ⟨ho, hb⟩
  | switch line value cases =>
    refine (keeps_expr env .read value h.1).bind fun v hv => ?_
    refine (keeps_inScope .block (keeps_caseList admits [] cases trivial h.2)).bind fun cs hcs => ?_
    exact keeps_pure ⟨hv, hcs⟩
  | new line cls name bodyLine body =>
    refine (keeps_expr env .read name h.2.1).bind fun n hn => ?_
    refine (keeps_inScope .block (keeps_stmts admits [] body trivial h.2.2)).bind fun ss hss => ?_
    exact keeps_pure ⟨h.1, hn, hss⟩
  | ret line value => exact (keeps_readExpr? env h).bind fun v hv => keeps_pure hv
  | vars decl => exact (keeps_varDecl env h).bind fun d hd => keeps_pure hd
  | const line name value => exact (keeps_constDef admits line name h).bind fun _ _ => keeps_pure h
  | expr e => exact (keeps_expr env .read e h).bind fun e' he => keeps_pure he
  | breakOut line => exact keeps_pure trivial
  | continueLoop line => exact keeps_pure trivial
  | empty line => exact keeps_pure trivial

theorem keeps_stmts (admits : Text.Admits P) (done ss : List Stmt) (before : Stmt.AllSpelled P done)
    (h : Stmt.AllSpelled P ss) : Keeps P (stmts env done ss) (Stmt.AllSpelled P) := by
  cases ss with
  | nil =>
    rw [Stmt.allSpelled_iff] at before
    exact keeps_pure
      ((Stmt.allSpelled_iff P).mpr fun s inside => before s (List.mem_reverse.mp inside))
  | cons s ss =>
    refine (keeps_stmt admits s h.1).bind fun s' hs => ?_
    exact keeps_stmts admits (s' :: done) ss ⟨hs, before⟩ h.2

theorem keeps_caseList (admits : Text.Admits P) (done cs : List Case)
    (before : Case.AllSpelled P done) (h : Case.AllSpelled P cs) :
    Keeps P (caseList env done cs) (Case.AllSpelled P) := by
  cases cs with
  | nil =>
    rw [Case.allSpelled_iff] at before
    exact keeps_pure
      ((Case.allSpelled_iff P).mpr fun c inside => before c (List.mem_reverse.mp inside))
  | cons c cs =>
    refine (keeps_oneCase admits c h.1).bind fun c' hc => ?_
    exact keeps_caseList admits (c' :: done) cs ⟨hc, before⟩ h.2

theorem keeps_oneCase (admits : Text.Admits P) (c : Case) (h : c.Spelled P) :
    Keeps P (oneCase env c) (Case.Spelled P) := by
  obtain ⟨line, labels, body⟩ := c
  refine (keeps_mapM labels fun label inside => keeps_readExpr? env (h.1 label inside)).bind
    fun ls hls => ?_
  exact (keeps_stmts admits [] body trivial h.2).bind fun ss hss => keeps_pure ⟨hls, hss⟩

end

theorem keeps_item (admits : Text.Admits P) (i : Item) (h : i.Spelled P) :
    Keeps P (item env i) (Item.Spelled P) := by
  cases i with
  | func f =>
    have body : Keeps P (func env f) (Func.Spelled P) := by
      refine keeps_inScope .function ?_
      refine (keeps_forM f.params fun p _ => keeps_declare _ .param trivial _).bind fun _ _ => ?_
      refine (keeps_stmts env admits [] f.body.body trivial h.body).bind fun ss hss => keeps_pure ?_
      exact ⟨h.tableName, h.params, hss⟩
    exact body.bind fun f' hf => keeps_pure hf
  | stmt s => exact (keeps_stmt env admits s h).bind fun s' hs => keeps_pure hs

theorem keeps_declareFuncs (seen : List String) (fs : List Func) :
    Keeps P (declareFuncs seen fs) fun _ => True := by
  induction fs generalizing seen with
  | nil => exact keeps_pure trivial
  | cons f fs ih =>
    refine keeps_ite ?_ (keeps_ite ?_ (ih _))
    · exact Keeps.bind (keeps_throw (Q := fun _ => False) _) fun _ never => never.elim
    · exact (keeps_declare _ .func trivial _).bind fun _ _ => ih _

theorem keeps_program (admits : Text.Admits P) {p : Program} (h : ∀ i ∈ p.items, i.Spelled P) :
    Keeps P (program env p) fun p' => ∀ i ∈ p'.items, i.Spelled P := by
  refine (keeps_declareFuncs [] p.funcs).bind fun _ _ => ?_
  refine (keeps_forM p.objectVars fun v _ => ?_).bind fun _ _ => ?_
  · refine keeps_get fun s _ => keeps_ite ?_ (keeps_pure trivial)
    exact keeps_modify fun s spelled => spelled.declareObjectVar _ _
  · exact (keeps_mapM p.items fun i hi => keeps_item env admits i (h i hi)).bind fun is his =>
      keeps_pure his

end environment

end Resolve

theorem Program.spelled_of_resolve (admits : Text.Admits P) {p bound : Program} {env : Environment}
    {symbols : SymbolTable} (spelled : ∀ i ∈ p.items, i.Spelled P)
    (h : p.resolve env = .ok (bound, symbols)) : ∀ i ∈ bound.items, i.Spelled P := by
  obtain ⟨⟨found, scopes⟩, run, same⟩ := bind_eq_ok_iff.mp h
  cases same
  exact (Resolve.keeps_program env admits spelled _ _ _ Scopes.spelled_initial run).1

end GraalScript
