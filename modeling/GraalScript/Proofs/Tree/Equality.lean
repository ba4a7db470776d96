import GraalScript.Tree.Basic

/-! Trees are compared part by part, so it is decided whether two of them are the same. -/
namespace GraalScript

mutual

def Expr.same : Expr → Expr → Bool
  | .literal l v, .literal l' v' => l = l' ∧ v = v'
  | .name l x b, .name l' x' b' => l = l' ∧ x = x' ∧ b = b'
  | .member l e x, .member l' e' x' => decide (l = l' ∧ x = x') && e.same e'
  | .index l e i, .index l' e' i' => l = l' && e.same e' && i.same i'
  | .call l e args, .call l' e' args' => l = l' && e.same e' && Expr.sameAll args args'
  | .array l items, .array l' items' => l = l' && Expr.sameAll items items'
  | .unary l op e, .unary l' op' e' => decide (l = l' ∧ op = op') && e.same e'
  | .step l op before e, .step l' op' before' e' =>
    decide (l = l' ∧ op = op' ∧ before = before') && e.same e'
  | .binary l op a b, .binary l' op' a' b' => decide (l = l' ∧ op = op') && a.same a' && b.same b'
  | .logical l op a b, .logical l' op' a' b' => decide (l = l' ∧ op = op') && a.same a' && b.same b'
  | .assign l op a b, .assign l' op' a' b' => decide (l = l' ∧ op = op') && a.same a' && b.same b'
  | .ternary l a b c, .ternary l' a' b' c' => l = l' && a.same a' && b.same b' && c.same c'
  | .cast l kind e, .cast l' kind' e' => decide (l = l' ∧ kind = kind') && e.same e'
  | .inRange l a b c, .inRange l' a' b' c' => l = l' && a.same a' && b.same b' && c.same c'
  | .inObject l a b, .inObject l' a' b' => l = l' && a.same a' && b.same b'
  | .new l cls args, .new l' cls' args' => decide (l = l' ∧ cls = cls') && Expr.sameAll args args'
  | .newArray l dims, .newArray l' dims' => l = l' ∧ dims = dims'
  | _, _ => false

def Expr.sameAll : List Expr → List Expr → Bool
  | [], [] => true
  | e :: es, e' :: es' => e.same e' && Expr.sameAll es es'
  | _, _ => false

end

mutual

theorem Expr.same_self (e : Expr) : e.same e = true := by
  cases e <;> simp [Expr.same, Expr.same_self, Expr.sameAll_self]

theorem Expr.sameAll_self (es : List Expr) : Expr.sameAll es es = true := by
  cases es <;> simp [Expr.sameAll, Expr.same_self, Expr.sameAll_self]

end

theorem Expr.eq_of_same : ∀ a b : Expr, a.same b = true → a = b := by
  apply Expr.same.induct_unfolding (fun a b found => found = true → a = b)
    (fun as bs found => found = true → as = bs)
  all_goals
    intros
    simp_all only [Bool.and_eq_true, decide_eq_true_eq, Bool.false_eq_true, forall_const]

instance : DecidableEq Expr := fun a b =>
  decidable_of_iff (a.same b = true) ⟨Expr.eq_of_same a b, fun h => h ▸ a.same_self⟩

deriving instance DecidableEq for VarDef, VarDecl, ForInit

mutual

def Stmt.same : Stmt → Stmt → Bool
  | .block l body, .block l' body' => l = l' && Stmt.sameAll body body'
  | .ifThen l e yes, .ifThen l' e' yes' => decide (l = l' ∧ e = e') && yes.same yes'
  | .ifElse l e yes no, .ifElse l' e' yes' no' =>
    decide (l = l' ∧ e = e') && yes.same yes' && no.same no'
  | .whileLoop l e body, .whileLoop l' e' body' => decide (l = l' ∧ e = e') && body.same body'
  | .forLoop l init cond step body, .forLoop l' init' cond' step' body' =>
    decide (l = l' ∧ init = init' ∧ cond = cond' ∧ step = step') && body.same body'
  | .forEach l declared x b e body, .forEach l' declared' x' b' e' body' =>
    decide (l = l' ∧ declared = declared' ∧ x = x' ∧ b = b' ∧ e = e') && body.same body'
  | .withObject l e body, .withObject l' e' body' => decide (l = l' ∧ e = e') && body.same body'
  | .switch l e cases, .switch l' e' cases' => decide (l = l' ∧ e = e') && Case.sameAll cases cases'
  | .new l cls e k body, .new l' cls' e' k' body' =>
    decide (l = l' ∧ cls = cls' ∧ e = e' ∧ k = k') && Stmt.sameAll body body'
  | .ret l e, .ret l' e' => l = l' ∧ e = e'
  | .breakOut l, .breakOut l' => l = l'
  | .continueLoop l, .continueLoop l' => l = l'
  | .vars decl, .vars decl' => decl = decl'
  | .const l x e, .const l' x' e' => l = l' ∧ x = x' ∧ e = e'
  | .expr e, .expr e' => e = e'
  | .empty l, .empty l' => l = l'
  | _, _ => false

def Stmt.sameAll : List Stmt → List Stmt → Bool
  | [], [] => true
  | s :: ss, s' :: ss' => s.same s' && Stmt.sameAll ss ss'
  | _, _ => false

def Case.sameAll : List Case → List Case → Bool
  | [], [] => true
  | .mk l labels body :: cs, .mk l' labels' body' :: cs' =>
    decide (l = l' ∧ labels = labels') && Stmt.sameAll body body' && Case.sameAll cs cs'
  | _, _ => false

end

mutual

theorem Stmt.same_self (s : Stmt) : s.same s = true := by
  cases s <;> simp [Stmt.same, Stmt.same_self, Stmt.sameAll_self, Case.sameAll_self]

theorem Stmt.sameAll_self (ss : List Stmt) : Stmt.sameAll ss ss = true := by
  cases ss <;> simp [Stmt.sameAll, Stmt.same_self, Stmt.sameAll_self]

theorem Case.sameAll_self (cs : List Case) : Case.sameAll cs cs = true := by
  rcases cs with _ | ⟨⟨l, labels, body⟩, cs⟩ <;>
    simp [Case.sameAll, Stmt.sameAll_self, Case.sameAll_self]

end

theorem Stmt.eq_of_same : ∀ a b : Stmt, a.same b = true → a = b := by
  apply Stmt.same.induct_unfolding (fun a b found => found = true → a = b)
    (fun as bs found => found = true → as = bs) (fun as bs found => found = true → as = bs)
  all_goals
    intros
    simp_all only [Bool.and_eq_true, decide_eq_true_eq, Bool.false_eq_true, forall_const]

instance : DecidableEq Stmt := fun a b =>
  decidable_of_iff (a.same b = true) ⟨Stmt.eq_of_same a b, fun h => h ▸ a.same_self⟩

deriving instance DecidableEq for Block, Func, Item, Program

end GraalScript
