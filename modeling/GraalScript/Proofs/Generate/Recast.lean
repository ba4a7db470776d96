import GraalScript.Generate.Stmt
import GraalScript.Proofs.Tree.Ready
import GraalScript.Proofs.Tree.Recast

/-! Code does not depend on lines, nor on whether a name that the runtime looks up is a variable of
the object or comes from the environment. -/
namespace GraalScript

/-- The code of a bound name stays the same. -/
structure Recast.KeepsCode (r : Recast) : Prop where
  binding : ∀ name b, b.isBound = true → r.binding name b = b ∨
    b = .objectVar ∧ r.binding name b = .builtin ∧ Opcode.ofRoot? name = none ∧
      Command.function? name = none ∧ name ≠ "join"

mutual

theorem Expr.hasCall_recast (r : Recast) (e : Expr) : (e.recast r).hasCall = e.hasCall := by
  cases e with
  | literal | name | call | newArray => rfl
  | array _ items => exact Expr.anyHasCall_recast r items
  | new _ _ args => exact Expr.anyHasCall_recast r args
  | _ => simp only [Expr.recast, Expr.hasCall, Expr.hasCall_recast r]

theorem Expr.anyHasCall_recast (r : Recast) (es : List Expr) :
    Expr.anyHasCall (Expr.recastAll r es) = Expr.anyHasCall es := by
  cases es with
  | nil => rfl
  | cons e es =>
    simp only [Expr.recastAll, Expr.anyHasCall, Expr.hasCall_recast r e,
      Expr.anyHasCall_recast r es]

end

theorem VarDecl.hasCall_recast (r : Recast) (decl : VarDecl) :
    (decl.recast r).hasCall = decl.hasCall := by
  simp only [VarDecl.recast, VarDecl.hasCall, VarDef.recast, List.any_map, Function.comp_def,
    Option.any_map, Expr.hasCall_recast]

theorem ForInit.hasCall_recast (r : Recast) (init : ForInit) :
    (init.recast r).hasCall = init.hasCall := by
  cases init with
  | vars decl => exact decl.hasCall_recast r
  | expr e => exact e.hasCall_recast r

mutual

theorem Stmt.hasCall_recast (r : Recast) (s : Stmt) : (s.recast r).hasCall = s.hasCall := by
  cases s with
  | block _ body => exact Stmt.anyHasCall_recast r body
  | switch _ value cases =>
    simp only [Stmt.recast, Stmt.hasCall, Expr.hasCall_recast, Case.anyHasCall_recast r cases]
  | vars decl => exact decl.hasCall_recast r
  | const _ _ value => exact value.hasCall_recast _
  | expr e => exact e.hasCall_recast r
  | breakOut | continueLoop | empty | new => rfl
  | _ =>
    simp only [Stmt.recast, Stmt.hasCall, Option.any_map, Expr.hasCall_recast,
      ForInit.hasCall_recast, Stmt.hasCall_recast r]

theorem Stmt.anyHasCall_recast (r : Recast) (ss : List Stmt) :
    Stmt.anyHasCall (Stmt.recastAll r ss) = Stmt.anyHasCall ss := by
  cases ss with
  | nil => rfl
  | cons s ss =>
    simp only [Stmt.recastAll, Stmt.anyHasCall, Stmt.hasCall_recast r s,
      Stmt.anyHasCall_recast r ss]

theorem Case.hasCall_recast (r : Recast) (c : Case) : (c.recast r).hasCall = c.hasCall := by
  cases c with
  | mk _ labels body =>
    simp only [Case.recast, Case.hasCall, List.any_map, Function.comp_def, Option.any_map,
      Expr.hasCall_recast, Stmt.anyHasCall_recast r body]

theorem Case.anyHasCall_recast (r : Recast) (cs : List Case) :
    Case.anyHasCall (Case.recastAll r cs) = Case.anyHasCall cs := by
  cases cs with
  | nil => rfl
  | cons c cs =>
    simp only [Case.recastAll, Case.anyHasCall, Case.hasCall_recast r c,
      Case.anyHasCall_recast r cs]

end

def Expr.isJoin : Expr → Bool
  | name _ text .builtin => text = "join"
  | _ => false

def Expr.onlyText? : List Expr → Option String
  | [literal _ (.str text)] => some text
  | _ => none

theorem Expr.joinedClass?_eq (e : Expr) (args : List Expr) :
    e.joinedClass? args = if e.isJoin then onlyText? args else none := by
  unfold joinedClass?
  split
  · rfl
  next other =>
    split
    next join =>
      unfold isJoin at join
      split at join
      · cases of_decide_eq_true join
        unfold onlyText?
        split
        · exact (other _ _ _ rfl rfl).elim
        · rfl
      · cases join
    · rfl

theorem Expr.onlyText?_recast (r : Recast) (args : List Expr) :
    onlyText? (Expr.recastAll r args) = onlyText? args := by
  rcases args with _ | ⟨e, rest⟩
  · rfl
  · cases e with
    | literal _ value => cases rest <;> cases value <;> rfl
    | _ => cases rest <;> rfl

variable {r : Recast}

theorem Expr.valueType_recast (keeps : r.KeepsCode) {e : Expr} (h : e.isBound = true) :
    (e.recast r).valueType = e.valueType := by
  cases e with
  | name _ name b =>
    change ValueType.ofBinding (r.binding name b) = ValueType.ofBinding b
    rcases keeps.binding name b h with same | ⟨rfl, other, _⟩
    · rw [same]
    · rw [other]
      rfl
  | unary _ op _ => cases op <;> rfl
  | _ => rfl

theorem Expr.command_recast (keeps : r.KeepsCode) {e : Expr} (h : e.isBound = true) :
    (e.recast r).command = e.command := by
  cases e with
  | name line name b =>
    change (Expr.name (r.line line) name (r.binding name b)).command =
      (Expr.name line name b).command
    rcases keeps.binding name b h with same | ⟨rfl, other, _, unknown, _⟩
    · rw [same]
      cases b <;> rfl
    · rw [other]
      simp [Expr.command, unknown]
  | _ => rfl

theorem Expr.isJoin_recast (keeps : r.KeepsCode) {e : Expr} (h : e.isBound = true) :
    (e.recast r).isJoin = e.isJoin := by
  cases e with
  | name line name b =>
    change (Expr.name (r.line line) name (r.binding name b)).isJoin = (Expr.name line name b).isJoin
    rcases keeps.binding name b h with same | ⟨rfl, other, _, _, different⟩
    · rw [same]
      cases b <;> rfl
    · rw [other]
      simp [Expr.isJoin, different]
  | _ => rfl

namespace Gen

theorem bound_recast (keeps : r.KeepsCode) (line line' : Nat) (name : String) {b : Binding}
    (h : b.isBound = true) : bound line' name (r.binding name b) = bound line name b := by
  rcases keeps.binding name b h with same | ⟨rfl, other, root, _, _⟩
  · rw [same]
    cases b with
    | unresolved => cases h
    | _ => rfl
  · rw [other, bound, root]
    rfl

mutual

theorem expr_recast (keeps : r.KeepsCode) (e : Expr) (h : e.isBound = true) :
    expr (e.recast r) = expr e := by
  cases e with
  | literal | newArray => rfl
  | name line name b => exact bound_recast keeps line _ name h
  | member _ object member =>
    simp only [Expr.recast, expr, expr_recast keeps object h, Ident.relined]
  | index _ object index =>
    rw [Expr.isBound, Bool.and_eq_true] at h
    simp only [Expr.recast, expr, expr_recast keeps object h.1, expr_recast keeps index h.2,
      Expr.valueType_recast keeps h.2]
  | call _ callee args =>
    rw [Expr.isBound, Bool.and_eq_true] at h
    have name : (callee.recast r).memberName? = callee.memberName? := by cases callee <;> rfl
    simp only [Expr.recast, expr, Expr.joinedClass?_eq, Expr.isJoin_recast keeps h.1,
      Expr.onlyText?_recast, Expr.command_recast keeps h.1, object?_recast keeps callee h.1, name,
      expr_recast keeps callee h.1, codesOnto_recast keeps [] args h.2]
  | array _ items => simp only [Expr.recast, expr, codesOnto_recast keeps [] items h]
  | unary _ op operand => simp only [Expr.recast, expr, expr_recast keeps operand h]
  | step _ op before target => simp only [Expr.recast, expr, expr_recast keeps target h]
  | binary _ op lhs rhs =>
    rw [Expr.isBound, Bool.and_eq_true] at h
    simp only [Expr.recast, expr, expr_recast keeps lhs h.1, expr_recast keeps rhs h.2,
      Expr.valueType_recast keeps h.1, Expr.valueType_recast keeps h.2]
  | logical _ op lhs rhs =>
    rw [Expr.isBound, Bool.and_eq_true] at h
    simp only [Expr.recast, expr, expr_recast keeps lhs h.1, expr_recast keeps rhs h.2,
      Expr.valueType_recast keeps h.1, Expr.valueType_recast keeps h.2]
  | assign _ op target value =>
    rw [Expr.isBound, Bool.and_eq_true] at h
    simp only [Expr.recast, expr, element?_recast keeps target h.1, expr_recast keeps target h.1,
      expr_recast keeps value h.2, Expr.valueType_recast keeps h.1, Expr.valueType_recast keeps h.2]
  | ternary _ cond yes no =>
    rw [Expr.isBound, Bool.and_eq_true, Bool.and_eq_true] at h
    simp only [Expr.recast, expr, expr_recast keeps cond h.1.1, expr_recast keeps yes h.1.2,
      expr_recast keeps no h.2, Expr.valueType_recast keeps h.1.1]
  | cast _ kind operand => simp only [Expr.recast, expr, expr_recast keeps operand h]
  | inRange _ value lower upper =>
    rw [Expr.isBound, Bool.and_eq_true, Bool.and_eq_true] at h
    simp only [Expr.recast, expr, expr_recast keeps value h.1.1, expr_recast keeps lower h.1.2,
      expr_recast keeps upper h.2, Expr.valueType_recast keeps h.1.2,
        Expr.valueType_recast keeps h.2]
  | inObject _ value object =>
    rw [Expr.isBound, Bool.and_eq_true] at h
    simp only [Expr.recast, expr, expr_recast keeps value h.1, expr_recast keeps object h.2]
  | new _ cls args => simp only [Expr.recast, expr, codesOnto_recast keeps [] args h, Ident.relined]

theorem codesOnto_recast (keeps : r.KeepsCode) (done : List (Gen Unit)) (es : List Expr)
    (h : Expr.allBound es = true) : codesOnto done (Expr.recastAll r es) = codesOnto done es := by
  cases es with
  | nil => rfl
  | cons e es =>
    rw [Expr.allBound, Bool.and_eq_true] at h
    simp only [Expr.recastAll, codesOnto, expr_recast keeps e h.1, codesOnto_recast keeps _ es h.2]

theorem object?_recast (keeps : r.KeepsCode) (e : Expr) (h : e.isBound = true) :
    object? (e.recast r) = object? e := by
  cases e with
  | member _ object _ => simp only [Expr.recast, object?, expr_recast keeps object h]
  | _ => simp only [Expr.recast, object?]

theorem element?_recast (keeps : r.KeepsCode) (e : Expr) (h : e.isBound = true) :
    element? (e.recast r) = element? e := by
  cases e with
  | index _ object index =>
    rw [Expr.isBound, Bool.and_eq_true] at h
    simp only [Expr.recast, element?, expr_recast keeps object h.1, expr_recast keeps index h.2,
      Expr.valueType_recast keeps h.2]
  | _ => simp only [Expr.recast, element?]

end

theorem condition_recast (keeps : r.KeepsCode) (e : Expr) (h : e.isBound = true) :
    condition (e.recast r) = condition e := by
  rw [condition, expr_recast keeps e h, Expr.valueType_recast keeps h, condition]

theorem effect_recast (keeps : r.KeepsCode) (e : Expr) (h : e.isBound = true) :
    effect (e.recast r) = effect e := by
  have same := expr_recast keeps e h
  cases e with
  | assign _ op target value =>
    rw [Expr.isBound, Bool.and_eq_true] at h
    simp only [Expr.recast, effect, element?_recast keeps target h.1, expr_recast keeps target h.1,
      expr_recast keeps value h.2, Expr.valueType_recast keeps h.1, Expr.valueType_recast keeps h.2]
  | step _ op _ target => simp only [Expr.recast, effect, expr_recast keeps target h]
  | call line callee args =>
    rw [Expr.isBound, Bool.and_eq_true] at h
    rw [Expr.recast] at same ⊢
    rw [effect, effect, same, Expr.command_recast keeps h.1]
  | _ => exact congrArg (fun code : Gen Unit => do code; emit .indexDec) same

theorem forM_recast {α : Type} {f : α → α} {code : α → Gen Unit} (xs : List α)
    (same : ∀ x ∈ xs, code (f x) = code x) : (xs.map f).forM code = xs.forM code := by
  induction xs with
  | nil => rfl
  | cons x xs ih =>
    rw [List.forall_mem_cons] at same
    change (code (f x) >>= fun _ => (xs.map f).forM code) = code x >>= fun _ => xs.forM code
    rw [same.1, ih same.2]

theorem foldlM_recast {α β : Type} {f : α → α} {code : β → α → Gen β} (xs : List α)
    (same : ∀ x ∈ xs, ∀ b, code b (f x) = code b x) (b : β) :
    (xs.map f).foldlM code b = xs.foldlM code b := by
  induction xs generalizing b with
  | nil => rfl
  | cons x xs ih =>
    rw [List.forall_mem_cons] at same
    rw [List.map_cons, List.foldlM_cons, List.foldlM_cons, same.1 b]
    exact congrArg _ (funext fun b => ih same.2 b)

theorem elim_recast {α : Type} {f : α → α} {code : α → Gen Unit} {bound : α → Bool}
    {none : Gen Unit} (same : ∀ a, bound a = true → code (f a) = code a) (x : Option α)
    (h : x.all bound = true) : (x.map f).elim none code = x.elim none code := by
  cases x with
  | none => rfl
  | some a => exact same a h

theorem varDecl_recast (keeps : r.KeepsCode) (decl : VarDecl) (h : decl.isBound = true) :
    varDecl (decl.recast r) = varDecl decl := by
  refine forM_recast decl.defs fun d hd => ?_
  have bound := List.all_eq_true.mp h d hd
  simp only [VarDef.recast, varDef, Ident.relined, elim_recast (expr_recast keeps) d.value bound]

theorem forInit_recast (keeps : r.KeepsCode) (init : ForInit) (h : init.isBound = true) :
    forInit (init.recast r) = forInit init := by
  cases init with
  | vars decl => exact varDecl_recast keeps decl h
  | expr e => exact effect_recast keeps e h

theorem labelTest_recast (keeps : r.KeepsCode) (start : Nat) (found : Option Nat)
    (label : Option Expr) (h : label.all Expr.isBound = true) :
    labelTest start found (label.map (Expr.recast r)) = labelTest start found label := by
  cases label with
  | none => rfl
  | some e => simp only [Option.map_some, labelTest, expr_recast keeps e h]

theorem switchTests_recast (keeps : r.KeepsCode) (starts : List Nat) (cs : List Case)
    (h : Case.allBound cs = true) :
    switchTests (starts.zip ((Case.recastAll r cs).map Case.labels)) =
      switchTests (starts.zip (cs.map Case.labels)) := by
  have labels : (Case.recastAll r cs).map Case.labels =
      (cs.map Case.labels).map (List.map (Option.map (Expr.recast r))) := by
    rw [Case.recastAll_eq, List.map_map, List.map_map]
    refine List.map_congr_left fun c _ => ?_
    cases c
    rfl
  rw [labels, List.zip_map_right, switchTests, switchTests, foldlM_recast]
  rintro ⟨start, ls⟩ ht found
  have bound := List.all_eq_true.mp (Case.allBound_labels h (List.of_mem_zip ht).2)
  exact foldlM_recast ls
    (fun label hl found => labelTest_recast keeps start found label (bound label hl)) found

variable {α β : Type} {g g' : Gen α} {k k' : α → Gen β}

/-- Both fail, or both do the same. -/
def Same (g g' : Gen α) : Prop := ∀ d, (g.run d).toOption = (g'.run d).toOption

theorem Same.of_eq (h : g = g') : Same g g' := fun _ => by rw [h]

theorem Same.refl (g : Gen α) : Same g g := .of_eq rfl

theorem toOption_bind {ε α β : Type} {x x' : Except ε α} {f f' : α → Except ε β}
    (first : x.toOption = x'.toOption) (rest : ∀ a, (f a).toOption = (f' a).toOption) :
    (x >>= f).toOption = (x' >>= f').toOption := by
  cases x with
  | error e =>
    cases x' with
    | error e' => rfl
    | ok a => cases first
  | ok a =>
    cases x' with
    | error e' => cases first
    | ok a' =>
      cases first
      exact rest a

theorem Same.bind (first : Same g g') (rest : ∀ a, Same (k a) (k' a)) :
    Same (g >>= k) (g' >>= k') := by
  intro d
  rw [StateT.run_bind, StateT.run_bind]
  exact toOption_bind (first d) fun r => rest r.1 r.2

theorem Same.after (g : Gen α) (rest : ∀ a, Same (k a) (k' a)) : Same (g >>= k) (g >>= k') :=
  (Same.refl g).bind rest

theorem Same.before (first : Same g g') (k : α → Gen β) : Same (g >>= k) (g' >>= k) :=
  first.bind fun a => .refl (k a)

theorem same_breakOut (line line' : Nat) : Same (breakOut line) (breakOut line') := by
  refine .after _ fun label => .after _ fun d => ?_
  split <;> exact fun _ => rfl

theorem same_continueLoop (line line' : Nat) : Same (continueLoop line) (continueLoop line') := by
  refine .after _ fun d => .after _ fun d' => ?_
  split <;> exact fun _ => rfl

theorem same_choose {cond yes yes' no no' : Gen Unit} (first : Same yes yes')
    (second : Same no no') : Same (choose cond yes no) (choose cond yes' no') := by
  refine .after _ fun _ => .after _ fun otherwise => first.bind fun _ => ?_
  exact .after _ fun done => .after _ fun _ => second.before _

theorem same_onObject {body body' : Gen Unit} (same : Same body body') :
    Same (onObject body) (onObject body') :=
  .after _ fun _ => .after _ fun _ => same.before _

theorem same_newControl {body body' : Gen Unit} (name : Gen Unit) (cls : String)
    (same : Same body body') : Same (newControl name cls body) (newControl name cls body') :=
  .after _ fun _ => .after _ fun _ => .after _ fun _ => .after _ fun _ => .after _ fun _ =>
    .after _ fun _ =>
    .after _ fun _ => .after _ fun _ => .after _ fun _ => (same_onObject same).before _

mutual

theorem same_stmt (keeps : r.KeepsCode) (s : Stmt) (h : s.isBound = true) :
    Same (stmt (s.recast r)) (stmt s) := by
  cases s with
  | block _ body => exact same_stmts keeps body h
  | ifThen _ cond yes =>
    rw [Stmt.isBound, Bool.and_eq_true] at h
    rw [Stmt.recast, stmt, stmt, condition_recast keeps cond h.1]
    refine .after _ fun _ => .after _ fun otherwise => ?_
    exact (same_stmt keeps yes h.2).before _
  | ifElse _ cond yes no =>
    rw [Stmt.isBound, Bool.and_eq_true, Bool.and_eq_true] at h
    rw [Stmt.recast, stmt, stmt, condition_recast keeps cond h.1.1]
    exact same_choose (same_stmt keeps yes h.1.2) (same_stmt keeps no h.2)
  | whileLoop _ cond body =>
    rw [Stmt.isBound, Bool.and_eq_true] at h
    rw [Stmt.recast, stmt, stmt, condition_recast keeps cond h.1]
    refine .after _ fun start => .after _ fun _ => .after _ fun exit => ?_
    refine .after _ fun _ => .after _ fun _ => ?_
    exact (same_stmt keeps body h.2).before _
  | forLoop _ init cond step body =>
    rw [Stmt.isBound, Bool.and_eq_true, Bool.and_eq_true, Bool.and_eq_true] at h
    rw [Stmt.recast, stmt, stmt, elim_recast (forInit_recast keeps) init h.1.1.1,
      elim_recast (condition_recast keeps) cond h.1.1.2,
        elim_recast (effect_recast keeps) step h.1.2]
    refine .after _ fun _ => .after _ fun start => .after _ fun _ => ?_
    refine .after _ fun exit => .after _ fun _ => .after _ fun _ => ?_
    exact (same_stmt keeps body h.2).before _
  | forEach line declared item b iterable body =>
    rw [Stmt.isBound, Bool.and_eq_true, Bool.and_eq_true] at h
    rw [Stmt.recast, stmt, stmt, bound_recast keeps line _ item h.1.1,
      expr_recast keeps iterable h.1.2]
    refine .after _ fun _ => .after _ fun _ => .after _ fun _ => ?_
    refine .after _ fun _ => .after _ fun start => .after _ fun exit => ?_
    refine .after _ fun _ => .after _ fun _ => ?_
    exact (same_stmt keeps body h.2).before _
  | withObject _ object body =>
    rw [Stmt.isBound, Bool.and_eq_true] at h
    rw [Stmt.recast, stmt, stmt, expr_recast keeps object h.1]
    exact .after _ fun _ => same_onObject (same_stmt keeps body h.2)
  | switch _ value cases =>
    rw [Stmt.isBound, Bool.and_eq_true] at h
    rw [Stmt.recast, stmt, stmt, expr_recast keeps value h.1]
    refine .after _ fun tests => .after _ fun _ => ?_
    refine (same_caseBodies keeps [] cases h.2).bind fun starts => ?_
    rw [switchTests_recast keeps starts cases h.2]
    exact .refl _
  | new _ cls name _ body =>
    rw [Stmt.isBound, Bool.and_eq_true] at h
    rw [Stmt.recast, stmt, stmt, expr_recast keeps name h.1]
    exact same_newControl _ _ (same_stmts keeps body h.2)
  | ret _ value =>
    rw [Stmt.recast, stmt, stmt, elim_recast (expr_recast keeps) value h]
    exact .refl _
  | breakOut line => exact same_breakOut _ line
  | continueLoop line => exact same_continueLoop _ line
  | vars decl => exact .of_eq (varDecl_recast keeps decl h)
  | expr e => exact .of_eq (effect_recast keeps e h)
  | const | empty => exact .refl _

theorem same_stmts (keeps : r.KeepsCode) (ss : List Stmt) (h : Stmt.allBound ss = true) :
    Same (stmts (Stmt.recastAll r ss)) (stmts ss) := by
  cases ss with
  | nil => exact .refl _
  | cons s ss =>
    rw [Stmt.allBound, Bool.and_eq_true] at h
    exact (same_stmt keeps s h.1).bind fun _ => same_stmts keeps ss h.2

theorem same_caseBodies (keeps : r.KeepsCode) (done : List Nat) (cs : List Case)
    (h : Case.allBound cs = true) :
    Same (caseBodies done (Case.recastAll r cs)) (caseBodies done cs) := by
  cases cs with
  | nil => exact .refl _
  | cons c cs =>
    rw [Case.allBound, Bool.and_eq_true] at h
    refine .after _ fun start => (same_caseBody keeps c h.1).bind fun _ => ?_
    exact same_caseBodies keeps (start :: done) cs h.2

theorem same_caseBody (keeps : r.KeepsCode) (c : Case) (h : c.isBound = true) :
    Same (caseBody (c.recast r)) (caseBody c) := by
  cases c with
  | mk _ labels body =>
    rw [Case.isBound, Bool.and_eq_true] at h
    exact same_stmts keeps body h.2

end

theorem endsWithReturn_recast (r : Recast) (body : List Stmt) :
    endsWithReturn (Stmt.recastAll r body) = endsWithReturn body := by
  rw [Stmt.recastAll_eq, endsWithReturn, endsWithReturn, List.getLast?_map]
  cases body.getLast? with
  | none => rfl
  | some s => cases s <;> rfl

theorem same_item (keeps : r.KeepsCode) (i : Item) (h : i.isBound = true) :
    Same (item (i.recast r)) (item i) := by
  cases i with
  | stmt s => exact same_stmt keeps s h
  | func f =>
    have params : (f.recast r).params.reverse.forM (fun p => reference p.name) =
        f.params.reverse.forM fun p => reference p.name := by
      rw [Func.recast, ← List.map_reverse]
      exact forM_recast _ fun _ _ => rfl
    have calls : (f.recast r).body.hasCall = f.body.hasCall := Stmt.anyHasCall_recast r f.body.body
    have body : Same (funcBody (f.recast r)) (funcBody f) := by
      rw [funcBody, funcBody, params, calls, Func.recast, Block.recast, endsWithReturn_recast]
      refine .after _ fun _ => .after _ fun _ => .after _ fun _ => .after _ fun _ => ?_
      split
      · exact .after _ fun _ => (same_stmts keeps f.body.body h).before _
      · exact (same_stmts keeps f.body.body h).before _
    change Same (func (f.recast r)) (func f)
    rw [func, func, Func.tableName_recast]
    exact .after _ fun _ => .after _ fun _ => body.before _

theorem same_program (keeps : r.KeepsCode) (p : Program) (h : ∀ i ∈ p.items, i.isBound = true) :
    Same (program (p.recast r)) (program p) := by
  obtain ⟨is, clientside⟩ := p
  change Same ((is.map (Item.recast r)).forM item) (is.forM item)
  induction is with
  | nil => exact .refl _
  | cons i is ih =>
    rw [List.forall_mem_cons] at h
    exact (same_item keeps i h.1).bind fun _ => ih h.2

end Gen

/-- Programs that differ only in lines and in who holds a variable have the same images. -/
theorem Program.toOption_generate_recast (keeps : r.KeepsCode) (p : Program)
    (h : ∀ i ∈ p.items, i.isBound = true) (prologue : List UInt8) :
    ((p.recast r).generate prologue).toOption = (p.generate prologue).toOption := by
  have drafts : (p.recast r).draft.toOption = p.draft.toOption :=
    Gen.toOption_bind (Gen.same_program keeps p h .empty) fun _ => rfl
  exact Gen.toOption_bind drafts fun _ => rfl

end GraalScript
