import GraalScript.Proofs.Generate.Fits
import GraalScript.Proofs.Generate.ProgramLayout

/-! The calls, steps and assignments of a program, in the order in which its code makes them. -/
namespace GraalScript

def Expr.isElement : Expr → Bool
  | index .. => true
  | _ => false

/-- A node of an expression that calls or assigns. -/
inductive Node where
  | call (line : Nat) (callee : Expr) (args : List Expr)
  | step (line : Nat) (op : StepOp) (before : Bool) (target : Expr)
  | assign (line : Nat) (op : Option BinaryOp) (target value : Expr)
  /-- A power, which has its operation in common with a command. -/
  | power (line : Nat) (lhs rhs : Expr)

def Node.op : Node → Opcode
  | call _ callee _ => callee.command.op
  | step _ op _ _ => op.opcode
  | assign _ _ target _ => if target.isElement then .arrayAssign else .assign
  | power .. => .pow

/-- What a statement calls or assigns by itself. -/
inductive Upkeep where
  /-- A variable gets its initial value. -/
  | define (d : VarDef)
  /-- A loop goes on to the next element of an object. -/
  | advance (line : Nat)
  /-- The statement `new` keeps its object under a name. -/
  | keep (line : Nat) (cls : Ident)
  /-- The statement `new` adds its object to the one around it. -/
  | attach (line : Nat) (cls : Ident)

def Upkeep.op : Upkeep → Opcode
  | define _ | keep .. => .assign
  | advance _ => .inc
  | attach .. => .call

/-- An operation of the code that calls or assigns, with what it is written for. -/
inductive Effect where
  | node (n : Node)
  | upkeep (u : Upkeep)

def Effect.op : Effect → Opcode
  | node n => n.op
  | upkeep u => u.op

def Opcode.isEffect (o : Opcode) : Bool :=
  o = .inc || o = .dec || o = .assign || o = .arrayAssign || Command.known.any (·.op = o)

def Effect.ofOnly : List (List Effect) → List Effect
  | [only] => only
  | _ => []

mutual

/-- The effects of an expression. An assignment reads its target again if its value is used. -/
def Expr.trace (used : Bool) : Expr → List Effect
  | .literal .. | .name .. | .newArray .. => []
  | .member _ object _ => object.trace true
  | .index _ object i => object.trace true ++ i.trace true
  | .call line callee args =>
    (if callee.command.style.objectFirst then callee.objectTrace else []) ++
      (if callee.command.style.reverseArgs then (Expr.traces args).reverse
        else Expr.traces args).flatten ++
      (if callee.command.style.objectFirst then [] else callee.objectTrace) ++
      (if callee.command.op = .call then
        callee.memberName?.elim (callee.trace true) fun _ => [] else []) ++
      [.node (.call line callee args)]
  | .array _ items => (Expr.traces items).reverse.flatten
  | .unary _ _ operand => operand.trace true
  | .step line op before target => target.trace true ++ [.node (.step line op before target)]
  | .binary line op lhs rhs =>
    lhs.trace true ++ rhs.trace true ++ if op = .pow then [.node (.power line lhs rhs)] else []
  | .logical _ _ lhs rhs => lhs.trace true ++ rhs.trace true
  | .assign line op target value =>
    target.trace true ++ (if op.isSome && target.isElement then target.trace true else []) ++
      value.trace true ++
      (if op = some .pow then [.node (.power line target value)] else []) ++
      [.node (.assign line op target value)] ++
      if used then target.trace true else []
  | .ternary _ cond yes no => cond.trace true ++ yes.trace true ++ no.trace true
  | .cast _ _ operand => operand.trace true
  | .inRange _ value lower upper => value.trace true ++ lower.trace true ++ upper.trace true
  | .inObject _ value object => value.trace true ++ object.trace true
  | .new _ _ args => Effect.ofOnly (Expr.traces args)

def Expr.traces : List Expr → List (List Effect)
  | [] => []
  | e :: es => e.trace true :: Expr.traces es

def Expr.objectTrace : Expr → List Effect
  | .member _ object _ => object.trace true
  | _ => []

end

def Expr.trace? (used : Bool) (e : Option Expr) : List Effect := e.elim [] (·.trace used)

def VarDecl.trace (decl : VarDecl) : List Effect :=
  decl.defs.flatMap fun d => Expr.trace? true d.value ++ [.upkeep (.define d)]

def ForInit.trace : ForInit → List Effect
  | vars decl => decl.trace
  | expr e => e.trace false

mutual

def Stmt.trace : Stmt → List Effect
  | .block _ body => Stmt.traceAll body
  | .ifThen _ cond yes => cond.trace true ++ yes.trace
  | .ifElse _ cond yes no => cond.trace true ++ yes.trace ++ no.trace
  | .whileLoop _ cond body => cond.trace true ++ body.trace
  | .forLoop _ init cond step body =>
    init.elim [] ForInit.trace ++ (Expr.trace? true cond ++ body.trace ++ Expr.trace? false step)
  | .forEach line _ _ _ iterable body =>
    iterable.trace true ++ (body.trace ++ [.upkeep (.advance line)])
  | .withObject _ object body => object.trace true ++ body.trace
  | .switch _ value cases =>
    Case.traceAll cases ++
      (value.trace true ++ cases.flatMap fun c => c.labels.flatMap (Expr.trace? true))
  | .new line cls name _ body =>
    name.trace true ++ [.upkeep (.keep line cls)] ++ Stmt.traceAll body ++
      [.upkeep (.attach line cls)]
  | .ret _ value => Expr.trace? true value
  | .vars decl => decl.trace
  | .expr e => e.trace false
  | .breakOut _ | .continueLoop _ | .const .. | .empty _ => []

def Stmt.traceAll : List Stmt → List Effect
  | [] => []
  | s :: ss => s.trace ++ Stmt.traceAll ss

def Case.traceAll : List Case → List Effect
  | [] => []
  | c :: cs => c.trace ++ Case.traceAll cs

def Case.trace : Case → List Effect
  | .mk _ _ body => Stmt.traceAll body

end

def Item.trace : Item → List Effect
  | func f => Stmt.traceAll f.body.body
  | stmt s => s.trace

def Program.trace (p : Program) : List Effect := p.items.flatMap Item.trace

namespace Slot

def effects (code : List Slot) : List Opcode := (code.map op).filter Opcode.isEffect

@[simp] theorem effects_nil : effects [] = [] := rfl

@[simp] theorem effects_append (x y : List Slot) : effects (x ++ y) = effects x ++ effects y := by
  simp [effects]

theorem effects_cons_of_not {s : Slot} (h : s.op.isEffect = false) (code : List Slot) :
    effects (s :: code) = effects code := by
  simp [effects, h]

@[simp] theorem effects_map_settle (w : Wait) (target : Nat) (code : List Slot) :
    effects (code.map (settle w target)) = effects code := by
  have kept : op ∘ settle w target = op := by
    funext s
    cases s with
    | waits o v => simp only [Function.comp, settle]; split <;> rfl
    | _ => rfl
  rw [effects, List.map_map, kept, effects]

end Slot

namespace Layout

open Slot

variable {a b c : Layout} {es fs gs : List Effect}

/-- The effects of a layout are those of a list. -/
def Traces (a : Layout) (es : List Effect) : Prop := ∀ n last, effects (a n last) = es.map Effect.op

theorem traces_nil : nil.Traces [] := fun _ _ => rfl

theorem traces_quiet {s : Slot} (h : s.op.isEffect = false) : (one s).Traces [] := fun _ _ =>
  effects_cons_of_not h []

theorem traces_effect (e : Effect) {o : Opcode} (same : e.op = o) (h : o.isEffect = true) :
    (op o).Traces [e] := by
  intro n last
  simp [op, one, effects, Slot.op, h, same]

theorem Traces.append (first : a.Traces es) (second : b.Traces fs) :
    (a ++ b).Traces (es ++ fs) := by
  intro n last
  rw [append_apply, effects_append, first, second, List.map_append]

theorem Traces.then (first : a.Traces es) (second : b.Traces []) : (a ++ b).Traces es := by
  have both := first.append second
  rwa [List.append_nil] at both

theorem Traces.op (first : a.Traces es) {o : Opcode} (h : o.isEffect = false) :
    (a ++ Layout.op o).Traces es :=
  first.then (traces_quiet h)

theorem traces_all {as : List Layout} {tss : List (List Effect)} (h : List.Forall₂ Traces as tss) :
    (all as).Traces tss.flatten := by
  induction h with
  | nil => exact traces_nil
  | cons first _ rest => exact first.append rest

theorem traces_all_map {α : Type} {c : α → Layout} {t : α → List Effect} (xs : List α)
    (h : ∀ x ∈ xs, (c x).Traces (t x)) : (all (xs.map c)).Traces (xs.flatMap t) := by
  induction xs with
  | nil => exact traces_nil
  | cons x xs ih =>
    rw [List.forall_mem_cons] at h
    exact h.1.append (ih h.2)

theorem traces_behind {c : Option Opcode → Layout} (h : ∀ last, (c last).Traces es) :
    (behind c).Traces es :=
  fun n last => h last n last

theorem traces_ite {p : Prop} [Decidable p] (yes : a.Traces es) (no : b.Traces fs) :
    (if p then a else b).Traces (if p then es else fs) := by
  split
  · exact yes
  · exact no

theorem traces_either {p : Prop} [Decidable p] (yes : a.Traces es) (no : b.Traces es) :
    (if p then a else b).Traces es := by
  have both := traces_ite (p := p) yes no
  rwa [ite_self] at both

theorem traces_elim {α : Type} (x : Option α) {c : α → Layout} {t : α → List Effect}
    (none : a.Traces es) (some : ∀ y, (c y).Traces (t y)) : (x.elim a c).Traces (x.elim es t) := by
  cases x with
  | none => exact none
  | some y => exact some y

theorem traces_jumpOver {o : Opcode} (h : o.isEffect = false) (body : a.Traces es) :
    (jumpOver o a).Traces es := by
  intro n last
  rw [jumpOver, effects_cons_of_not (s := .jump o _) h, body]

theorem traces_branch {o : Opcode} (h : o.isEffect = false) (first : a.Traces es)
    (second : b.Traces fs) (third : c.Traces gs) : (branch o a b c).Traces (es ++ fs ++ gs) := by
  intro n last
  have jump : Opcode.setIndex.isEffect = false := by decide
  rw [branch, effects_append, effects_cons_of_not (s := .jump o _) h, effects_append,
    effects_cons_of_not (s := .jump .setIndex _) jump, first, second,
    third, List.append_assoc, List.map_append, List.map_append]

theorem traces_convert (want given : ValueType) : (convert want given).Traces [] := by
  unfold convert
  split <;> exact fun _ _ => rfl

theorem traces_toObject : toObject.Traces [] :=
  traces_behind fun _ => traces_either traces_nil (traces_quiet rfl)

theorem traces_literal (value : Literal) : (literal value).Traces [] := by
  unfold literal
  split <;> exact traces_quiet rfl

theorem traces_memberOf (name : String) : (memberOf name).Traces [] :=
  Traces.op (traces_quiet rfl) rfl

theorem traces_localVar (name : String) : (localVar name).Traces [] :=
  Traces.then (traces_quiet rfl) (traces_memberOf name)

theorem traces_bound (name : String) (binding : Binding) : (bound name binding).Traces [] := by
  cases binding with
  | unresolved => exact traces_nil
  | constant value => exact traces_literal value.literal
  | localVar => exact traces_localVar name
  | builtin =>
    rw [bound]
    cases root : Opcode.ofRoot? name with
    | none => exact traces_quiet rfl
    | some o =>
      refine traces_quiet ?_
      unfold Opcode.ofRoot? at root
      split at root <;> cases root <;> rfl
  | objectVar | param | func => exact traces_quiet rfl

theorem traces_element (object : a.Traces es) (index : b.Traces fs) (type : ValueType) :
    (element a b type).Traces (es ++ fs) :=
  (object.append index).then (traces_either traces_nil (traces_quiet rfl))

theorem traces_binary (type : ValueType) (o : BinaryOp) (lhs : a.Traces es) (rhs : b.Traces fs)
    (left right : ValueType) (power : Effect) (same : power.op = .pow) :
    (binary type o a b left right).Traces (es ++ fs ++ if o = .pow then [power] else []) := by
  have operands := ((lhs.then (traces_convert type left)).append rhs).then
    (traces_convert type right)
  refine operands.append ?_
  split
  next pow =>
    rw [pow]
    exact traces_effect power same rfl
  next other =>
    refine traces_quiet ?_
    cases o <;> first | rfl | exact absurd rfl other

theorem traces_test (value : a.Traces es) (type : ValueType) : (test a type).Traces es :=
  value.then (traces_behind fun _ => traces_either traces_nil (traces_convert _ _))

theorem isEffect_stepOp (o : StepOp) : o.opcode.isEffect = true := by
  cases o <;> rfl

theorem traces_step (o : StepOp) (before : Bool) (target : a.Traces es) (e : Effect)
    (same : e.op = o.opcode) : (step o before a).Traces (es ++ [e]) := by
  have made := traces_effect e same (isEffect_stepOp o)
  refine target.append (traces_either made ?_)
  have copied : (op .copyLastOp ++ op .convToFloat ++ op .swapLastOps).Traces [] := fun _ _ => rfl
  exact (copied.append made).op rfl

theorem traces_assign (o : Option BinaryOp) {x : Option Layout} {element : Bool}
    (kind : x.isSome = element) (place : ∀ y ∈ x, y.Traces es) (target : a.Traces es)
    (value : b.Traces fs) (left right : ValueType) (power stored : Effect)
    (raises : power.op = .pow) (stores : stored.op = if element then .arrayAssign else .assign) :
    (assign o x a b left right).Traces (es ++ (if o.isSome && element then es else []) ++ fs ++
      (if o = some .pow then [power] else []) ++ [stored]) := by
  subst kind
  have final : (op (if x.isSome then .arrayAssign else .assign)).Traces [stored] := by
    refine traces_effect stored stores ?_
    split <;> rfl
  have first : (x.getD a).Traces es := by
    cases x with
    | none => exact target
    | some y => exact place y rfl
  refine Traces.append ?_ final
  rw [List.append_assoc, List.append_assoc]
  refine first.append ?_
  cases o with
  | none => simpa using value
  | some o =>
    have current : (if x.isSome then a else op .copyLastOp).Traces (if x.isSome then es else []) :=
      traces_ite target (traces_quiet rfl)
    simpa using traces_binary _ o current value left right power raises

theorem traces_receiver {o : Command} (mem : o ∈ Command.known) {x : Option Layout}
    (object : (x.getD nil).Traces es) : (receiver o x).Traces es := by
  have quiet : ∀ c ∈ Command.known, ∀ v ∈ c.convert, v.isEffect = false := by decide
  refine object.then ?_
  cases conversion : o.convert with
  | none => exact traces_nil
  | some v =>
    exact traces_behind fun _ => traces_either traces_nil (traces_quiet (quiet o mem v conversion))

theorem traces_arguments (o : Command) {as : List Layout} {tss : List (List Effect)}
    (args : List.Forall₂ Traces as tss.reverse) :
    (arguments o as).Traces (if o.style.reverseArgs then tss.reverse else tss).flatten := by
  have forward : (all as.reverse).Traces tss.flatten := by
    have back := List.rel_reverse args
    rw [List.reverse_reverse] at back
    exact traces_all back
  unfold arguments
  split
  · exact traces_all args
  · split
    next alone =>
      have none : tss = [] := by
        have length := args.length_eq
        simp_all
      rw [none]
      exact traces_quiet rfl
    next => exact forward

theorem traces_call {o : Command} (mem : o ∈ Command.known) {x : Option Layout} {as : List Layout}
    {tss : List (List Effect)} (object : (x.getD nil).Traces es) (function : a.Traces fs)
    (args : List.Forall₂ Traces as tss.reverse) (e : Effect) (same : e.op = o.op) :
    (call o x a as).Traces ((if o.style.objectFirst then es else []) ++
      (if o.style.reverseArgs then tss.reverse else tss).flatten ++
      (if o.style.objectFirst then [] else es) ++
      (if o.op = .call then fs else []) ++ [e]) := by
  have known : ∀ c ∈ Command.known, c.op.isEffect = true := by decide
  have received := traces_receiver mem object
  have front := (traces_ite (p := o.style.objectFirst = true) received traces_nil).then
    (traces_either (p := o.style.useArray = true)
      (traces_quiet (s := .plain .typeArray) rfl) traces_nil)
  have middle := (front.append (traces_arguments o args)).append
    (traces_ite (p := o.style.objectFirst = true) traces_nil received)
  exact (middle.append (traces_ite function traces_nil)).append (traces_effect e same (known o mem))

theorem traces_newObject (cls : String) {as : List Layout} {tss : List (List Effect)}
    (args : List.Forall₂ Traces as tss.reverse) :
    (newObject cls as).Traces (Effect.ofOnly tss) := by
  refine Traces.op (Traces.then ?_ (traces_quiet rfl)) rfl
  match tss, as, args with
  | [], [], _ => exact traces_quiet rfl
  | [only], [name], .cons named .nil => exact named.op rfl
  | _ :: _ :: _, as, args =>
    have length := args.length_eq
    match as with
    | [] | [_] => simp at length
    | _ :: _ :: _ => exact traces_quiet rfl

theorem isSome_element? (e : Expr) : (element? e).isSome = e.isElement := by
  cases e <;> rfl

theorem traces_newArray (dims : List UInt32) : (newArray dims).Traces [] := by
  cases dims with
  | nil => exact traces_nil
  | cons dim dims =>
    have lengths := traces_all_map (t := fun _ => []) dims fun dim _ =>
      Traces.op (traces_quiet (s := .number dim) rfl) (o := .arrayNewMultidim) rfl
    rw [List.flatMap_eq_nil_iff.mpr fun _ _ => rfl] at lengths
    exact (Traces.op (traces_quiet rfl) rfl).then lengths

mutual

theorem traces_expr (e : Expr) : (expr e).Traces (e.trace true) := by
  cases e with
  | literal _ value => exact traces_literal value
  | name _ name binding => exact traces_bound name binding
  | member _ object member =>
    exact ((traces_expr object).then traces_toObject).then (traces_memberOf _)
  | index _ object index => exact (traces_element (traces_expr object) (traces_expr index) _).op rfl
  | call line callee args =>
    have function := traces_elim callee.memberName? (traces_expr callee) traces_memberOf
    have codes := traces_codesOnto args .nil
    rw [List.append_nil] at codes
    exact traces_call callee.command_mem_known (traces_object? callee) function codes
      (.node (.call line callee args)) rfl
  | array _ items =>
    have codes := traces_codesOnto items .nil
    rw [List.append_nil] at codes
    exact (Traces.append (traces_quiet rfl) (traces_all codes)).op rfl
  | unary _ o operand =>
    refine ((traces_expr operand).op rfl).op ?_
    cases o <;> rfl
  | step line o before target =>
    exact traces_step o before (traces_expr target) (.node (.step line o before target)) rfl
  | binary line o lhs rhs =>
    exact traces_binary _ o (traces_expr lhs) (traces_expr rhs) _ _
      (.node (.power line lhs rhs)) rfl
  | logical _ o lhs rhs =>
    have operands : (branch o.jump _ _ _).Traces _ := traces_branch (by cases o <;> rfl)
      (traces_test (traces_expr lhs) lhs.valueType) (traces_test (traces_expr rhs) rhs.valueType)
      (traces_quiet (s := .plain o.short) (by cases o <;> rfl))
    rwa [List.append_nil] at operands
  | assign line o target value =>
    have place := traces_expr target
    have stored :=
      traces_assign o (isSome_element? target) (traces_element? target) place (traces_expr value)
      target.valueType value.valueType (.node (.power line target value))
        (.node (.assign line o target value)) rfl rfl
    exact stored.append place
  | ternary _ cond yes no =>
    exact traces_branch rfl (traces_test (traces_expr cond) _) (traces_expr yes) (traces_expr no)
  | cast _ kind operand =>
    refine (traces_expr operand).op ?_
    cases kind <;> rfl
  | inRange _ value lower upper =>
    have least :=
      ((traces_expr value).append (traces_expr lower)).then (traces_convert .number lower.valueType)
    exact ((least.append (traces_expr upper)).then (traces_convert _ _)).op rfl
  | inObject _ value object =>
    exact (((traces_expr value).append (traces_expr object)).then traces_toObject).op rfl
  | new _ cls args =>
    have codes := traces_codesOnto args .nil
    rw [List.append_nil] at codes
    exact traces_newObject cls.name codes
  | newArray _ dims => exact traces_newArray dims

theorem traces_codesOnto {done : List Layout} {tss : List (List Effect)} (es : List Expr)
    (before : List.Forall₂ Traces done tss) :
    List.Forall₂ Traces (codesOnto done es) ((Expr.traces es).reverse ++ tss) := by
  cases es with
  | nil => exact before
  | cons e es =>
    have more := traces_codesOnto es (.cons (traces_expr e) before)
    rwa [Expr.traces, List.reverse_cons, List.append_assoc, List.singleton_append]

theorem traces_object? (e : Expr) : ((object? e).getD nil).Traces e.objectTrace := by
  cases e with
  | member _ object _ => exact traces_expr object
  | _ => exact traces_nil

theorem traces_element? (e : Expr) : ∀ a ∈ element? e, a.Traces (e.trace true) := by
  cases e with
  | index _ object index =>
    rintro _ ⟨⟩
    exact traces_element (traces_expr object) (traces_expr index) _
  | _ => exact fun _ inside => nomatch inside

end

theorem traces_condition (e : Expr) : (condition e).Traces (e.trace true) :=
  traces_test (traces_expr e) _

theorem traces_effectOf (e : Expr) : (effect e).Traces (e.trace false) := by
  have dropped : (expr e ++ op .indexDec).Traces (e.trace true) := (traces_expr e).op rfl
  cases e with
  | assign line o target value =>
    have stored :=
      traces_assign o (isSome_element? target) (traces_element? target) (traces_expr target)
      (traces_expr value) target.valueType value.valueType (.node (.power line target value))
      (.node (.assign line o target value)) rfl rfl
    rwa [Expr.trace, if_neg Bool.false_ne_true, List.append_nil]
  | step line o before target =>
    have made := traces_effect (.node (.step line o before target)) rfl (isEffect_stepOp o)
    exact ((traces_expr target).append made).op rfl
  | call line callee args =>
    exact (traces_expr (.call line callee args)).then (traces_either (traces_quiet rfl) traces_nil)
  | _ => exact dropped

theorem traces_loop (exit : Opcode) (leaves : exit.isEffect = false) (toHead : Bool)
    (head : a.Traces es) (body : b.Traces fs) (tail : c.Traces gs) :
    (loop a exit b c toHead).Traces (es ++ fs ++ gs) := by
  intro n last
  have back : (one (.jump .setIndex n)).Traces [] := traces_quiet rfl
  have round := ((body.append tail).then back) (n + (a n last).length + 2) (some .cmdCall)
  rw [loop, effects_append, effects_cons_of_not (s := .jump exit _) leaves,
    effects_cons_of_not (s := .plain .cmdCall) rfl, effects_map_settle, effects_map_settle,
    head, round, ← List.map_append, List.append_assoc]

theorem traces_switch {starts : Nat → Option Opcode → List Nat} {tests : List Nat → Layout}
    (bodies : a.Traces es) (value : b.Traces fs)
    (tested : ∀ n last, (tests (starts n last)).Traces gs) :
    (switch a starts b tests).Traces (es ++ (fs ++ gs)) := by
  intro n last
  have compared := value.append (tested (n + 1) (some .setIndex))
  rw [switch, effects_cons_of_not (s := .jump .setIndex _) rfl, effects_append, effects_map_settle,
    effects_append, effects_cons_of_not (s := .jump .setIndex _) rfl,
    effects_cons_of_not (s := .plain .indexDec) rfl, bodies, compared, effects_nil, List.append_nil,
    ← List.map_append]

theorem traces_onObject (body : a.Traces es) : (onObject a).Traces es :=
  Traces.append (traces_quiet rfl) (traces_jumpOver rfl (body.op rfl))

theorem traces_varDecl (decl : VarDecl) : (varDecl decl).Traces decl.trace := by
  refine traces_all_map decl.defs fun d _ => ?_
  have given : (d.value.elim (op .typeNull) expr).Traces (Expr.trace? true d.value) :=
    traces_elim d.value (traces_quiet rfl) traces_expr
  exact (Traces.append (traces_localVar _) given).append
    (traces_effect (.upkeep (.define d)) rfl rfl)

theorem traces_forInit (init : ForInit) : (forInit init).Traces init.trace := by
  cases init with
  | vars decl => exact traces_varDecl decl
  | expr e => exact traces_effectOf e

theorem traces_continueLoop (switches : Nat) : (continueLoop switches).Traces [] := by
  have drops (n : Nat) (last : Option Opcode) :
      effects (all (List.replicate switches (op .indexDec)) n last) = [] := by
    rw [all_replicate_op, effects, List.map_replicate]
    exact List.filter_replicate_of_neg (by decide)
  exact Traces.then drops (traces_quiet rfl)

theorem traces_newControl (cls : String) (name : a.Traces es) (body : b.Traces fs)
    (kept added : Effect) (keeps : kept.op = .assign) (adds : added.op = .call) :
    (newControl a cls b).Traces (es ++ [kept] ++ fs ++ [added]) := by
  have made :=
    (((name.op (o := .inlineNew) rfl).op (o := .copyLastOp) rfl).op (o := .copyLastOp) rfl).op
    (o := .copyLastOp) rfl
  have filled :=
    ((((made.then (traces_quiet (s := .text .typeString cls) rfl)).op (o := .convToString) rfl).op
      (o := .newObject) rfl).append (traces_effect kept keeps rfl)).append (traces_onObject body)
  have named := ((filled.op (o := .typeArray) rfl).op (o := .swapLastOps) rfl).then
    (traces_quiet (s := .text .typeVar "addcontrol") rfl)
  exact (named.append (traces_effect added adds rfl)).op rfl

theorem traces_switchTests (tests : List (Nat × List (Option Expr))) :
    (switchTests tests).Traces (tests.flatMap fun t => t.2.flatMap (Expr.trace? true)) := by
  refine Traces.then (traces_all_map tests fun t _ => traces_all_map t.2 fun label _ => ?_) ?_
  · cases label with
    | none => exact traces_nil
    | some e =>
      exact ((Traces.append (traces_quiet rfl) (traces_expr e)).op rfl).then (traces_quiet rfl)
  · cases fallback tests with
    | none => exact traces_nil
    | some start => exact traces_quiet rfl

theorem length_caseStarts (switches : Nat) (cs : List Case) (n : Nat) (last : Option Opcode) :
    (caseStarts switches cs n last).length = cs.length := by
  induction cs generalizing n last with
  | nil => rfl
  | cons c cs ih => simp [caseStarts, ih]

mutual

theorem traces_stmt (switches : Nat) (s : Stmt) : (stmt switches s).Traces s.trace := by
  cases s with
  | block _ body => exact traces_stmts switches body
  | ifThen _ cond yes =>
    exact (traces_condition cond).append (traces_jumpOver rfl (traces_stmt switches yes))
  | ifElse _ cond yes no =>
    exact traces_branch rfl (traces_condition cond) (traces_stmt switches yes)
      (traces_stmt switches no)
  | whileLoop _ cond body =>
    have round :=
      traces_loop .ifThen rfl true (traces_condition cond) (traces_stmt 0 body) traces_nil
    rwa [List.append_nil] at round
  | forLoop _ init cond step body =>
    refine (traces_elim init traces_nil traces_forInit).append ?_
    refine traces_loop _ rfl false ?_ (traces_stmt 0 body) ?_
    · exact traces_elim cond (traces_quiet rfl) traces_condition
    · exact traces_elim step traces_nil traces_effectOf
  | forEach line _ item binding iterable body =>
    have front :=
      ((Traces.append (traces_bound item binding) (traces_expr iterable)).op
        (o := .convToObject) rfl).then
      (traces_quiet (s := .number 0) rfl)
    have round := traces_loop .forEach rfl false traces_nil (traces_stmt 0 body)
      (traces_effect (.upkeep (.advance line)) rfl rfl)
    exact (front.append round).op rfl
  | withObject _ object body =>
    exact (traces_expr object).append (traces_onObject (traces_stmt switches body))
  | switch _ value cases =>
    refine traces_switch (traces_caseBodies _ cases) (traces_expr value) fun n last => ?_
    have long :
        (cases.map Case.labels).length ≤ (caseStarts (switches + 1) cases n last).length := by
      rw [List.length_map, length_caseStarts]
    have tests :=
      traces_switchTests ((caseStarts (switches + 1) cases n last).zip (cases.map Case.labels))
    rwa [← List.flatMap_map Prod.snd, List.map_snd_zip long, List.flatMap_map] at tests
  | new line cls name _ body =>
    exact traces_newControl cls.name (traces_expr name) (traces_stmts switches body)
      (.upkeep (.keep line cls))
      (.upkeep (.attach line cls)) rfl rfl
  | ret _ value => exact (traces_elim value (traces_quiet rfl) traces_expr).op rfl
  | breakOut _ => exact traces_quiet rfl
  | continueLoop _ => exact traces_continueLoop switches
  | vars decl => exact traces_varDecl decl
  | expr e => exact traces_effectOf e
  | const | empty => exact traces_nil

theorem traces_stmts (switches : Nat) (ss : List Stmt) :
    (stmts switches ss).Traces (Stmt.traceAll ss) := by
  cases ss with
  | nil => exact traces_nil
  | cons s ss => exact (traces_stmt switches s).append (traces_stmts switches ss)

theorem traces_caseBodies (switches : Nat) (cs : List Case) :
    (caseBodies switches cs).Traces (Case.traceAll cs) := by
  cases cs with
  | nil => exact traces_nil
  | cons c cs => exact (traces_caseBody switches c).append (traces_caseBodies switches cs)

theorem traces_caseBody (switches : Nat) (c : Case) : (caseBody switches c).Traces c.trace := by
  cases c with
  | mk _ _ body => exact traces_stmts switches body

end

theorem traces_item (i : Item) : (item i).Traces i.trace := by
  cases i with
  | stmt s => exact traces_stmt 0 s
  | func f =>
    have params : (all (f.params.reverse.map fun p => one (.text .typeVar p.name))).Traces [] := by
      have each := traces_all_map (t := fun _ => []) f.params.reverse fun p _ =>
        traces_quiet (s := .text .typeVar p.name) rfl
      rwa [List.flatMap_eq_nil_iff.mpr fun _ _ => rfl] at each
    have front :=
      ((Traces.append (traces_quiet (s := .plain .typeArray) rfl) params).op
        (o := .funcParamsEnd) rfl).op (o := .jmp) rfl
    have opened := front.then (traces_either (p := f.body.hasCall = true)
      (traces_quiet (s := .plain .cmdCall) rfl) traces_nil)
    have closing : (ending f.body.body).Traces [] :=
      traces_behind fun _ => traces_either traces_nil (Traces.op (traces_quiet rfl) rfl)
    exact traces_jumpOver rfl ((opened.append (traces_stmts 0 f.body.body)).then closing)

end Layout

theorem Assembly.map_op_placeAll (a : Assembly) (code : List Slot) :
    (a.placeAll code).instrs.toList.map Instr.op = a.instrs.toList.map Instr.op ++
      code.map Slot.op := by
  induction code generalizing a with
  | nil => simp
  | cons s code ih =>
    rw [placeAll_cons, ih]
    simp [place]

/-- The calls, steps and assignments of the code of a program, in order. -/
theorem Program.effects_draft {p : Program} {d : Draft} (h : p.draft = .ok d) :
    (d.code.instrs.toList.map Instr.op).filter Opcode.isEffect = p.trace.map Effect.op := by
  obtain ⟨follows, -⟩ := draft_eq_ok h
  rw [follows.code_eq, Assembly.map_op_placeAll]
  exact Layout.traces_all_map p.items (fun i _ => Layout.traces_item i) 0 none

end GraalScript
