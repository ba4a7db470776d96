import GraalScript.Proofs.Compilation
import GraalScript.Proofs.Generate.Trace
import GraalScript.Proofs.Tree.Equality
import Mathlib.Algebra.Order.Group.Multiset
import Mathlib.Tactic.Abel

/-! How often the code of a program has each call, step and assignment. It has each of them once,
with three exceptions: an assignment reads its target again where its value is used, a compound
assignment to an array element writes the place of the element twice, and `new` looks at its
arguments only if it has exactly one. -/
namespace GraalScript

/-- A node that calls or assigns, and how often the code has it. -/
structure Site where
  node : Node
  times : Nat

/-- How often the code has the target of an assignment: to store the value, to read the old value of
an array element, and to read the new value where it is used. -/
def Expr.readings (target : Expr) (op : Option BinaryOp) (used : Bool) : Nat :=
  1 + (if op.isSome && target.isElement then 1 else 0) + if used then 1 else 0

mutual

/-- The nodes of an expression that the code has the given number of times. -/
def Expr.sites (used : Bool) (times : Nat) : Expr → List Site
  | .literal .. | .name .. | .newArray .. => []
  | .member _ object _ => object.sites true times
  | .index _ object i => object.sites true times ++ i.sites true times
  | .call line callee args =>
    ⟨.call line callee args, times⟩ :: (callee.sites true times ++ Expr.allSites times args)
  | .array _ items => Expr.allSites times items
  | .unary _ _ operand => operand.sites true times
  | .step line op before target => ⟨.step line op before target, times⟩ :: target.sites true times
  | .binary line op lhs rhs =>
    (if op = .pow then [⟨.power line lhs rhs, times⟩] else []) ++ lhs.sites true times ++
      rhs.sites true times
  | .logical _ _ lhs rhs => lhs.sites true times ++ rhs.sites true times
  | .assign line op target value =>
    (if op = some .pow then [⟨.power line target value, times⟩] else []) ++
      ⟨.assign line op target value, times⟩ ::
        (target.sites true (times * target.readings op used) ++ value.sites true times)
  | .ternary _ cond yes no => cond.sites true times ++ yes.sites true times ++ no.sites true times
  | .cast _ _ operand => operand.sites true times
  | .inRange _ value lower upper =>
    value.sites true times ++ lower.sites true times ++ upper.sites true times
  | .inObject _ value object => value.sites true times ++ object.sites true times
  | .new _ _ args => Expr.allSites (if args.length = 1 then times else 0) args

def Expr.allSites (times : Nat) : List Expr → List Site
  | [] => []
  | e :: es => e.sites true times ++ Expr.allSites times es

end

def Expr.sites? (used : Bool) (e : Option Expr) : List Site := e.elim [] (·.sites used 1)

def VarDecl.sites (decl : VarDecl) : List Site :=
  decl.defs.flatMap fun d => Expr.sites? true d.value

def ForInit.sites : ForInit → List Site
  | vars decl => decl.sites
  | expr e => e.sites false 1

mutual

/-- The nodes of the expressions of a statement. The values of constants are not among them. -/
def Stmt.sites : Stmt → List Site
  | .block _ body => Stmt.allSites body
  | .ifThen _ cond yes => cond.sites true 1 ++ yes.sites
  | .ifElse _ cond yes no => cond.sites true 1 ++ yes.sites ++ no.sites
  | .whileLoop _ cond body => cond.sites true 1 ++ body.sites
  | .forLoop _ init cond step body =>
    init.elim [] ForInit.sites ++ Expr.sites? true cond ++ Expr.sites? false step ++ body.sites
  | .forEach _ _ _ _ iterable body => iterable.sites true 1 ++ body.sites
  | .withObject _ object body => object.sites true 1 ++ body.sites
  | .switch _ value cases => value.sites true 1 ++ Case.allSites cases
  | .new _ _ name _ body => name.sites true 1 ++ Stmt.allSites body
  | .ret _ value => Expr.sites? true value
  | .vars decl => decl.sites
  | .expr e => e.sites false 1
  | .breakOut _ | .continueLoop _ | .const .. | .empty _ => []

def Stmt.allSites : List Stmt → List Site
  | [] => []
  | s :: ss => s.sites ++ Stmt.allSites ss

def Case.allSites : List Case → List Site
  | [] => []
  | c :: cs => c.sites ++ Case.allSites cs

def Case.sites : Case → List Site
  | .mk _ labels body => labels.flatMap (Expr.sites? true) ++ Stmt.allSites body

end

def Item.sites : Item → List Site
  | func f => Stmt.allSites f.body.body
  | stmt s => s.sites

def Program.sites (p : Program) : List Site := p.items.flatMap Item.sites

def VarDecl.upkeep (decl : VarDecl) : List Upkeep := decl.defs.map .define

def ForInit.upkeep : ForInit → List Upkeep
  | vars decl => decl.upkeep
  | expr _ => []

mutual

/-- What a statement and the statements in it call or assign by themselves. -/
def Stmt.upkeep : Stmt → List Upkeep
  | .block _ body => Stmt.allUpkeep body
  | .ifThen _ _ yes => yes.upkeep
  | .ifElse _ _ yes no => yes.upkeep ++ no.upkeep
  | .whileLoop _ _ body | .withObject _ _ body => body.upkeep
  | .forLoop _ init _ _ body => init.elim [] ForInit.upkeep ++ body.upkeep
  | .forEach line _ _ _ _ body => .advance line :: body.upkeep
  | .switch _ _ cases => Case.allUpkeep cases
  | .new line cls _ _ body => .keep line cls :: .attach line cls :: Stmt.allUpkeep body
  | .vars decl => decl.upkeep
  | .expr _ | .ret .. | .breakOut _ | .continueLoop _ | .const .. | .empty _ => []

def Stmt.allUpkeep : List Stmt → List Upkeep
  | [] => []
  | s :: ss => s.upkeep ++ Stmt.allUpkeep ss

def Case.allUpkeep : List Case → List Upkeep
  | [] => []
  | c :: cs => c.upkeep ++ Case.allUpkeep cs

def Case.upkeep : Case → List Upkeep
  | .mk _ _ body => Stmt.allUpkeep body

end

def Item.upkeep : Item → List Upkeep
  | func f => Stmt.allUpkeep f.body.body
  | stmt s => s.upkeep

def Program.upkeep (p : Program) : List Upkeep := p.items.flatMap Item.upkeep

namespace Site

/-- Every node as often as it stands in the code. -/
def weigh (sites : List Site) : Multiset Effect := (sites.map fun s => s.times • {.node s.node}).sum

@[simp] theorem weigh_nil : weigh [] = 0 := rfl

@[simp] theorem weigh_cons (s : Site) (sites : List Site) :
    weigh (s :: sites) = s.times • {.node s.node} + weigh sites := rfl

@[simp] theorem weigh_append (x y : List Site) : weigh (x ++ y) = weigh x + weigh y := by
  simp [weigh]

theorem weigh_ite (p : Prop) [Decidable p] (node : Node) (times : Nat) :
    weigh (if p then [⟨node, times⟩] else []) =
      times • ((if p then [.node node] else [] : List Effect) : Multiset Effect) := by
  split <;> simp

end Site

namespace Upkeep

def effects (us : List Upkeep) : Multiset Effect := us.map Effect.upkeep

@[simp] theorem effects_nil : effects [] = 0 := rfl

@[simp] theorem effects_cons (u : Upkeep) (us : List Upkeep) :
    effects (u :: us) = {.upkeep u} + effects us :=
  rfl

@[simp] theorem effects_append (x y : List Upkeep) : effects (x ++ y) = effects x + effects y := by
  simp [effects]

end Upkeep

open Site Upkeep

theorem Expr.trace_callee (e : Expr) :
    e.objectTrace ++
      (if e.command.op = .call then e.memberName?.elim (e.trace true) fun _ => [] else []) =
      e.trace true := by
  cases e with
  | member _ object _ => simp [objectTrace, memberName?, trace]
  | name _ _ _ => simp [objectTrace, memberName?, trace]
  | _ => rfl

theorem Expr.coe_trace_call (used : Bool) (line : Nat) (callee : Expr) (args : List Expr) :
    ((Expr.call line callee args).trace used : Multiset Effect) =
      {.node (.call line callee args)} + (callee.trace true + (Expr.traces args).flatten) := by
  have order : (((if callee.command.style.reverseArgs then (Expr.traces args).reverse
      else Expr.traces args).flatten : List Effect) : Multiset Effect) =
        (Expr.traces args).flatten := by
    split
    · exact Multiset.coe_eq_coe.mpr (List.reverse_perm _).flatten
    · rfl
  rw [← callee.trace_callee, Expr.trace]
  simp only [← Multiset.coe_add, order, Multiset.coe_singleton]
  split <;> simp only [Multiset.coe_nil] <;> abel

mutual

theorem Expr.weigh_sites (used : Bool) (times : Nat) (e : Expr) :
    weigh (e.sites used times) = times • (e.trace used : Multiset Effect) := by
  cases e with
  | literal | name | newArray => simp [Expr.sites, Expr.trace]
  | member _ object _ => exact object.weigh_sites true times
  | index _ object i =>
    simp only [Expr.sites, Expr.trace, weigh_append, object.weigh_sites, i.weigh_sites,
      ← Multiset.coe_add, nsmul_add]
  | call line callee args =>
    rw [Expr.sites, weigh_cons, weigh_append, callee.weigh_sites, Expr.weigh_allSites,
      Expr.coe_trace_call, nsmul_add, nsmul_add]
  | array _ items =>
    have order : ((Expr.traces items).reverse.flatten : Multiset Effect) =
        (Expr.traces items).flatten :=
      Multiset.coe_eq_coe.mpr (List.reverse_perm _).flatten
    rw [Expr.sites, Expr.trace, Expr.weigh_allSites, order]
  | unary _ _ operand => exact operand.weigh_sites true times
  | step line op before target =>
    simp only [Expr.sites, Expr.trace, weigh_cons, target.weigh_sites,
      ← Multiset.coe_add, nsmul_add, Multiset.coe_singleton, add_comm]
  | binary line op lhs rhs =>
    simp only [Expr.sites, Expr.trace, weigh_append, weigh_ite, lhs.weigh_sites, rhs.weigh_sites,
      ← Multiset.coe_add, nsmul_add]
    abel
  | logical _ _ lhs rhs =>
    simp only [Expr.sites, Expr.trace, weigh_append, lhs.weigh_sites, rhs.weigh_sites,
      ← Multiset.coe_add, nsmul_add]
  | assign line op target value =>
    have read (p : Prop) [Decidable p] :
        (times * if p then 1 else 0) • (target.trace true : Multiset Effect) =
        times • ((if p then target.trace true else [] : List Effect) : Multiset Effect) := by
      split <;> simp
    simp only [Expr.sites, Expr.trace, weigh_append, weigh_cons, weigh_ite, target.weigh_sites,
      value.weigh_sites, ← Multiset.coe_add, nsmul_add, Expr.readings, Nat.mul_add, Nat.mul_one,
      add_nsmul, read, Multiset.coe_singleton]
    abel
  | ternary _ cond yes no =>
    simp only [Expr.sites, Expr.trace, weigh_append, cond.weigh_sites, yes.weigh_sites,
      no.weigh_sites, ← Multiset.coe_add, nsmul_add]
  | cast _ _ operand => exact operand.weigh_sites true times
  | inRange _ value lower upper =>
    simp only [Expr.sites, Expr.trace, weigh_append, value.weigh_sites, lower.weigh_sites,
      upper.weigh_sites, ← Multiset.coe_add, nsmul_add]
  | inObject _ value object =>
    simp only [Expr.sites, Expr.trace, weigh_append, value.weigh_sites, object.weigh_sites,
      ← Multiset.coe_add, nsmul_add]
  | new _ _ args =>
    rw [Expr.sites, Expr.trace, Expr.weigh_allSites]
    match args with
    | [] => simp [Expr.traces, Effect.ofOnly]
    | [only] => simp [Expr.traces, Effect.ofOnly]
    | _ :: _ :: _ => simp [Expr.traces, Effect.ofOnly]

theorem Expr.weigh_allSites (times : Nat) (es : List Expr) :
    weigh (Expr.allSites times es) = times • ((Expr.traces es).flatten : Multiset Effect) := by
  cases es with
  | nil => simp [Expr.allSites, Expr.traces]
  | cons e es =>
    simp only [Expr.allSites, Expr.traces, weigh_append, e.weigh_sites,
      Expr.weigh_allSites times es, List.flatten_cons, ← Multiset.coe_add, nsmul_add]

end

theorem Expr.weigh_sites? (used : Bool) (e : Option Expr) :
    weigh (Expr.sites? used e) = (Expr.trace? used e : Multiset Effect) := by
  cases e with
  | none => rfl
  | some e => exact (e.weigh_sites used 1).trans (one_nsmul _)

theorem weigh_flatMap {α : Type} {sites : α → List Site} {upkeep : α → List Upkeep}
    {trace : α → List Effect} (xs : List α)
    (h : ∀ x ∈ xs, weigh (sites x) + effects (upkeep x) = trace x) :
    weigh (xs.flatMap sites) + effects (xs.flatMap upkeep) = xs.flatMap trace := by
  induction xs with
  | nil => rfl
  | cons x xs ih =>
    rw [List.forall_mem_cons] at h
    simp only [List.flatMap_cons, weigh_append, effects_append, ← Multiset.coe_add, ← h.1, ← ih h.2]
    abel

theorem VarDecl.weigh_sites (decl : VarDecl) :
    weigh decl.sites + effects decl.upkeep = (decl.trace : Multiset Effect) := by
  rw [VarDecl.upkeep, List.map_eq_flatMap]
  refine weigh_flatMap decl.defs fun d _ => ?_
  rw [Expr.weigh_sites?]
  rfl

theorem ForInit.weigh_sites (init : Option ForInit) :
    weigh (init.elim [] ForInit.sites) + effects (init.elim [] ForInit.upkeep) =
      (init.elim [] ForInit.trace : List Effect) := by
  match init with
  | none => rfl
  | some (.vars decl) => exact decl.weigh_sites
  | some (.expr e) => exact (add_zero _).trans ((e.weigh_sites false 1).trans (one_nsmul _))

theorem Case.weigh_labels (labels : List (Option Expr)) :
    weigh (labels.flatMap (Expr.sites? true)) =
      (labels.flatMap (Expr.trace? true) : List Effect) := by
  induction labels with
  | nil => rfl
  | cons label labels ih =>
    simp only [List.flatMap_cons, weigh_append, Expr.weigh_sites?, ih, ← Multiset.coe_add]

mutual

theorem Stmt.weigh_sites (s : Stmt) :
    weigh s.sites + effects s.upkeep = (s.trace : Multiset Effect) := by
  cases s with
  | block _ body => exact Stmt.weigh_allSites body
  | ifThen _ cond yes =>
    simp only [Stmt.sites, Stmt.upkeep, Stmt.trace, weigh_append, ← Multiset.coe_add,
      ← yes.weigh_sites, cond.weigh_sites, one_nsmul]
    abel
  | ifElse _ cond yes no =>
    simp only [Stmt.sites, Stmt.upkeep, Stmt.trace, weigh_append, effects_append,
      ← Multiset.coe_add, ← yes.weigh_sites, ← no.weigh_sites, cond.weigh_sites, one_nsmul]
    abel
  | whileLoop _ cond body =>
    simp only [Stmt.sites, Stmt.upkeep, Stmt.trace, weigh_append, ← Multiset.coe_add,
      ← body.weigh_sites, cond.weigh_sites, one_nsmul]
    abel
  | forLoop _ init cond step body =>
    simp only [Stmt.sites, Stmt.upkeep, Stmt.trace, weigh_append, effects_append,
      ← Multiset.coe_add, ← body.weigh_sites, ← ForInit.weigh_sites, Expr.weigh_sites?]
    abel
  | forEach line _ _ _ iterable body =>
    simp only [Stmt.sites, Stmt.upkeep, Stmt.trace, weigh_append, effects_cons, ← Multiset.coe_add,
      ← body.weigh_sites, iterable.weigh_sites, one_nsmul, Multiset.coe_singleton]
    abel
  | withObject _ object body =>
    simp only [Stmt.sites, Stmt.upkeep, Stmt.trace, weigh_append, ← Multiset.coe_add,
      ← body.weigh_sites, object.weigh_sites, one_nsmul]
    abel
  | switch _ value cases =>
    simp only [Stmt.sites, Stmt.upkeep, Stmt.trace, weigh_append, ← Multiset.coe_add,
      value.weigh_sites, one_nsmul]
    rw [add_assoc, Case.weigh_allSites]
    simp only [← Multiset.coe_add]
    abel
  | new line cls name _ body =>
    simp only [Stmt.sites, Stmt.upkeep, Stmt.trace, weigh_append, effects_cons, ← Multiset.coe_add,
      ← Stmt.weigh_allSites body, name.weigh_sites, one_nsmul, Multiset.coe_singleton]
    abel
  | ret _ value => exact (add_zero _).trans (Expr.weigh_sites? true value)
  | vars decl => exact decl.weigh_sites
  | expr e => exact (add_zero _).trans ((e.weigh_sites false 1).trans (one_nsmul _))
  | breakOut | continueLoop | const | empty => rfl

theorem Stmt.weigh_allSites (ss : List Stmt) :
    weigh (Stmt.allSites ss) + effects (Stmt.allUpkeep ss) =
      (Stmt.traceAll ss : Multiset Effect) := by
  cases ss with
  | nil => rfl
  | cons s ss =>
    simp only [Stmt.allSites, Stmt.allUpkeep, Stmt.traceAll, weigh_append, effects_append,
      ← Multiset.coe_add, ← s.weigh_sites, ← Stmt.weigh_allSites ss]
    abel

theorem Case.weigh_allSites (cs : List Case) :
    weigh (Case.allSites cs) + effects (Case.allUpkeep cs) =
      (Case.traceAll cs ++ cs.flatMap fun c => c.labels.flatMap (Expr.trace? true) :
        List Effect) := by
  cases cs with
  | nil => rfl
  | cons c cs =>
    calc weigh (c.sites ++ Case.allSites cs) + effects (c.upkeep ++ Case.allUpkeep cs)
        = (weigh c.sites + effects c.upkeep) +
          (weigh (Case.allSites cs) + effects (Case.allUpkeep cs)) := by
          rw [weigh_append, effects_append]
          abel
      _ = _ := by
          rw [c.weigh_sites, Case.weigh_allSites cs]
          simp only [Case.traceAll, List.flatMap_cons, ← Multiset.coe_add]
          abel

theorem Case.weigh_sites (c : Case) :
    weigh c.sites + effects c.upkeep =
      (c.trace ++ c.labels.flatMap (Expr.trace? true) : List Effect) := by
  cases c with
  | mk line labels body =>
    simp only [Case.sites, Case.upkeep, Case.trace, Case.labels, weigh_append, ← Multiset.coe_add,
      ← Stmt.weigh_allSites body, Case.weigh_labels]
    abel

end

theorem Program.weigh_sites (p : Program) :
    weigh p.sites + effects p.upkeep = (p.trace : Multiset Effect) := by
  refine weigh_flatMap p.items fun i _ => ?_
  cases i with
  | func f => exact Stmt.weigh_allSites f.body.body
  | stmt s => exact s.weigh_sites

def Opcode.isStep (o : Opcode) : Bool := o = .inc || o = .dec

def Node.isStep : Node → Bool
  | step .. => true
  | _ => false

def Upkeep.isAdvance : Upkeep → Bool
  | advance _ => true
  | _ => false

theorem Node.isStep_op (n : Node) : n.op.isStep = n.isStep := by
  cases n with
  | call _ callee _ =>
    have known : ∀ c ∈ Command.known, c.op.isStep = false := by decide
    exact known _ callee.command_mem_known
  | step _ op _ _ => cases op <;> rfl
  | assign _ _ target _ =>
    rw [Node.op]
    split <;> rfl
  | power => rfl

theorem Upkeep.isStep_op (u : Upkeep) : u.op.isStep = u.isAdvance := by
  cases u <;> rfl

theorem countP_weigh (sites : List Site) :
    (weigh sites).countP (·.op.isStep) = ((sites.filter (·.node.isStep)).map Site.times).sum := by
  induction sites with
  | nil => rfl
  | cons s sites ih =>
    have single : ({.node s.node} : Multiset Effect).countP (·.op.isStep) =
        if s.node.isStep then 1 else 0 := by
      rw [← Multiset.coe_singleton, Multiset.coe_countP, List.countP_singleton, ← s.node.isStep_op]
      cases step : s.node.op.isStep <;> simp [Effect.op, step]
    rw [weigh_cons, Multiset.countP_add, ih, Multiset.countP_nsmul, single]
    cases step : s.node.isStep <;> simp [step]

theorem countP_effects (us : List Upkeep) :
    (effects us).countP (·.op.isStep) = us.countP Upkeep.isAdvance := by
  rw [effects, Multiset.coe_countP, List.countP_map]
  refine List.countP_congr fun u _ => ?_
  simp [Effect.op, u.isStep_op]

theorem Program.countP_draft {p : Program} {d : Draft} (h : p.draft = .ok d) :
    (d.code.instrs.toList.countP fun i => i.op = .inc ∨ i.op = .dec) =
      ((p.sites.filter (·.node.isStep)).map Site.times).sum + p.upkeep.countP Upkeep.isAdvance := by
  have among (o : Opcode) : (o.isStep && o.isEffect) = o.isStep := by
    cases o <;> rfl
  calc (d.code.instrs.toList.countP fun i => i.op = .inc ∨ i.op = .dec)
      = (d.code.instrs.toList.map Instr.op).countP Opcode.isStep := by
        rw [List.countP_map]
        simp only [Function.comp_def, Opcode.isStep, Bool.decide_or]
    _ = (p.trace.map Effect.op).countP Opcode.isStep := by
        rw [← effects_draft h, List.countP_filter]
        simp only [among]
    _ = (p.trace : Multiset Effect).countP (·.op.isStep) := by
        rw [Multiset.coe_countP, List.countP_map]
        simp only [Bool.decide_eq_true, Function.comp_def]
    _ = _ := by
        rw [← p.weigh_sites, Multiset.countP_add, countP_weigh, countP_effects]

/-- The code of a program calls and assigns as its nodes and its statements do, in order: what a
statement does by itself stands in it once, and each node as often as its site says. So the steps
are counted. -/
theorem Program.effects_of_generate {p : Program} {prologue : List UInt8} {out : Output}
    (h : p.generate prologue = .ok out) :
    ∃ d, p.draft = .ok d ∧ d.code.image prologue = .ok out.image ∧
      (d.code.instrs.toList.map Instr.op).filter Opcode.isEffect = p.trace.map Effect.op ∧
      (p.trace : Multiset Effect) = (p.sites.map fun s => s.times • {.node s.node}).sum +
        (p.upkeep.map Effect.upkeep : List Effect) ∧
      (d.code.instrs.toList.countP fun i => i.op = .inc ∨ i.op = .dec) =
        ((p.sites.filter (·.node.isStep)).map Site.times).sum +
          p.upkeep.countP Upkeep.isAdvance := by
  obtain ⟨d, drafted, written, -⟩ := Program.generate_eq_ok_iff.mp h
  exact ⟨d, drafted, written, effects_draft drafted, p.weigh_sites.symm, countP_draft drafted⟩

/-- `for (x : this) b = new T(i++, x);`. -/
def Program.unnamedObjects : Program :=
  ⟨[.stmt (.forEach 1 false "x" .objectVar (.name 1 "this" .builtin)
      (.expr (.assign 1 none (.name 1 "b" .objectVar)
        (.new 1 ⟨"T", 1⟩ [.step 1 .inc false (.name 1 "i" .objectVar), .name 1 "x" .objectVar]))))],
    none⟩

/-- The arguments of `new` are dropped, so the only step is that of the loop. -/
theorem Program.effects_of_generate_new : ∃ out d, Program.unnamedObjects.generate [] = .ok out ∧
    Program.unnamedObjects.draft = .ok d ∧ d.code.image [] = .ok out.image ∧
    (Program.unnamedObjects.sites.filter (·.node.isStep)).map Site.times = [0] ∧
    Program.unnamedObjects.upkeep.countP Upkeep.isAdvance = 1 ∧
    (d.code.instrs.toList.countP fun i => i.op = .inc ∨ i.op = .dec) = 1 := by
  have succeeds : (Program.unnamedObjects.generate []).toOption.isSome = true := by decide +kernel
  obtain ⟨out, generated⟩ := exists_ok_of_isSome succeeds
  obtain ⟨d, drafted, written, -, -, steps⟩ := effects_of_generate generated
  exact ⟨out, d, generated, drafted, written, rfl, rfl, steps⟩

/-- `a = {1}; a[i++] += 2;`, with all names bound alike. -/
def Program.elementStep (binding : Binding) : Program :=
  ⟨[.stmt (.expr (.assign 1 none (.name 1 "a" binding) (.array 1 [.literal 1 (.int 1)]))),
    .stmt (.expr (.assign 1 (some .add)
      (.index 1 (.name 1 "a" binding) (.step 1 .inc false (.name 1 "i" binding)))
        (.literal 1 (.int 2))))], none⟩

theorem Program.parse_elementStep :
    Program.parse "a = {1}; a[i++] += 2;" 8 = .ok (.elementStep .unresolved) := by
  exact eq_ok_of_toOption (by decide +kernel)

/-- A step in the place of an array element: the tree has it once and the code twice. -/
theorem Program.effects_of_generate_element : ∃ symbols out d,
    Program.parse "a = {1}; a[i++] += 2;" 8 = .ok (.elementStep .unresolved) ∧
    (Program.elementStep .unresolved).resolve .empty = .ok (.elementStep .objectVar, symbols) ∧
    (Program.elementStep .objectVar).generate [] = .ok out ∧
      (Program.elementStep .objectVar).draft = .ok d ∧
    (Program.elementStep .objectVar).sites.countP (·.node.isStep) = 1 ∧
    (Program.elementStep .objectVar).upkeep.countP Upkeep.isAdvance = 0 ∧
    (d.code.instrs.toList.countP fun i => i.op = .inc ∨ i.op = .dec) = 2 := by
  have succeeds : ((Program.elementStep .objectVar).generate []).toOption.isSome = true := by
    decide +kernel
  obtain ⟨out, generated⟩ := exists_ok_of_isSome succeeds
  obtain ⟨d, drafted, -⟩ := Program.generate_eq_ok_iff.mp generated
  exact ⟨_, out, d, parse_elementStep, rfl, generated, drafted, rfl, rfl, countP_draft drafted⟩

end GraalScript
