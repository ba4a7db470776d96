import GraalScript.Tree.Basic

/-! What has to hold of a tree before code can be generated for it: every name is bound, except in
the values of constants, which are not generated, and every break and continue stands inside a
construct it can leave. -/
namespace GraalScript

def Binding.isBound : Binding → Bool
  | unresolved => false
  | _ => true

mutual

def Expr.isBound : Expr → Bool
  | .literal .. | .newArray .. => true
  | .name _ _ binding => binding.isBound
  | .member _ object _ => object.isBound
  | .index _ object i => object.isBound && i.isBound
  | .call _ callee args => callee.isBound && Expr.allBound args
  | .array _ items => Expr.allBound items
  | .unary _ _ operand => operand.isBound
  | .step _ _ _ target => target.isBound
  | .binary _ _ lhs rhs => lhs.isBound && rhs.isBound
  | .logical _ _ lhs rhs => lhs.isBound && rhs.isBound
  | .assign _ _ target value => target.isBound && value.isBound
  | .ternary _ cond yes no => cond.isBound && yes.isBound && no.isBound
  | .cast _ _ operand => operand.isBound
  | .inRange _ value lower upper => value.isBound && lower.isBound && upper.isBound
  | .inObject _ value object => value.isBound && object.isBound
  | .new _ _ args => Expr.allBound args

def Expr.allBound : List Expr → Bool
  | [] => true
  | e :: es => e.isBound && Expr.allBound es

end

theorem Expr.allBound_eq (es : List Expr) : Expr.allBound es = es.all Expr.isBound := by
  induction es with
  | nil => rfl
  | cons e es ih => rw [Expr.allBound, ih, List.all_cons]

def VarDecl.isBound (decl : VarDecl) : Bool := decl.defs.all fun d => d.value.all Expr.isBound

def ForInit.isBound : ForInit → Bool
  | vars decl => decl.isBound
  | expr e => e.isBound

mutual

def Stmt.isBound : Stmt → Bool
  | .block _ body => Stmt.allBound body
  | .ifThen _ cond yes => cond.isBound && yes.isBound
  | .ifElse _ cond yes no => cond.isBound && yes.isBound && no.isBound
  | .whileLoop _ cond body => cond.isBound && body.isBound
  | .forLoop _ init cond step body =>
    init.all ForInit.isBound && cond.all Expr.isBound && step.all Expr.isBound && body.isBound
  | .forEach _ _ _ binding iterable body => binding.isBound && iterable.isBound && body.isBound
  | .withObject _ object body => object.isBound && body.isBound
  | .switch _ value cases => value.isBound && Case.allBound cases
  | .new _ _ name _ body => name.isBound && Stmt.allBound body
  | .ret _ value => value.all Expr.isBound
  | .vars decl => decl.isBound
  | .expr e => e.isBound
  | .const .. | .breakOut _ | .continueLoop _ | .empty _ => true

def Stmt.allBound : List Stmt → Bool
  | [] => true
  | s :: ss => s.isBound && Stmt.allBound ss

def Case.isBound : Case → Bool
  | .mk _ labels body => labels.all (·.all Expr.isBound) && Stmt.allBound body

def Case.allBound : List Case → Bool
  | [] => true
  | c :: cs => c.isBound && Case.allBound cs

end

theorem Stmt.allBound_eq (ss : List Stmt) : Stmt.allBound ss = ss.all Stmt.isBound := by
  induction ss with
  | nil => rfl
  | cons s ss ih => rw [Stmt.allBound, ih, List.all_cons]

theorem Case.allBound_eq (cs : List Case) : Case.allBound cs = cs.all Case.isBound := by
  induction cs with
  | nil => rfl
  | cons c cs ih => rw [Case.allBound, ih, List.all_cons]

theorem Case.allBound_labels {cs : List Case} (h : Case.allBound cs = true)
    {labels : List (Option Expr)} (hl : labels ∈ cs.map Case.labels) :
    labels.all (·.all Expr.isBound) = true := by
  induction cs with
  | nil => cases hl
  | cons c cs ih =>
    obtain ⟨line, found, body⟩ := c
    simp only [Case.allBound, Case.isBound, Bool.and_eq_true] at h
    cases hl with
    | head => exact h.1.1
    | tail _ hl => exact ih h.2 hl

mutual

/-- Whether every break and continue has a construct to leave, inside a loop or not, and inside
anything that can be left or not. -/
def Stmt.isPlaced (inLoop canBreak : Bool) : Stmt → Bool
  | .block _ body => Stmt.allPlaced inLoop canBreak body
  | .ifThen _ _ yes => yes.isPlaced inLoop canBreak
  | .ifElse _ _ yes no => yes.isPlaced inLoop canBreak && no.isPlaced inLoop canBreak
  | .whileLoop _ _ body | .forLoop _ _ _ _ body | .forEach _ _ _ _ _ body => body.isPlaced true true
  | .withObject _ _ body => body.isPlaced inLoop canBreak
  | .switch _ _ cases => Case.allPlaced inLoop true cases
  | .new _ _ _ _ body => Stmt.allPlaced inLoop canBreak body
  | .breakOut _ => canBreak
  | .continueLoop _ => inLoop
  | .ret .. | .vars _ | .const .. | .expr _ | .empty _ => true

def Stmt.allPlaced (inLoop canBreak : Bool) : List Stmt → Bool
  | [] => true
  | s :: ss => s.isPlaced inLoop canBreak && Stmt.allPlaced inLoop canBreak ss

def Case.isPlaced (inLoop canBreak : Bool) : Case → Bool
  | .mk _ _ body => Stmt.allPlaced inLoop canBreak body

def Case.allPlaced (inLoop canBreak : Bool) : List Case → Bool
  | [] => true
  | c :: cs => c.isPlaced inLoop canBreak && Case.allPlaced inLoop canBreak cs

end

theorem Stmt.allPlaced_eq (inLoop canBreak : Bool) (ss : List Stmt) :
    Stmt.allPlaced inLoop canBreak ss = ss.all (Stmt.isPlaced inLoop canBreak) := by
  induction ss with
  | nil => rfl
  | cons s ss ih => rw [Stmt.allPlaced, ih, List.all_cons]

theorem Case.allPlaced_eq (inLoop canBreak : Bool) (cs : List Case) :
    Case.allPlaced inLoop canBreak cs = cs.all (Case.isPlaced inLoop canBreak) := by
  induction cs with
  | nil => rfl
  | cons c cs ih => rw [Case.allPlaced, ih, List.all_cons]

namespace Item

def isBound : Item → Bool
  | func f => Stmt.allBound f.body.body
  | stmt s => s.isBound

def isPlaced : Item → Bool
  | func f => Stmt.allPlaced false false f.body.body
  | stmt s => s.isPlaced false false

def func? : Item → Option Func
  | func f => some f
  | stmt _ => none

end Item

theorem Program.funcs_eq (p : Program) : p.funcs = p.items.filterMap Item.func? := by
  refine congrArg (p.items.filterMap ·) (funext fun i => ?_)
  cases i <;> rfl

/-- Code can be generated for the program, room permitting. -/
structure Program.Ready (p : Program) : Prop where
  bound : ∀ i ∈ p.items, i.isBound = true
  placed : ∀ i ∈ p.items, i.isPlaced = true
  distinct : (p.funcs.map Func.tableName).Nodup

end GraalScript
