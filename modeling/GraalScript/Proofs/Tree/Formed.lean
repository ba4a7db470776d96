import GraalScript.Proofs.Token.Written
import GraalScript.Proofs.Tree.Parts
import GraalScript.Tree.Parser.Expr

/-! The trees that can be read. An expression or a statement is formed with `n` levels below the one
it starts on; parts that are read one level deeper are formed with fewer. What follows an operator
in a loop, such as the left side of a binary operator, is read on the level of the whole. -/
namespace GraalScript

open Lexer GraalScript.Parser

namespace Expr

inductive Formed : Nat → Expr → Prop
  | literal {n line : Nat} {value : Literal} (written : value.Written) :
      Formed n (.literal line value)
  | name {n line : Nat} {x : String} (isName : IsName x) : Formed n (.name line x .unresolved)
  | member {n line : Nat} {object : Expr} {field : Ident} (first : Formed n object)
      (isName : IsName field.name) : Formed n (.member line object field)
  | index {n m line : Nat} {object i : Expr} (first : Formed n object) (inside : Formed m i)
      (less : m < n) :
      Formed n (.index line object i)
  | call {n m line : Nat} {callee : Expr} {args : List Expr} (first : Formed n callee)
      (inside : ∀ a ∈ args, Formed m a) (less : ∀ a ∈ args, m < n) :
        Formed n (.call line callee args)
  | array {n m line : Nat} {items : List Expr} (inside : ∀ a ∈ items, Formed m a)
      (less : ∀ a ∈ items, m < n) :
      Formed n (.array line items)
  | unary {n m line : Nat} {op : UnaryOp} {operand : Expr} (inside : Formed m operand)
      (less : m < n) :
      Formed n (.unary line op operand)
  | stepBefore {n m line : Nat} {op : StepOp} {target : Expr} (inside : Formed m target)
      (less : m < n)
      (assignable : target.isAssignable = true) : Formed n (.step line op true target)
  | stepAfter {n line : Nat} {op : StepOp} {target : Expr} (first : Formed n target)
      (assignable : target.isAssignable = true) : Formed n (.step line op false target)
  | binary {n m line : Nat} {op : BinaryOp} {lhs rhs : Expr} (first : Formed n lhs)
      (inside : Formed m rhs)
      (less : m < n) : Formed n (.binary line op lhs rhs)
  | logical {n m line : Nat} {op : LogicalOp} {lhs rhs : Expr} (first : Formed n lhs)
      (inside : Formed m rhs)
      (less : m < n) : Formed n (.logical line op lhs rhs)
  | assign {n m line : Nat} {kind : TokenKind} {op : Option BinaryOp} {target value : Expr}
      (operator : assignment? kind = some op) (first : Formed n target)
      (assignable : target.isAssignable = true) (inside : Formed m value) (less : m < n) :
      Formed n (.assign line op target value)
  | ternary {n m line : Nat} {cond yes no : Expr} (first : Formed n cond) (inYes : Formed m yes)
      (inNo : Formed m no) (less : m < n) : Formed n (.ternary line cond yes no)
  | cast {n m line : Nat} {kind : CastKind} {operand : Expr} (inside : Formed m operand)
      (less : m < n) :
      Formed n (.cast line kind operand)
  | inRange {n m line : Nat} {value lower upper : Expr} (first : Formed n value)
      (inLower : Formed m lower)
      (inUpper : Formed m upper) (less : m + 1 < n) : Formed n (.inRange line value lower upper)
  | inObject {n m line : Nat} {value object : Expr} (first : Formed n value)
      (inside : Formed m object)
      (less : m < n) : Formed n (.inObject line value object)
  | new {n m line : Nat} {cls : Ident} {args : List Expr} (isName : IsName cls.name)
      (inside : ∀ a ∈ args, Formed m a) (less : ∀ a ∈ args, m < n) : Formed n (.new line cls args)
  | newArray {n line : Nat} {dims : List UInt32} (nonempty : dims ≠ []) :
      Formed n (.newArray line dims)

theorem Formed.mono {n n' : Nat} {e : Expr} (h : e.Formed n) (le : n ≤ n') : e.Formed n' := by
  induction h generalizing n' with
  | literal written => exact .literal written
  | name isName => exact .name isName
  | member _ isName object => exact .member (object le) isName
  | index _ inside less object _ => exact .index (object le) inside (Nat.lt_of_lt_of_le less le)
  | call _ inside less callee _ =>
    exact .call (callee le) inside fun a ha => Nat.lt_of_lt_of_le (less a ha) le
  | array inside less _ => exact .array inside fun a ha => Nat.lt_of_lt_of_le (less a ha) le
  | unary inside less _ => exact .unary inside (Nat.lt_of_lt_of_le less le)
  | stepBefore inside less assignable _ =>
    exact .stepBefore inside (Nat.lt_of_lt_of_le less le) assignable
  | stepAfter _ assignable target => exact .stepAfter (target le) assignable
  | binary _ inside less lhs _ => exact .binary (lhs le) inside (Nat.lt_of_lt_of_le less le)
  | logical _ inside less lhs _ => exact .logical (lhs le) inside (Nat.lt_of_lt_of_le less le)
  | assign operator _ assignable inside less target _ =>
    exact .assign operator (target le) assignable inside (Nat.lt_of_lt_of_le less le)
  | ternary _ yes no less cond _ _ => exact .ternary (cond le) yes no (Nat.lt_of_lt_of_le less le)
  | cast inside less _ => exact .cast inside (Nat.lt_of_lt_of_le less le)
  | inRange _ lower upper less value _ _ =>
    exact .inRange (value le) lower upper (Nat.lt_of_lt_of_le less le)
  | inObject _ inside less value _ => exact .inObject (value le) inside (Nat.lt_of_lt_of_le less le)
  | new isName inside less _ =>
    exact .new isName inside fun a ha => Nat.lt_of_lt_of_le (less a ha) le
  | newArray nonempty => exact .newArray nonempty

/-- Read one level below a place with `n` levels left. -/
def Deeper (n : Nat) (e : Expr) : Prop := ∃ m < n, e.Formed m

theorem Deeper.formed {n : Nat} {e : Expr} (h : e.Deeper n) : e.Formed n := by
  obtain ⟨m, less, formed⟩ := h
  exact formed.mono (Nat.le_of_lt less)

theorem Deeper.mono {n n' : Nat} {e : Expr} (h : e.Deeper n) (le : n ≤ n') : e.Deeper n' := by
  obtain ⟨m, less, formed⟩ := h
  exact ⟨m, Nat.lt_of_lt_of_le less le, formed⟩

theorem Deeper.pred {n : Nat} {e : Expr} (h : e.Deeper n) : n - 1 < n ∧ e.Formed (n - 1) := by
  obtain ⟨m, less, formed⟩ := h
  exact ⟨by omega, formed.mono (by omega)⟩

theorem exists_level {n : Nat} {es : List Expr} (h : ∀ e ∈ es, e.Deeper n) :
    ∃ m, (∀ e ∈ es, e.Formed m) ∧ ∀ e ∈ es, m < n :=
  ⟨n - 1, fun e inside => (h e inside).pred.2, fun e inside => (h e inside).pred.1⟩

end Expr

structure VarDecl.Formed (n : Nat) (decl : VarDecl) : Prop where
  nonempty : decl.defs ≠ []
  names : ∀ d ∈ decl.defs, IsName d.name.name
  values : ∀ d ∈ decl.defs, ∀ e ∈ d.value, e.Deeper n

theorem VarDecl.Formed.mono {n n' : Nat} {decl : VarDecl} (h : decl.Formed n) (le : n ≤ n') :
    decl.Formed n' :=
  ⟨h.nonempty, h.names, fun d hd e he => (h.values d hd e he).mono le⟩

def ForInit.Formed (n : Nat) : ForInit → Prop
  | vars decl => decl.Formed n
  | expr e => e.Deeper n

theorem ForInit.Formed.mono {n n' : Nat} {i : ForInit} (h : i.Formed n) (le : n ≤ n') :
    i.Formed n' := by
  cases i with
  | vars decl => exact VarDecl.Formed.mono h le
  | expr e => exact Expr.Deeper.mono h le

structure Case.HeadFormed (n : Nat) (c : Case) : Prop where
  nonempty : c.labels ≠ []
  labels : ∀ label ∈ c.labels, ∀ e ∈ label, e.Deeper n

theorem Case.HeadFormed.mono {n n' : Nat} {c : Case} (h : c.HeadFormed n) (le : n ≤ n') :
    c.HeadFormed n' :=
  ⟨h.nonempty, fun label hl e he => (h.labels label hl e he).mono le⟩

/-- Labels without statements behind them stand only at the end of a switch, and one body is the
default. -/
structure Case.Grouped (cases : List Case) : Prop where
  bodies : ∀ c ∈ cases.dropLast, c.body ≠ []
  default : cases.countP Case.isDefault ≤ 1

namespace Stmt

/-- An else behind the statement would belong to it. -/
def isOpen : Stmt → Bool
  | ifThen .. => true
  | ifElse _ _ _ no => no.isOpen
  | whileLoop _ _ body | forLoop _ _ _ _ body | forEach _ _ _ _ _ body | withObject _ _ body =>
    body.isOpen
  | _ => false

inductive Formed : Nat → Stmt → Prop
  | block {n m line : Nat} {body : List Stmt} (inside : ∀ s ∈ body, Formed m s)
      (less : ∀ s ∈ body, m < n) :
      Formed n (.block line body)
  | ifThen {n m line : Nat} {cond : Expr} {yes : Stmt} (head : cond.Deeper n)
      (inside : Formed m yes)
      (less : m < n) : Formed n (.ifThen line cond yes)
  | ifElse {n m line : Nat} {cond : Expr} {yes no : Stmt} (head : cond.Deeper n)
      (inYes : Formed m yes) (closed : yes.isOpen = false) (inNo : Formed m no) (less : m < n) :
      Formed n (.ifElse line cond yes no)
  | whileLoop {n m line : Nat} {cond : Expr} {body : Stmt} (head : cond.Deeper n)
      (inside : Formed m body) (less : m < n) : Formed n (.whileLoop line cond body)
  | forLoop {n m line : Nat} {init : Option ForInit} {cond step : Option Expr} {body : Stmt}
      (first : ∀ i ∈ init, i.Formed n) (test : ∀ e ∈ cond, e.Deeper n)
      (next : ∀ e ∈ step, e.Deeper n) (inside : Formed m body) (less : m < n) :
      Formed n (.forLoop line init cond step body)
  | forEach {n m line : Nat} {declared : Bool} {item : String} {iterable : Expr} {body : Stmt}
      (isName : IsName item) (head : iterable.Deeper n) (inside : Formed m body) (less : m < n) :
      Formed n (.forEach line declared item .unresolved iterable body)
  | withObject {n m line : Nat} {object : Expr} {body : Stmt} (head : object.Deeper n)
      (inside : Formed m body) (less : m < n) : Formed n (.withObject line object body)
  | switch {n m line : Nat} {value : Expr} {cases : List Case} (head : value.Deeper n)
      (labels : ∀ c ∈ cases, c.HeadFormed n) (grouped : Case.Grouped cases)
      (inside : ∀ c ∈ cases, ∀ s ∈ c.body, Formed m s) (less : ∀ c ∈ cases, ∀ s ∈ c.body, m < n) :
      Formed n (.switch line value cases)
  | new {n m line bodyLine : Nat} {cls : Ident} {name : Expr} {body : List Stmt}
      (isName : IsName cls.name)
      (head : name.Deeper n) (inside : ∀ s ∈ body, Formed m s) (less : ∀ s ∈ body, m < n) :
      Formed n (.new line cls name bodyLine body)
  | ret {n line : Nat} {value : Option Expr} (head : ∀ e ∈ value, e.Deeper n) :
      Formed n (.ret line value)
  | breakOut {n line : Nat} : Formed n (.breakOut line)
  | continueLoop {n line : Nat} : Formed n (.continueLoop line)
  | vars {n : Nat} {decl : VarDecl} (formed : decl.Formed n) : Formed n (.vars decl)
  | const {n line : Nat} {name : Ident} {value : Expr} (isName : IsName name.name)
      (head : value.Deeper n) :
      Formed n (.const line name value)
  | expr {n : Nat} {e : Expr} (formed : e.Formed n) : Formed n (.expr e)
  | empty {n line : Nat} : Formed n (.empty line)

theorem Formed.mono {n n' : Nat} {s : Stmt} (h : s.Formed n) (le : n ≤ n') : s.Formed n' := by
  cases h with
  | block inside less => exact .block inside fun s hs => Nat.lt_of_lt_of_le (less s hs) le
  | ifThen head inside less => exact .ifThen (head.mono le) inside (Nat.lt_of_lt_of_le less le)
  | ifElse head inYes closed inNo less =>
    exact .ifElse (head.mono le) inYes closed inNo (Nat.lt_of_lt_of_le less le)
  | whileLoop head inside less =>
    exact .whileLoop (head.mono le) inside (Nat.lt_of_lt_of_le less le)
  | forLoop first test next inside less =>
    exact .forLoop (fun i hi => (first i hi).mono le) (fun e he => (test e he).mono le)
      (fun e he => (next e he).mono le) inside (Nat.lt_of_lt_of_le less le)
  | forEach isName head inside less =>
    exact .forEach isName (head.mono le) inside (Nat.lt_of_lt_of_le less le)
  | withObject head inside less =>
    exact .withObject (head.mono le) inside (Nat.lt_of_lt_of_le less le)
  | switch head labels grouped inside less =>
    exact .switch (head.mono le) (fun c hc => (labels c hc).mono le) grouped inside
      fun c hc s hs => Nat.lt_of_lt_of_le (less c hc s hs) le
  | new isName head inside less =>
    exact .new isName (head.mono le) inside fun s hs => Nat.lt_of_lt_of_le (less s hs) le
  | ret head => exact .ret fun e he => (head e he).mono le
  | breakOut => exact .breakOut
  | continueLoop => exact .continueLoop
  | vars formed => exact .vars (formed.mono le)
  | const isName head => exact .const isName (head.mono le)
  | expr formed => exact .expr (formed.mono le)
  | empty => exact .empty

def Deeper (n : Nat) (s : Stmt) : Prop := ∃ m < n, s.Formed m

theorem Deeper.pred {n : Nat} {s : Stmt} (h : s.Deeper n) : n - 1 < n ∧ s.Formed (n - 1) := by
  obtain ⟨m, less, formed⟩ := h
  exact ⟨by omega, formed.mono (by omega)⟩

theorem exists_level {n : Nat} {ss : List Stmt} (h : ∀ s ∈ ss, s.Deeper n) :
    ∃ m, (∀ s ∈ ss, s.Formed m) ∧ ∀ s ∈ ss, m < n :=
  ⟨n - 1, fun s inside => (h s inside).pred.2, fun s inside => (h s inside).pred.1⟩

end Stmt

structure Func.Formed (n : Nat) (f : Func) : Prop where
  object : ∀ id ∈ f.object, IsName id.name
  name : IsName f.name.name
  params : ∀ id ∈ f.params, IsName id.name
  body : ∀ s ∈ f.body.body, s.Deeper n

def Item.Formed (n : Nat) : Item → Prop
  | func f => f.Formed n
  | stmt s => s.Deeper n

/-- Only the mark can stand alone, and it stands between the items. -/
structure Program.Formed (n : Nat) (p : Program) : Prop where
  items : ∀ i ∈ p.items, i.Formed n
  nonempty : p.items = [] → p.clientside ≠ none
  clientside : ∀ k ∈ p.clientside, k ≤ p.items.length

/-! Parts of what is formed are formed. -/

namespace Expr

theorem Formed.of_child {n : Nat} {e child : Expr} (h : e.Formed n) (mem : child ∈ e.children) :
    ∃ m, child.Formed m := by
  cases h with
  | literal | name | newArray => cases mem
  | member first | stepAfter first => exact ⟨n, List.mem_singleton.mp mem ▸ first⟩
  | unary inside | stepBefore inside | cast inside => exact ⟨_, List.mem_singleton.mp mem ▸ inside⟩
  | call first inside =>
    rcases List.mem_cons.mp mem with rfl | arg
    · exact ⟨n, first⟩
    · exact ⟨_, inside child arg⟩
  | array inside => exact ⟨_, inside child mem⟩
  | new _ inside =>
    rw [children] at mem
    split at mem
    · exact ⟨_, inside child mem⟩
    · cases mem
  | index first inside | binary first inside | logical first inside | assign _ first _ inside
  | inObject first inside =>
    rcases List.mem_pair.mp mem with rfl | rfl
    · exact ⟨n, first⟩
    · exact ⟨_, inside⟩
  | ternary first inYes inNo | inRange first inYes inNo =>
    rcases List.mem_cons.mp mem with rfl | mem
    · exact ⟨n, first⟩
    · rcases List.mem_pair.mp mem with rfl | rfl
      · exact ⟨_, inYes⟩
      · exact ⟨_, inNo⟩

theorem Formed.of_part {n : Nat} {e part : Expr} (h : e.Formed n) (inside : part.Part e) :
    ∃ m, part.Formed m := by
  induction inside generalizing n with
  | refl => exact ⟨n, h⟩
  | tail _ mem ih =>
    obtain ⟨m, formed⟩ := h.of_child mem
    exact ih formed

end Expr

namespace Stmt

theorem Formed.of_child {n : Nat} {s child : Stmt} (h : s.Formed n) (mem : child ∈ s.children) :
    ∃ m, child.Formed m := by
  cases h with
  | block inside | new _ _ inside => exact ⟨_, inside child mem⟩
  | ifThen _ inside | whileLoop _ inside | forLoop _ _ _ inside | forEach _ _ inside
  | withObject _ inside =>
    exact ⟨_, List.mem_singleton.mp mem ▸ inside⟩
  | ifElse _ inYes _ inNo =>
    rcases List.mem_pair.mp mem with rfl | rfl
    · exact ⟨_, inYes⟩
    · exact ⟨_, inNo⟩
  | switch _ _ _ inside =>
    obtain ⟨c, hc, hs⟩ := List.mem_flatMap.mp mem
    exact ⟨_, inside c hc child hs⟩
  | _ => cases mem

theorem Formed.of_part {n : Nat} {s part : Stmt} (h : s.Formed n) (inside : part.Part s) :
    ∃ m, part.Formed m := by
  induction inside generalizing n with
  | refl => exact ⟨n, h⟩
  | tail _ mem ih =>
    obtain ⟨m, formed⟩ := h.of_child mem
    exact ih formed

end Stmt

theorem Program.Formed.of_mem_stmts {n : Nat} {p : Program} {s : Stmt} (h : p.Formed n)
    (mem : s ∈ p.stmts) : ∃ m, s.Formed m := by
  obtain ⟨i, hi, hs⟩ := List.mem_flatMap.mp mem
  have inside := h.items i hi
  cases i with
  | func f =>
    obtain ⟨m, -, formed⟩ := inside.body s hs
    exact ⟨m, formed⟩
  | stmt t =>
    cases List.mem_singleton.mp hs
    obtain ⟨m, -, formed⟩ := inside
    exact ⟨m, formed⟩

end GraalScript
