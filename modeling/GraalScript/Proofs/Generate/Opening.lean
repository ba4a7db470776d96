import GraalScript.Proofs.Generate.Fits
import GraalScript.Proofs.Generate.ProgramLayout

/-! How pieces of code begin. The operation that announces calls stands inside loops and behind the
start of a function only, so no expression and no statement begins with it. -/
namespace GraalScript

/-- The operation at the start of a piece of code, if it has one, does not announce calls. -/
def Slot.opens (code : List Slot) : Bool := code.head?.all (·.op != .cmdCall)

theorem Slot.opens_append {x y : List Slot} (first : opens x = true) (second : opens y = true) :
    opens (x ++ y) = true := by
  cases x with
  | nil => exact second
  | cons s x => exact first

namespace Layout

variable {a b c : Layout}

def Opens (a : Layout) : Prop := ∀ n last, Slot.opens (a n last) = true

theorem opens_nil : nil.Opens := fun _ _ => rfl

theorem opens_one {s : Slot} (h : (s.op != .cmdCall) = true) : (one s).Opens := fun _ _ => h

theorem Opens.append (first : a.Opens) (second : b.Opens) : (a ++ b).Opens :=
  fun n last => Slot.opens_append (first n last) (second _ _)

theorem Opens.op (first : a.Opens) {o : Opcode} (h : (o != .cmdCall) = true) :
    (a ++ Layout.op o).Opens :=
  first.append (opens_one h)

theorem opens_all {as : List Layout} (h : ∀ a ∈ as, a.Opens) : (all as).Opens := by
  induction as with
  | nil => exact opens_nil
  | cons a as ih =>
    rw [List.forall_mem_cons] at h
    exact h.1.append (ih h.2)

theorem opens_behind {c : Option Opcode → Layout} (h : ∀ last, (c last).Opens) : (behind c).Opens :=
  fun n last => h last n last

theorem opens_ite {p : Prop} [Decidable p] (yes : a.Opens) (no : b.Opens) :
    (if p then a else b).Opens := by
  split
  · exact yes
  · exact no

theorem opens_elim {α : Type} (x : Option α) {c : α → Layout} (none : a.Opens)
    (some : ∀ y, (c y).Opens) : (x.elim a c).Opens := by
  cases x with
  | none => exact none
  | some y => exact some y

theorem opens_jumpOver {o : Opcode} (h : (o != .cmdCall) = true) : (jumpOver o a).Opens :=
  fun _ _ => h

theorem opens_branch {o : Opcode} (h : (o != .cmdCall) = true) (first : a.Opens) :
    (branch o a b c).Opens :=
  fun n last => Slot.opens_append (first n last) h

theorem opens_convert (want given : ValueType) : (convert want given).Opens := by
  unfold convert
  split <;> exact fun _ _ => rfl

theorem opens_toObject : toObject.Opens := opens_behind fun _ => opens_ite opens_nil (opens_one rfl)

theorem opens_literal (value : Literal) : (literal value).Opens := by
  unfold literal
  split <;> exact opens_one rfl

theorem opens_memberOf (name : String) : (memberOf name).Opens := (opens_one rfl).op rfl

theorem opens_localVar (name : String) : (localVar name).Opens :=
  (opens_one rfl).append (opens_memberOf name)

theorem opens_bound (name : String) (binding : Binding) : (bound name binding).Opens := by
  cases binding with
  | unresolved => exact opens_nil
  | constant value => exact opens_literal value.literal
  | localVar => exact opens_localVar name
  | builtin =>
    rw [bound]
    cases root : Opcode.ofRoot? name with
    | none => exact opens_one rfl
    | some o =>
      refine opens_one ?_
      unfold Opcode.ofRoot? at root
      split at root <;> cases root <;> rfl
  | objectVar | param | func => exact opens_one rfl

theorem opens_element (object : a.Opens) (index : b.Opens) (type : ValueType) :
    (element a b type).Opens :=
  (object.append index).append (opens_ite opens_nil (opens_one rfl))

theorem opens_binary (type : ValueType) (o : BinaryOp) (lhs : a.Opens) (rhs : b.Opens)
    (left right : ValueType) :
    (binary type o a b left right).Opens := by
  have operands := ((lhs.append (opens_convert type left)).append rhs).append
    (opens_convert type right)
  exact operands.op (by cases o <;> rfl)

theorem opens_test (value : a.Opens) (type : ValueType) : (test a type).Opens :=
  value.append (opens_behind fun _ => opens_ite opens_nil (opens_convert _ _))

theorem opens_step (o : StepOp) (before : Bool) (target : a.Opens) : (step o before a).Opens := by
  have made : (o.opcode != .cmdCall) = true := by cases o <;> rfl
  have copied : (op .copyLastOp ++ op .convToFloat ++ op .swapLastOps).Opens := fun _ _ => rfl
  exact target.append (opens_ite (opens_one made) ((copied.op made).op rfl))

theorem opens_assign (o : Option BinaryOp) {x : Option Layout} (place : ∀ y ∈ x, y.Opens)
    (target : a.Opens) (value : b.Opens) (left right : ValueType) :
    (assign o x a b left right).Opens := by
  have first : (x.getD a).Opens := by
    cases x with
    | none => exact target
    | some y => exact place y rfl
  refine (first.append ?_).op (by split <;> rfl)
  cases o with
  | none => exact value
  | some o => exact opens_binary _ o (opens_ite target (opens_one rfl)) value left right

theorem opens_receiver {o : Command} (mem : o ∈ Command.known) {x : Option Layout}
    (object : (x.getD nil).Opens) : (receiver o x).Opens := by
  have other : ∀ c ∈ Command.known, ∀ v ∈ c.convert, (v != .cmdCall) = true := by decide
  refine object.append ?_
  cases conversion : o.convert with
  | none => exact opens_nil
  | some v => exact opens_behind fun _ => opens_ite opens_nil (opens_one (other o mem v conversion))

theorem opens_arguments (o : Command) {as : List Layout} (args : ∀ a ∈ as, a.Opens) :
    (arguments o as).Opens :=
  opens_ite (opens_all args)
    (opens_ite (opens_one rfl) (opens_all fun a inside => args a (List.mem_reverse.mp inside)))

theorem opens_call {o : Command} (mem : o ∈ Command.known) {x : Option Layout} {as : List Layout}
    (object : (x.getD nil).Opens) (function : a.Opens) (args : ∀ a ∈ as, a.Opens) :
    (call o x a as).Opens := by
  have other : ∀ c ∈ Command.known, (c.op != .cmdCall) = true := by decide
  have received := opens_receiver mem object
  have front := (opens_ite (p := o.style.objectFirst = true) received opens_nil).append
    (opens_ite (p := o.style.useArray = true) (opens_one (s := .plain .typeArray) rfl) opens_nil)
  have middle := (front.append (opens_arguments o args)).append
    (opens_ite (p := o.style.objectFirst = true) opens_nil received)
  exact (middle.append (opens_ite function opens_nil)).op (other o mem)

theorem opens_newObject (cls : String) {as : List Layout} (args : ∀ a ∈ as, a.Opens) :
    (newObject cls as).Opens := by
  refine (Opens.append ?_ (opens_one rfl)).op rfl
  split
  next name => exact (args name List.mem_cons_self).op rfl
  next => exact opens_one rfl

theorem opens_newArray (dims : List UInt32) : (newArray dims).Opens := by
  cases dims with
  | nil => exact opens_nil
  | cons dim dims => exact fun _ _ => rfl

mutual

theorem opens_expr (e : Expr) : (expr e).Opens := by
  cases e with
  | literal _ value => exact opens_literal value
  | name _ name binding => exact opens_bound name binding
  | member _ object member =>
    exact ((opens_expr object).append opens_toObject).append (opens_memberOf _)
  | index _ object index => exact (opens_element (opens_expr object) (opens_expr index) _).op rfl
  | call _ callee args =>
    have function := opens_elim callee.memberName? (opens_expr callee) opens_memberOf
    exact opens_call callee.command_mem_known (opens_object? callee) function
      (opens_codesOnto args (List.forall_mem_nil _))
  | array _ items => exact fun _ _ => rfl
  | unary _ o operand => exact ((opens_expr operand).op rfl).op (by cases o <;> rfl)
  | step _ o before target => exact opens_step o before (opens_expr target)
  | binary _ o lhs rhs => exact opens_binary _ o (opens_expr lhs) (opens_expr rhs) _ _
  | logical _ o lhs rhs => exact opens_branch (by cases o <;> rfl) (opens_test (opens_expr lhs) _)
  | assign _ o target value =>
    exact (opens_assign o (opens_element? target) (opens_expr target) (opens_expr value) _ _).append
      (opens_expr target)
  | ternary _ cond yes no => exact opens_branch rfl (opens_test (opens_expr cond) _)
  | cast _ kind operand => exact (opens_expr operand).op (by cases kind <;> rfl)
  | inRange _ value lower upper =>
    have least :=
      ((opens_expr value).append (opens_expr lower)).append (opens_convert .number lower.valueType)
    exact ((least.append (opens_expr upper)).append (opens_convert _ _)).op rfl
  | inObject _ value object =>
    exact (((opens_expr value).append (opens_expr object)).append opens_toObject).op rfl
  | new _ cls args => exact opens_newObject cls.name (opens_codesOnto args (List.forall_mem_nil _))
  | newArray _ dims => exact opens_newArray dims

theorem opens_codesOnto {done : List Layout} (es : List Expr) (before : ∀ a ∈ done, a.Opens) :
    ∀ a ∈ codesOnto done es, a.Opens := by
  cases es with
  | nil => exact before
  | cons e es => exact opens_codesOnto es (List.forall_mem_cons.mpr ⟨opens_expr e, before⟩)

theorem opens_object? (e : Expr) : ((object? e).getD nil).Opens := by
  cases e with
  | member _ object _ => exact opens_expr object
  | _ => exact opens_nil

theorem opens_element? (e : Expr) : ∀ a ∈ element? e, a.Opens := by
  cases e with
  | index _ object index =>
    rintro _ ⟨⟩
    exact opens_element (opens_expr object) (opens_expr index) _
  | _ => exact fun _ inside => nomatch inside

end

theorem opens_condition (e : Expr) : (condition e).Opens := opens_test (opens_expr e) _

theorem opens_effect (e : Expr) : (effect e).Opens := by
  have dropped : (expr e ++ op .indexDec).Opens := (opens_expr e).op rfl
  cases e with
  | assign _ o target value =>
    exact opens_assign o (opens_element? target) (opens_expr target) (opens_expr value) _ _
  | step _ o _ target => exact ((opens_expr target).op (by cases o <;> rfl)).op rfl
  | call line callee args =>
    exact (opens_expr (.call line callee args)).append (opens_ite (opens_one rfl) opens_nil)
  | _ => exact dropped

theorem opens_loop {exit : Opcode} (h : (exit != .cmdCall) = true) (toHead : Bool)
    (head : a.Opens) : (loop a exit b c toHead).Opens :=
  fun n last => Slot.opens_append (head n last) h

theorem opens_varDecl (decl : VarDecl) : (varDecl decl).Opens := by
  refine opens_all fun a inside => ?_
  obtain ⟨d, -, rfl⟩ := List.mem_map.mp inside
  exact fun _ _ => rfl

theorem opens_forInit (init : ForInit) : (forInit init).Opens := by
  cases init with
  | vars decl => exact opens_varDecl decl
  | expr e => exact opens_effect e

theorem opens_continueLoop (switches : Nat) : (continueLoop switches).Opens := by
  refine (opens_all fun a inside => ?_).append (opens_one rfl)
  rw [List.eq_of_mem_replicate inside]
  exact opens_one rfl

theorem opens_newControl (cls : String) (name : a.Opens) : (newControl a cls b).Opens := by
  simp only [newControl, append_assoc]
  exact name.append fun _ _ => rfl

mutual

/-- No statement begins with the operation that announces calls. -/
theorem opens_stmt (switches : Nat) (s : Stmt) : (stmt switches s).Opens := by
  cases s with
  | block _ body => exact opens_stmts switches body
  | ifThen _ cond yes => exact (opens_condition cond).append (opens_jumpOver rfl)
  | ifElse _ cond yes no => exact opens_branch rfl (opens_condition cond)
  | whileLoop _ cond body => exact opens_loop rfl true (opens_condition cond)
  | forLoop _ init cond step body =>
    refine (opens_elim init opens_nil opens_forInit).append (opens_loop rfl false ?_)
    exact opens_elim cond (opens_one rfl) opens_condition
  | forEach _ _ item binding iterable body =>
    have front :=
      (((opens_bound item binding).append (opens_expr iterable)).op (o := .convToObject) rfl).append
      (opens_one (s := .number 0) rfl)
    exact (front.append (opens_loop rfl false opens_nil)).op rfl
  | withObject _ object body => exact (opens_expr object).append fun _ _ => rfl
  | switch _ value cases => exact fun _ _ => rfl
  | new _ cls name _ body => exact opens_newControl cls.name (opens_expr name)
  | ret _ value => exact (opens_elim value (opens_one rfl) opens_expr).op rfl
  | breakOut _ => exact opens_one rfl
  | continueLoop _ => exact opens_continueLoop switches
  | vars decl => exact opens_varDecl decl
  | expr e => exact opens_effect e
  | const | empty => exact opens_nil

theorem opens_stmts (switches : Nat) (ss : List Stmt) : (stmts switches ss).Opens := by
  cases ss with
  | nil => exact opens_nil
  | cons s ss => exact (opens_stmt switches s).append (opens_stmts switches ss)

end

theorem exists_op_behind_jmp (body : List Stmt) (n : Nat) :
    ∃ s rest, (stmts 0 body ++ ending body) n (some .jmp) = s :: rest ∧ s.op ≠ .cmdCall := by
  have closing : (ending body).Opens := opens_behind fun _ => opens_ite opens_nil fun _ _ => rfl
  have opened := (opens_stmts 0 body).append closing n (some .jmp)
  cases code : (stmts 0 body ++ ending body) n (some .jmp) with
  | nil =>
    -- An empty body does not end with a return, so that one is written behind it.
    obtain ⟨empty, ended⟩ := List.append_eq_nil_iff.mp code
    rw [empty] at ended
    simp [ending, behind, append_apply, one] at ended
  | cons s rest =>
    rw [code] at opened
    exact ⟨s, rest, rfl, bne_iff_ne.mp opened⟩

end Layout

end GraalScript
