import GraalScript.Proofs.Generate.ProgramLayout
import GraalScript.Proofs.Scope.Spelled

/-! The texts of a layout are those of its tree and a few names that the generator writes itself. -/
namespace GraalScript

variable {P : String → Prop}

namespace Slot

/-- Numbers have no zero character, and texts of the pool satisfy `P`. -/
def Spelled (P : String → Prop) : Slot → Prop
  | decimal digits => Text.ZeroFree digits
  | text _ t => P t
  | _ => True

theorem Spelled.settle {s : Slot} (h : s.Spelled P) (w : Wait) (target : Nat) :
    (s.settle w target).Spelled P := by
  cases s with
  | waits op v =>
    rw [Slot.settle]
    split <;> trivial
  | _ => exact h

end Slot

theorem Constant.spelled_literal {c : Constant} (h : c.Spelled P) : c.literal.Spelled P := by
  cases c with
  | number x =>
    obtain ⟨-, int⟩ | ⟨-, float⟩ := literal_number x
    · rw [int]
      trivial
    · rw [float]
      exact Number.zeroFree_render x
  | text s => exact h

theorem Case.labels_of_spelled {c : Case} (h : c.Spelled P) :
    ∀ label ∈ c.labels, ∀ e ∈ label, e.Spelled P := by
  cases c with
  | mk line labels body => exact h.1

namespace Layout

variable {a b c : Layout}

def Spelled (P : String → Prop) (a : Layout) : Prop := ∀ n last, ∀ s ∈ a n last, s.Spelled P

theorem spelled_nil : nil.Spelled P := fun _ _ _ inside => nomatch inside

theorem spelled_one {s : Slot} (h : s.Spelled P) : (one s).Spelled P := by
  intro n last t inside
  cases List.mem_singleton.mp inside
  exact h

theorem spelled_number (n : UInt32) : (one (.number n)).Spelled P := spelled_one trivial

theorem spelled_op (o : Opcode) : (op o).Spelled P := spelled_one trivial

theorem Spelled.append (first : a.Spelled P) (second : b.Spelled P) : (a ++ b).Spelled P := by
  intro n last
  rw [append_apply, List.forall_mem_append]
  exact ⟨first _ _, second _ _⟩

theorem Spelled.op (first : a.Spelled P) (o : Opcode) : (a ++ Layout.op o).Spelled P :=
  first.append (spelled_op o)

theorem spelled_all {as : List Layout} (h : ∀ a ∈ as, a.Spelled P) : (all as).Spelled P := by
  induction as with
  | nil => exact spelled_nil
  | cons a as ih =>
    rw [List.forall_mem_cons] at h
    exact h.1.append (ih h.2)

theorem spelled_behind {c : Option Opcode → Layout} (h : ∀ last, (c last).Spelled P) :
    (behind c).Spelled P := fun n last => h last n last

theorem spelled_ite {p : Prop} [Decidable p] (yes : a.Spelled P) (no : b.Spelled P) :
    (if p then a else b).Spelled P := by
  split
  · exact yes
  · exact no

theorem spelled_elim {α : Type} {x : Option α} {c : α → Layout} (none : a.Spelled P)
    (some : ∀ y ∈ x, (c y).Spelled P) : (x.elim a c).Spelled P := by
  cases x with
  | none => exact none
  | some y => exact some y rfl

theorem spelled_getD {x : Option Layout} (given : ∀ y ∈ x, y.Spelled P) (default : a.Spelled P) :
    (x.getD a).Spelled P := by
  cases x with
  | none => exact default
  | some y => exact given y rfl

theorem spelled_convert (want given : ValueType) : (convert want given).Spelled P := by
  unfold convert
  split <;> first | exact spelled_nil | exact spelled_op _

theorem spelled_toObject : toObject.Spelled P :=
  spelled_behind fun _ => spelled_ite spelled_nil (spelled_op _)

theorem spelled_literal {value : Literal} (h : value.Spelled P) : (literal value).Spelled P := by
  unfold literal
  split
  · exact spelled_one trivial
  · exact spelled_one h
  · exact spelled_one h
  iterate 3 exact spelled_op _

theorem spelled_jumpOver (o : Opcode) (h : a.Spelled P) : (jumpOver o a).Spelled P := by
  intro n last
  rw [jumpOver, List.forall_mem_cons]
  exact ⟨trivial, h _ _⟩

theorem spelled_branch (o : Opcode) (first : a.Spelled P) (second : b.Spelled P)
    (third : c.Spelled P) : (branch o a b c).Spelled P := by
  intro n last
  simp only [branch, List.forall_mem_append, List.forall_mem_cons]
  exact ⟨first _ _, trivial, second _ _, trivial, third _ _⟩

theorem spelled_element (object : a.Spelled P) (index : b.Spelled P) (type : ValueType) :
    (element a b type).Spelled P :=
  (object.append index).append (spelled_ite spelled_nil (spelled_op _))

theorem spelled_binary (type : ValueType) (o : BinaryOp) (lhs : a.Spelled P) (rhs : b.Spelled P)
    (left right : ValueType) : (binary type o a b left right).Spelled P :=
  (((lhs.append (spelled_convert _ _)).append rhs).append (spelled_convert _ _)).op _

theorem spelled_test (value : a.Spelled P) (type : ValueType) : (test a type).Spelled P :=
  value.append (spelled_behind fun _ => spelled_ite spelled_nil (spelled_convert _ _))

theorem spelled_step (o : StepOp) (before : Bool) (target : a.Spelled P) :
    (step o before a).Spelled P :=
  target.append (spelled_ite (spelled_op _) (((((spelled_op _).op _).op _).op _).op _))

theorem spelled_assign (o : Option BinaryOp) {x : Option Layout} (place : ∀ y ∈ x, y.Spelled P)
    (target : a.Spelled P) (value : b.Spelled P) (targetType valueType : ValueType) :
    (assign o x a b targetType valueType).Spelled P := by
  refine ((spelled_getD place target).append ?_).op _
  cases o with
  | none => exact value
  | some o => exact spelled_binary _ o (spelled_ite target (spelled_op _)) value _ _

theorem spelled_receiver (o : Command) {x : Option Layout} (object : ∀ y ∈ x, y.Spelled P) :
    (receiver o x).Spelled P := by
  refine (spelled_getD object spelled_nil).append ?_
  split
  · exact spelled_nil
  · exact spelled_behind fun _ => spelled_ite spelled_nil (spelled_op _)

theorem spelled_newArray (dims : List UInt32) : (newArray dims).Spelled P := by
  cases dims with
  | nil => exact spelled_nil
  | cons dim dims =>
    refine ((spelled_number _).op _).append (spelled_all fun a inside => ?_)
    obtain ⟨dim, _, rfl⟩ := List.mem_map.mp inside
    exact (spelled_number _).op _

section words

variable (admits : Text.Admits P)

include admits

theorem spelled_word (o : Opcode) {name : String} (h : Text.ZeroFree name) :
    (one (.text o name)).Spelled P := spelled_one (admits.of_zeroFree name h)

theorem spelled_memberOf {name : String} (h : Text.ZeroFree name) : (memberOf name).Spelled P :=
  (spelled_word admits _ h).op _

theorem spelled_localVar {name : String} (h : Text.ZeroFree name) : (localVar name).Spelled P :=
  (spelled_op _).append (spelled_memberOf admits h)

theorem spelled_bound {name : String} (h : Text.ZeroFree name) {binding : Binding}
    (hb : binding.Spelled P) : (bound name binding).Spelled P := by
  cases binding with
  | unresolved => exact spelled_nil
  | constant value => exact spelled_literal (Constant.spelled_literal hb)
  | localVar => exact spelled_localVar admits h
  | builtin => exact spelled_elim (spelled_word admits _ h) fun o _ => spelled_op o
  | objectVar | param | func => exact spelled_word admits _ h

theorem spelled_arguments (o : Command) {as : List Layout} (args : ∀ a ∈ as, a.Spelled P) :
    (arguments o as).Spelled P := by
  have separators : (one (.text .typeString Command.defaultSeparators)).Spelled P :=
    spelled_word admits _ (by decide)
  have reversed : ∀ a ∈ as.reverse, a.Spelled P :=
    fun a inside => args a (List.mem_reverse.mp inside)
  exact spelled_ite (spelled_all args) (spelled_ite separators (spelled_all reversed))

theorem spelled_call (o : Command) {x : Option Layout} {as : List Layout}
    (object : ∀ y ∈ x, y.Spelled P) (function : a.Spelled P) (args : ∀ a ∈ as, a.Spelled P) :
    (call o x a as).Spelled P := by
  have received := spelled_receiver o object
  have front := (spelled_ite (p := o.style.objectFirst = true) received spelled_nil).append
    (spelled_ite (p := o.style.useArray = true) (spelled_op .typeArray) spelled_nil)
  have middle := (front.append (spelled_arguments admits o args)).append
    (spelled_ite (p := o.style.objectFirst = true) spelled_nil received)
  exact (middle.append (spelled_ite function spelled_nil)).op _

theorem spelled_newObject {cls : String} (h : Text.ZeroFree cls) {as : List Layout}
    (args : ∀ a ∈ as, a.Spelled P) : (newObject cls as).Spelled P := by
  refine (Spelled.append ?_ (spelled_word admits _ h)).op _
  split
  · exact (args _ List.mem_cons_self).op _
  · exact spelled_word admits _ (by decide)

end words

theorem zeroFree_memberName? {e : Expr} (h : e.Spelled P) :
    ∀ name ∈ e.memberName?, Text.ZeroFree name := by
  cases e with
  | member line object id =>
    rintro _ ⟨⟩
    exact h.2
  | _ => exact fun _ inside => nomatch inside

mutual

theorem spelled_expr (admits : Text.Admits P) (e : Expr) (h : e.Spelled P) :
    (expr e).Spelled P := by
  cases e with
  | literal _ value => exact spelled_literal h
  | name _ name binding => exact spelled_bound admits h.1 h.2
  | member _ object member =>
    exact ((spelled_expr admits object h.1).append spelled_toObject).append
      (spelled_memberOf admits h.2)
  | index _ object index =>
    exact (spelled_element (spelled_expr admits object h.1) (spelled_expr admits index h.2) _).op _
  | call _ callee args =>
    have function := spelled_elim (spelled_expr admits callee h.1)
      fun name inside => spelled_memberOf admits (zeroFree_memberName? h.1 name inside)
    exact spelled_call admits _ (spelled_object? admits callee h.1) function
      (spelled_codesOnto admits args h.2 (List.forall_mem_nil _))
  | array _ items =>
    have codes := spelled_codesOnto admits items h (List.forall_mem_nil _)
    exact ((spelled_op _).append (spelled_all codes)).op _
  | unary _ o operand => exact ((spelled_expr admits operand h).op _).op _
  | step _ o before target => exact spelled_step o before (spelled_expr admits target h)
  | binary _ o lhs rhs =>
    exact spelled_binary _ o (spelled_expr admits lhs h.1) (spelled_expr admits rhs h.2) _ _
  | logical _ o lhs rhs =>
    refine spelled_branch o.jump ?_ ?_ (spelled_op _)
    · exact spelled_test (spelled_expr admits lhs h.1) _
    · exact spelled_test (spelled_expr admits rhs h.2) _
  | assign _ o target value =>
    have place := spelled_expr admits target h.1
    refine Spelled.append ?_ place
    exact spelled_assign o (spelled_element? admits target h.1) place
      (spelled_expr admits value h.2) _ _
  | ternary _ cond yes no =>
    refine spelled_branch .ifThen ?_ (spelled_expr admits yes h.2.1) (spelled_expr admits no h.2.2)
    exact spelled_test (spelled_expr admits cond h.1) _
  | cast _ kind operand => exact (spelled_expr admits operand h).op _
  | inRange _ value lower upper =>
    have least := (spelled_expr admits value h.1).append (spelled_expr admits lower h.2.1)
    exact (((least.append (spelled_convert _ _)).append (spelled_expr admits upper h.2.2)).append
      (spelled_convert _ _)).op _
  | inObject _ value object =>
    have both := (spelled_expr admits value h.1).append (spelled_expr admits object h.2)
    exact (both.append spelled_toObject).op _
  | new _ cls args =>
    exact spelled_newObject admits h.1 (spelled_codesOnto admits args h.2 (List.forall_mem_nil _))
  | newArray _ dims => exact spelled_newArray dims

theorem spelled_codesOnto (admits : Text.Admits P) {done : List Layout} (es : List Expr)
    (h : Expr.AllSpelled P es) (before : ∀ a ∈ done, a.Spelled P) :
    ∀ a ∈ codesOnto done es, a.Spelled P := by
  cases es with
  | nil => exact before
  | cons e es =>
    have more := List.forall_mem_cons.mpr ⟨spelled_expr admits e h.1, before⟩
    exact spelled_codesOnto admits es h.2 more

theorem spelled_object? (admits : Text.Admits P) (e : Expr) (h : e.Spelled P) :
    ∀ a ∈ object? e, a.Spelled P := by
  cases e with
  | member _ object _ =>
    rintro _ ⟨⟩
    exact spelled_expr admits object h.1
  | _ => exact fun _ inside => nomatch inside

theorem spelled_element? (admits : Text.Admits P) (e : Expr) (h : e.Spelled P) :
    ∀ a ∈ element? e, a.Spelled P := by
  cases e with
  | index _ object index =>
    rintro _ ⟨⟩
    exact spelled_element (spelled_expr admits object h.1) (spelled_expr admits index h.2) _
  | _ => exact fun _ inside => nomatch inside

end

section statements

variable (admits : Text.Admits P)

include admits

theorem spelled_condition {e : Expr} (h : e.Spelled P) : (condition e).Spelled P :=
  spelled_test (spelled_expr admits e h) _

theorem spelled_effect {e : Expr} (h : e.Spelled P) : (effect e).Spelled P := by
  have dropped : (expr e ++ op .indexDec).Spelled P := (spelled_expr admits e h).op _
  cases e with
  | assign _ o target value =>
    exact spelled_assign o (spelled_element? admits target h.1) (spelled_expr admits target h.1)
      (spelled_expr admits value h.2) _ _
  | step _ o _ target => exact ((spelled_expr admits target h).op _).op _
  | call line callee args =>
    exact (spelled_expr admits _ h).append (spelled_ite (spelled_op _) spelled_nil)
  | _ => exact dropped

omit admits in
theorem spelled_loop (exit : Opcode) (toHead : Bool) (head : a.Spelled P) (body : b.Spelled P)
    (tail : c.Spelled P) : (loop a exit b c toHead).Spelled P := by
  intro n last
  have back : (one (.jump .setIndex n)).Spelled P := spelled_one trivial
  simp only [loop, List.forall_mem_append, List.forall_mem_cons, List.forall_mem_map]
  refine ⟨head _ _, trivial, trivial, fun s inside => ?_⟩
  exact ((((body.append tail).append back) _ _ s inside).settle _ _).settle _ _

omit admits in
theorem spelled_switch {starts : Nat → Option Opcode → List Nat} {tests : List Nat → Layout}
    (bodies : a.Spelled P) (value : b.Spelled P) (tested : ∀ targets, (tests targets).Spelled P) :
    (switch a starts b tests).Spelled P := by
  intro n last
  simp only [switch, List.forall_mem_append, List.forall_mem_cons, List.forall_mem_map]
  refine ⟨trivial, ⟨fun s inside => ?_, ?_, fun s inside => ?_⟩, trivial, List.forall_mem_nil _⟩
  · exact (bodies _ _ s inside).settle _ _
  · trivial
  · exact ((value.append (tested _)) _ _ s inside).settle _ _

omit admits in
theorem spelled_onObject (body : a.Spelled P) : (onObject a).Spelled P :=
  (spelled_op _).append (spelled_jumpOver _ (body.op _))

theorem spelled_varDecl {decl : VarDecl} (h : decl.Spelled P) : (varDecl decl).Spelled P := by
  refine spelled_all fun a inside => ?_
  obtain ⟨d, known, rfl⟩ := List.mem_map.mp inside
  obtain ⟨plain, value⟩ := h d known
  have given := spelled_elim (spelled_op .typeNull) fun e he => spelled_expr admits e (value e he)
  exact ((spelled_localVar admits plain).append given).op _

theorem spelled_forInit {init : ForInit} (h : init.Spelled P) : (forInit init).Spelled P := by
  cases init with
  | vars decl => exact spelled_varDecl admits h
  | expr e => exact spelled_effect admits h

omit admits in
theorem spelled_continueLoop (switches : Nat) : (continueLoop switches).Spelled P := by
  refine (spelled_all fun a inside => ?_).append (spelled_one trivial)
  rw [List.eq_of_mem_replicate inside]
  exact spelled_op _

theorem spelled_newControl {cls : String} (plain : Text.ZeroFree cls) (name : a.Spelled P)
    (body : b.Spelled P) : (newControl a cls b).Spelled P := by
  have made := ((((name.op .inlineNew).op .copyLastOp).op .copyLastOp).op .copyLastOp).append
    (spelled_word admits .typeString plain)
  have filled := (((made.op .convToString).op .newObject).op .assign).append (spelled_onObject body)
  have added : (one (.text .typeVar "addcontrol")).Spelled P := spelled_word admits _ (by decide)
  exact ((((filled.op .typeArray).op .swapLastOps).append added).op .call).op .indexDec

theorem spelled_switchTests {tests : List (Nat × List (Option Expr))}
    (h : ∀ t ∈ tests, ∀ label ∈ t.2, ∀ e ∈ label, e.Spelled P) : (switchTests tests).Spelled P := by
  refine (spelled_all fun a inside => ?_).append
    (spelled_elim spelled_nil fun _ _ => spelled_one trivial)
  obtain ⟨t, known, rfl⟩ := List.mem_map.mp inside
  refine spelled_all fun b hb => ?_
  obtain ⟨label, found, rfl⟩ := List.mem_map.mp hb
  cases label with
  | none => exact spelled_nil
  | some e =>
    exact (((spelled_op _).append (spelled_expr admits e (h t known _ found e rfl))).op _).append
      (spelled_one trivial)

end statements

mutual

theorem spelled_stmt (admits : Text.Admits P) (switches : Nat) (s : Stmt) (h : s.Spelled P) :
    (stmt switches s).Spelled P := by
  cases s with
  | block _ body => exact spelled_stmts admits switches body h
  | ifThen _ cond yes =>
    exact (spelled_condition admits h.1).append (spelled_jumpOver _ (spelled_stmt admits _ yes h.2))
  | ifElse _ cond yes no =>
    exact spelled_branch _ (spelled_condition admits h.1) (spelled_stmt admits _ yes h.2.1)
      (spelled_stmt admits _ no h.2.2)
  | whileLoop _ cond body =>
    exact spelled_loop _ _ (spelled_condition admits h.1)
      (spelled_stmt admits 0 body h.2) spelled_nil
  | forLoop _ init cond step body =>
    obtain ⟨hi, hc, hs, hb⟩ := h
    refine (spelled_elim spelled_nil fun i inside => spelled_forInit admits (hi i inside)).append ?_
    refine spelled_loop _ _ ?_ (spelled_stmt admits 0 body hb) ?_
    · exact spelled_elim (spelled_op _) fun e inside => spelled_condition admits (hc e inside)
    · exact spelled_elim spelled_nil fun e inside => spelled_effect admits (hs e inside)
  | forEach _ _ item binding iterable body =>
    obtain ⟨plain, hb, hi, hs⟩ := h
    refine Spelled.op (Spelled.append ?_ ?_) _
    · exact (((spelled_bound admits plain hb).append (spelled_expr admits iterable hi)).op _).append
        (spelled_number _)
    · exact spelled_loop _ _ spelled_nil (spelled_stmt admits 0 body hs) (spelled_op _)
  | withObject _ object body =>
    exact (spelled_expr admits object h.1).append
      (spelled_onObject (spelled_stmt admits _ body h.2))
  | switch _ value cases =>
    refine spelled_switch (spelled_caseBodies admits _ cases h.2) (spelled_expr admits value h.1) ?_
    intro targets
    refine spelled_switchTests admits fun t inside => ?_
    obtain ⟨c, known, labels⟩ := List.mem_map.mp (List.of_mem_zip inside).2
    rw [← labels]
    exact Case.labels_of_spelled ((Case.allSpelled_iff P).mp h.2 c known)
  | new _ cls name _ body =>
    exact spelled_newControl admits h.1 (spelled_expr admits name h.2.1)
      (spelled_stmts admits _ body h.2.2)
  | ret _ value =>
    exact (spelled_elim (spelled_number _) fun e inside => spelled_expr admits e (h e inside)).op _
  | breakOut _ => exact spelled_one trivial
  | continueLoop _ => exact spelled_continueLoop switches
  | vars decl => exact spelled_varDecl admits h
  | expr e => exact spelled_effect admits h
  | const | empty => exact spelled_nil

theorem spelled_stmts (admits : Text.Admits P) (switches : Nat) (ss : List Stmt)
    (h : Stmt.AllSpelled P ss) : (stmts switches ss).Spelled P := by
  cases ss with
  | nil => exact spelled_nil
  | cons s ss =>
    exact (spelled_stmt admits switches s h.1).append (spelled_stmts admits switches ss h.2)

theorem spelled_caseBodies (admits : Text.Admits P) (switches : Nat) (cs : List Case)
    (h : Case.AllSpelled P cs) : (caseBodies switches cs).Spelled P := by
  cases cs with
  | nil => exact spelled_nil
  | cons c cs =>
    exact (spelled_caseBody admits switches c h.1).append
      (spelled_caseBodies admits switches cs h.2)

theorem spelled_caseBody (admits : Text.Admits P) (switches : Nat) (c : Case) (h : c.Spelled P) :
    (caseBody switches c).Spelled P := by
  cases c with
  | mk _ _ body => exact spelled_stmts admits switches body h.2

end

theorem spelled_item (admits : Text.Admits P) {i : Item} (h : i.Spelled P) :
    (item i).Spelled P := by
  cases i with
  | stmt s => exact spelled_stmt admits 0 s h
  | func f =>
    refine spelled_jumpOver _
      (Spelled.append
        (Spelled.append
          (Spelled.append (Spelled.op (Spelled.op ((spelled_op _).append ?_) _) _) ?_) ?_) ?_)
    · refine spelled_all fun a inside => ?_
      obtain ⟨p, known, rfl⟩ := List.mem_map.mp inside
      exact spelled_word admits _ (h.params p (List.mem_reverse.mp known))
    · exact spelled_ite (spelled_op _) spelled_nil
    · exact spelled_stmts admits 0 f.body.body h.body
    · exact spelled_behind fun _ => spelled_ite spelled_nil ((spelled_number _).op _)

end Layout

theorem Program.spelled_layout (admits : Text.Admits P) {p : Program}
    (h : ∀ i ∈ p.items, i.Spelled P) : ∀ s ∈ p.layout, s.Spelled P := by
  refine Layout.spelled_all (fun a inside => ?_) 0 none
  obtain ⟨i, known, rfl⟩ := List.mem_map.mp inside
  exact Layout.spelled_item admits (h i known)

end GraalScript
