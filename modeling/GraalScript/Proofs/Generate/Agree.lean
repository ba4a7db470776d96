import GraalScript.Proofs.Compilation
import GraalScript.Proofs.Generate.CodeAt
import GraalScript.Proofs.Tree.Inlined
import GraalScript.Proofs.Tree.Parts

/-! A program and the same program with its constants written out are generated alike but for the
classes that they note, as a class that is joined by the name of a constant becomes one that is
joined by a literal. What is noted for the program itself are the classes that its statements
join. -/
namespace GraalScript

namespace Gen

variable {α β ι : Type} {P Q R : String → Prop} {g h : Gen α} {k l : α → Gen β}

/-- Two runs fail alike, or return the same and leave the same code and the same frames. The second
one adds the classes of `P` to those in `joined`. -/
inductive Alike (P : String → Prop) (joined : Std.TreeSet String) :
    Except CodeError (α × Draft) → Except CodeError (α × Draft) → Prop
  | ok {a : α} {d e : Draft} (code : d.code = e.code) (frames : d.frames = e.frames)
      (noted : ∀ cls, cls ∈ e.joined ↔ cls ∈ joined ∨ P cls) :
        Alike P joined (.ok (a, d)) (.ok (a, e))
  | error (x : CodeError) : Alike P joined (.error x) (.error x)

/-- Whatever is noted before, `g` and `h` run alike, and `h` notes the classes of `P`. -/
def Agree (P : String → Prop) (g h : Gen α) : Prop :=
  ∀ code frames joined joined', Alike P joined' (g.run ⟨code, frames, joined⟩)
    (h.run ⟨code, frames, joined'⟩)

abbrev NoClass : String → Prop := fun _ => False

theorem Agree.of_iff (agree : Agree P g h) (same : ∀ cls, Q cls ↔ P cls) : Agree Q g h := by
  rwa [show Q = P from funext fun cls => propext (same cls)]

theorem Agree.ofExpr {e : Expr} (agree : Agree P g h)
    (same : ∀ cls, (e.IsJoinOf cls ∨ ∃ child ∈ e.children, child.Joins cls) ↔ P cls) :
    Agree e.Joins g h :=
  agree.of_iff fun cls => Expr.joins_iff.trans (same cls)

theorem Agree.ofStmt {s : Stmt} (agree : Agree P g h)
    (same : ∀ cls,
      ((s.isConst = false ∧ ∃ e ∈ s.exprs, e.Joins cls) ∨ ∃ child ∈ s.children, child.Joins cls) ↔
      P cls) :
    Agree s.Joins g h :=
  agree.of_iff fun cls => Stmt.joins_iff.trans (same cls)

theorem Agree.bindOf {p : α → Prop} (first : Agree P g h)
    (returns : ∀ {d a d'}, h.run d = .ok (a, d') → p a) (rest : ∀ a, p a → Agree Q (k a) (l a)) :
    Agree (fun cls => P cls ∨ Q cls) (g >>= k) (h >>= l) := by
  intro code frames joined joined'
  rw [StateT.run_bind, StateT.run_bind]
  generalize left : g.run ⟨code, frames, joined⟩ = q
  generalize right : h.run ⟨code, frames, joined'⟩ = r
  have before : Alike P joined' q r := left ▸ right ▸ first code frames joined joined'
  cases before with
  | error x => exact .error x
  | @ok a d e codes framed noted =>
    obtain ⟨code₁, frames₁, joined₁⟩ := d
    obtain ⟨code₂, frames₂, joined₂⟩ := e
    cases codes
    cases framed
    change Alike _ _ ((k a).run ⟨code₁, frames₁, joined₁⟩) ((l a).run ⟨code₁, frames₁, joined₂⟩)
    generalize (k a).run ⟨code₁, frames₁, joined₁⟩ = x,
      (l a).run ⟨code₁, frames₁, joined₂⟩ = y,
        rest a (returns right) code₁ frames₁ joined₁ joined₂ = behind
    cases behind with
    | error x => exact .error x
    | ok codes framed later => exact .ok codes framed fun cls => by rw [later, noted, or_assoc]

theorem Agree.bind (first : Agree P g h) (rest : ∀ a, Agree Q (k a) (l a)) :
    Agree (fun cls => P cls ∨ Q cls) (g >>= k) (h >>= l) :=
  first.bindOf (p := fun _ => True) (fun _ => trivial) fun a _ => rest a

theorem Agree.then (first : Agree NoClass g h) (rest : ∀ a, Agree Q (k a) (l a)) :
    Agree Q (g >>= k) (h >>= l) :=
  (first.bind rest).of_iff fun _ => (false_or _).to_iff.symm

theorem Agree.before (first : Agree P g h) (rest : ∀ a, Agree NoClass (k a) (l a)) :
    Agree P (g >>= k) (h >>= l) :=
  (first.bind rest).of_iff fun _ => (or_false _).to_iff.symm

theorem agree_pure (a : α) : Agree NoClass (pure a) (pure a) := fun _ _ _ _ => .ok rfl rfl (by simp)

theorem agree_throw (x : CodeError) : Agree NoClass (throw x : Gen α) (throw x) :=
  fun _ _ _ _ => .error x

theorem agree_onCode (f : Assembly → Assembly) : Agree NoClass (onCode f) (onCode f) :=
  fun _ _ _ _ => .ok rfl rfl (by simp)

theorem agree_emit (op : Opcode) : Agree NoClass (emit op) (emit op) := agree_onCode _

theorem agree_number (n : UInt32) : Agree NoClass (number n) (number n) := agree_onCode _

theorem agree_string (text : String) : Agree NoClass (string text) (string text) := agree_onCode _

theorem agree_reference (name : String) : Agree NoClass (reference name) (reference name) :=
  agree_onCode _

theorem agree_here : Agree NoClass here here := fun _ _ _ _ => .ok rfl rfl (by simp)

theorem agree_lastOp? : Agree NoClass lastOp? lastOp? := fun _ _ _ _ => .ok rfl rfl (by simp)

theorem agree_jump (op : Opcode) : Agree NoClass (jump op) (jump op) :=
  fun _ _ _ _ => .ok rfl rfl (by simp)

theorem agree_enter (frame : Frame) : Agree NoClass (enter frame) (enter frame) :=
  fun _ _ _ _ => .ok rfl rfl (by simp)

theorem agree_leave : Agree NoClass leave leave := fun _ _ _ _ => .ok rfl rfl (by simp)

theorem agree_onCodeM (f : Assembly → Except CodeError Assembly) :
    Agree NoClass (fun d => return ((), { d with code := ← f d.code }) : Gen Unit)
      (fun d => return ((), { d with code := ← f d.code })) := by
  intro code frames joined joined'
  simp only [StateT.run]
  cases f code with
  | error x => exact .error x
  | ok code => exact .ok rfl rfl (by simp)

theorem agree_patch (label : Label) (target : Nat) :
    Agree NoClass (patch label target) (patch label target) :=
  agree_onCodeM fun code => code.patch label target

theorem agree_declare (name : String) : Agree NoClass (declare name) (declare name) :=
  agree_onCodeM fun code => code.addFunction name

theorem agree_patchHere (label : Label) : Agree NoClass (patchHere label) (patchHere label) :=
  agree_here.then fun _ => agree_patch _ _

theorem agree_jumpTo (op : Opcode) (target : Nat) :
    Agree NoClass (jumpTo op target) (jumpTo op target) :=
  (agree_jump op).then fun _ => agree_patch _ _

theorem agree_memberOf (name : String) : Agree NoClass (memberOf name) (memberOf name) :=
  (agree_reference name).then fun _ => agree_emit _

theorem agree_localVar (name : String) : Agree NoClass (localVar name) (localVar name) :=
  (agree_emit _).then fun _ => agree_memberOf name

theorem agree_convert (want given : ValueType) :
    Agree NoClass (convert want given) (convert want given) := by
  cases want <;> cases given <;> first | exact agree_pure _ | exact agree_emit _

theorem agree_ite {p : Prop} [Decidable p] {g' h' : Gen α} (yes : Agree P g h)
    (no : Agree P g' h') : Agree P (if p then g else g') (if p then h else h') := by
  split
  · exact yes
  · exact no

theorem agree_when {p : Prop} [Decidable p] {g h : Gen Unit} {k l : Gen β} (first : Agree P g h)
    (rest : Agree Q k l) :
    Agree (fun cls => p ∧ P cls ∨ Q cls) (if p then (do g; k) else k) (if p then (do h; l)
      else l) := by
  split
  next yes => exact (first.bind fun _ => rest).of_iff fun cls => by simp [yes]
  next no => exact rest.of_iff fun cls => by simp [no]

theorem agree_unless {p : Prop} [Decidable p] {g h : Gen Unit} {k l : Gen β} (first : Agree P g h)
    (rest : Agree Q k l) :
    Agree (fun cls => ¬p ∧ P cls ∨ Q cls) (if p then k else (do g; k)) (if p then l
      else (do h; l)) := by
  split
  next yes => exact rest.of_iff fun cls => by simp [yes]
  next no => exact (first.bind fun _ => rest).of_iff fun cls => by simp [no]

theorem agree_forM {c c' : ι → Gen Unit} {P : ι → String → Prop} (xs : List ι)
    (each : ∀ x ∈ xs, Agree (P x) (c x) (c' x)) :
    Agree (fun cls => ∃ x ∈ xs, P x cls) (xs.forM c) (xs.forM c') := by
  induction xs with
  | nil => exact (agree_pure _).of_iff (by simp)
  | cons x xs ih =>
    rw [List.forall_mem_cons] at each
    exact (each.1.bind fun _ => ih each.2).of_iff (by simp)

theorem agree_forM_noClass {c : ι → Gen Unit} (xs : List ι)
    (each : ∀ x, Agree NoClass (c x) (c x)) :
    Agree NoClass (xs.forM c) (xs.forM c) := (agree_forM xs fun x _ => each x).of_iff (by simp)

theorem agree_foldlM {σ : Type} {f : ι → ι} {c : σ → ι → Gen σ} {P : ι → String → Prop}
    (xs : List ι) (each : ∀ x ∈ xs, ∀ s, Agree (P x) (c s (f x)) (c s x)) (s : σ) :
    Agree (fun cls => ∃ x ∈ xs, P x cls) ((xs.map f).foldlM c s) (xs.foldlM c s) := by
  induction xs generalizing s with
  | nil => exact (agree_pure _).of_iff (by simp)
  | cons x xs ih =>
    rw [List.forall_mem_cons] at each
    rw [List.map_cons, List.foldlM_cons, List.foldlM_cons]
    exact ((each.1 s).bind fun s => ih each.2 s).of_iff (by simp)

section expressions

variable {f f' g g' h h' : Gen Unit}

theorem agree_toObject : Agree NoClass toObject toObject :=
  agree_lastOp?.then fun _ => agree_ite (agree_pure _) (agree_emit _)

theorem agree_literal (value : Literal) : Agree NoClass (literal value) (literal value) := by
  cases value with
  | int n => exact agree_number n
  | float text => exact agree_onCode (·.emitFloat .typeNumber text)
  | str text => exact agree_string text
  | bool value => cases value <;> exact agree_emit _
  | null => exact agree_emit _

theorem agree_bound (line : Nat) (name : String) (binding : Binding) :
    Agree NoClass (bound line name binding) (bound line name binding) := by
  cases binding with
  | unresolved => exact agree_throw _
  | constant value => exact agree_literal _
  | localVar => exact agree_localVar name
  | builtin =>
    rw [bound]
    cases Opcode.ofRoot? name with
    | none => exact agree_reference name
    | some op => exact agree_emit op
  | objectVar | param | func => exact agree_reference name

theorem agree_element (object : Agree P f f') (index : Agree Q g g') (type : ValueType) :
    Agree (fun cls => P cls ∨ Q cls) (element f g type) (element f' g' type) :=
  object.bind fun _ => index.before fun _ => agree_ite (agree_pure _) (agree_emit _)

theorem agree_binary (type : ValueType) (op : BinaryOp) (lhs : Agree P f f') (rhs : Agree Q g g')
    (left right : ValueType) :
    Agree (fun cls => P cls ∨ Q cls) (binary type op f g left right)
      (binary type op f' g' left right) := by
  refine lhs.bind fun _ => (agree_convert _ _).then fun _ => ?_
  exact rhs.before fun _ => (agree_convert _ _).then fun _ => agree_emit _

theorem agree_test (value : Agree P f f') (type : ValueType) :
    Agree P (test f type) (test f' type) :=
  value.before fun _ => agree_lastOp?.then fun _ => agree_ite (agree_pure _) (agree_convert _ _)

theorem agree_logical (op : LogicalOp) (lhs : Agree P f f') (rhs : Agree Q g g') :
    Agree (fun cls => P cls ∨ Q cls) (logical op f g) (logical op f' g') := by
  refine lhs.bind fun _ => (agree_jump _).then fun short => rhs.before fun _ => ?_
  refine (agree_jump _).then fun done => (agree_patchHere short).then fun _ => ?_
  exact (agree_emit _).then fun _ => agree_patchHere done

theorem agree_choose (cond : Agree P f f') (yes : Agree Q g g') (no : Agree R h h') :
    Agree (fun cls => P cls ∨ Q cls ∨ R cls) (choose f g h) (choose f' g' h') := by
  refine cond.bind fun _ => (agree_jump _).then fun otherwise => yes.bind fun _ => ?_
  refine (agree_jump _).then fun done => (agree_patchHere otherwise).then fun _ => ?_
  exact no.before fun _ => agree_patchHere done

theorem agree_step (op : StepOp) (before : Bool) (target : Agree P f f') :
    Agree P (step op before f) (step op before f') := by
  refine target.before fun _ => agree_ite (agree_emit _) ?_
  refine (agree_emit _).then fun _ => (agree_emit _).then fun _ => (agree_emit _).then fun _ => ?_
  exact (agree_emit _).then fun _ => agree_emit _

theorem agree_assign (op : Option BinaryOp) {f? f?' : Option (Gen Unit)}
    (kinds : f?.isSome = f?'.isSome) (place : Agree P (f?.getD f) (f?'.getD f'))
    (target : Agree P f f') (value : Agree Q g g') (targetType valueType : ValueType) :
    Agree (fun cls => P cls ∨ Q cls) (assign op f? f g targetType valueType)
      (assign op f?' f' g' targetType valueType) := by
  rw [assign, assign, kinds]
  cases op with
  | none => exact place.bind fun _ => value.before fun _ => agree_emit _
  | some op =>
    cases f?'.isSome with
    | false =>
      have stored := (agree_binary op.compoundType op (agree_emit .copyLastOp) value targetType
        valueType).before fun _ => agree_emit .assign
      exact (place.bind fun _ => stored).of_iff (by simp)
    | true =>
      have stored :=
        (agree_binary op.compoundType op target value targetType valueType).before fun _ =>
          agree_emit .arrayAssign
      exact (place.bind fun _ => stored).of_iff (by simp)

theorem agree_receiver (c : Command) {f? f?' : Option (Gen Unit)}
    (object : Agree P (f?.getD (pure ())) (f?'.getD (pure ()))) :
    Agree P (receiver c f?) (receiver c f?') := by
  refine object.before fun _ => ?_
  cases c.convert with
  | none => exact agree_pure _
  | some op => exact agree_lastOp?.then fun _ => agree_ite (agree_pure _) (agree_emit _)

theorem agree_noteJoin (left right : Option String) :
    Agree (fun cls => right = some cls) (noteJoin left) (noteJoin right) := by
  have noted (joined : Std.TreeSet String) (cls text : String) :
      cls ∈ joined.insert text ↔ cls ∈ joined ∨ some text = some cls := by
    simp [Std.TreeSet.mem_insert, or_comm]
  intro code frames joined joined'
  cases left <;> cases right with
  | none => exact .ok rfl rfl (by simp)
  | some text => exact .ok rfl rfl (noted joined' · text)

theorem agree_newArray (dims : List UInt32) : Agree NoClass (newArray dims) (newArray dims) := by
  cases dims with
  | nil => exact agree_pure _
  | cons dim dims =>
    refine (agree_number dim).then fun _ => (agree_emit _).then fun _ =>
      agree_forM_noClass dims fun dim => ?_
    exact (agree_number dim).then fun _ => agree_emit _

theorem codesOnto_eq (done : List (Gen Unit)) (es : List Expr) :
    codesOnto done es = (es.map expr).reverse ++ done := by
  induction es generalizing done with
  | nil => rfl
  | cons e es ih => simp [codesOnto, ih]

def AllAgree (es : List Expr) : Prop := ∀ e ∈ es, Agree e.Joins (expr e.inlined) (expr e)

theorem agree_all {es : List Expr} (each : AllAgree es) :
    Agree (fun cls => ∃ e ∈ es, e.Joins cls) (all ((Expr.inlinedAll es).map expr))
      (all (es.map expr)) := by
  induction es with
  | nil => exact (agree_pure _).of_iff (by simp)
  | cons e es ih =>
    rw [AllAgree, List.forall_mem_cons] at each
    exact (each.1.bind fun _ => ih each.2).of_iff (by simp)

theorem agree_all_reverse {es : List Expr} (each : AllAgree es) :
    Agree (fun cls => ∃ e ∈ es, e.Joins cls) (all ((Expr.inlinedAll es).map expr).reverse)
      (all (es.map expr).reverse) := by
  have reversed : AllAgree es.reverse := fun e he => each e (List.mem_reverse.mp he)
  have agree := (agree_all reversed).of_iff (Q := fun cls => ∃ e ∈ es, e.Joins cls) (by simp)
  rwa [Expr.inlinedAll_eq, List.map_reverse, List.map_reverse, List.map_reverse,
    ← Expr.inlinedAll_eq] at agree

theorem agree_arguments (c : Command) {es : List Expr} (each : AllAgree es) (rest : Agree Q g g') :
    Agree (fun cls => (∃ e ∈ es, e.Joins cls) ∨ Q cls)
      (if c.style.reverseArgs then (do all (codesOnto [] (Expr.inlinedAll es)); g)
        else if (codesOnto [] (Expr.inlinedAll es)).isEmpty && c.op = .objTokenize then
          (do string Command.defaultSeparators; g)
        else (do all (codesOnto [] (Expr.inlinedAll es)).reverse; g))
      (if c.style.reverseArgs then (do all (codesOnto [] es); g')
        else if (codesOnto [] es).isEmpty && c.op = .objTokenize then
          (do string Command.defaultSeparators; g')
        else (do all (codesOnto [] es).reverse; g')) := by
  have empty : (codesOnto [] (Expr.inlinedAll es)).isEmpty = (codesOnto [] es).isEmpty := by
    simp [codesOnto_eq, Expr.inlinedAll_eq]
  rw [empty]
  simp only [codesOnto_eq, List.append_nil, List.reverse_reverse]
  split
  · exact (agree_all_reverse each).bind fun _ => rest
  · split
    next none =>
      have none : es = [] := by simp_all
      exact ((agree_string _).then fun _ => rest).of_iff (by simp [none])
    next => exact (agree_all each).bind fun _ => rest

theorem agree_call (c : Command) {f? f?' : Option (Gen Unit)} {es : List Expr}
    (object : Agree P (f?.getD (pure ())) (f?'.getD (pure ()))) (function : Agree Q g g')
    (args : AllAgree es) :
    Agree (fun cls => P cls ∨ (∃ e ∈ es, e.Joins cls) ∨ c.op = .call ∧ Q cls)
      (call c f? g (codesOnto [] (Expr.inlinedAll es))) (call c f?' g' (codesOnto [] es)) := by
  have receiver := agree_receiver c object
  have final := agree_when (p := c.op = .call) function (agree_emit c.op)
  refine (agree_when receiver (agree_when (agree_emit .typeArray)
    (agree_arguments c args (agree_unless receiver final)))).of_iff fun cls => ?_
  cases c.style.objectFirst <;> simp [or_left_comm]

theorem newObject_of_length_ne (cls : String) {fs : List (Gen Unit)} (h : fs.length ≠ 1) :
    newObject cls fs = (do reference "unknown_object"; string cls; emit .newObject) := by
  rcases fs with _ | ⟨f, _ | ⟨_, _⟩⟩
  · rfl
  · exact (h rfl).elim
  · rfl

theorem agree_newObject (cls : String) {es : List Expr} (args : AllAgree es) :
    Agree (fun c => es.length = 1 ∧ ∃ e ∈ es, e.Joins c)
      (newObject cls (codesOnto [] (Expr.inlinedAll es))) (newObject cls (codesOnto [] es)) := by
  have made : Agree NoClass (do string cls; emit .newObject) (do string cls; emit .newObject) :=
    (agree_string cls).then fun _ => agree_emit _
  by_cases only : es.length = 1
  · obtain ⟨e, rfl⟩ := List.length_eq_one_iff.mp only
    have named := (args e List.mem_cons_self).before fun _ =>
      (agree_emit .inlineNew).then fun _ => made
    exact named.of_iff (by simp)
  · rw [newObject_of_length_ne, newObject_of_length_ne]
    · exact ((agree_reference _).then fun _ => made).of_iff (by simp [only])
    · simpa [codesOnto_eq] using only
    · simpa [codesOnto_eq, Expr.inlinedAll_eq] using only

theorem isSome_element?_inlined (e : Expr) : (element? e.inlined).isSome = (element? e).isSome := by
  cases e with
  | name _ _ binding => cases binding <;> simp [Expr.inlined, element?]
  | _ => simp [Expr.inlined, element?]

theorem agree_function {e : Expr} (agree : Agree e.Joins (expr e.inlined) (expr e)) :
    Agree (fun cls => e.memberName? = none ∧ e.Joins cls)
      (e.inlined.memberName?.elim (expr e.inlined) memberOf)
      (e.memberName?.elim (expr e) memberOf) := by
  rw [e.memberName?_inlined]
  cases e.memberName? with
  | none => exact agree.of_iff (by simp)
  | some name => exact (agree_memberOf name).of_iff (by simp)

theorem command_op_of_joins {e : Expr} {cls : String} (other : e.memberName? = none)
    (joins : e.Joins cls) : e.command.op = .call := by
  cases e with
  | name _ _ _ =>
    rw [Expr.joins_iff] at joins
    simp [Expr.IsJoinOf, Expr.children] at joins
  | member _ _ _ => cases other
  | _ => rfl

mutual

theorem agree_expr (e : Expr) : Agree e.Joins (expr e.inlined) (expr e) := by
  cases e with
  | literal _ value =>
    exact (agree_literal value).ofExpr (by simp [Expr.IsJoinOf, Expr.children])
  | name line name binding =>
    have same : expr (Expr.name line name binding).inlined = bound line name binding := by
      cases binding <;> rfl
    rw [same]
    exact (agree_bound line name binding).ofExpr (by simp [Expr.IsJoinOf, Expr.children])
  | member _ object field =>
    have code := (agree_expr object).before fun _ => agree_toObject.then fun _ =>
      agree_memberOf field.name
    exact code.ofExpr (by simp [Expr.IsJoinOf, Expr.children])
  | index _ object i =>
    have place := agree_element (agree_expr object) (agree_expr i) i.valueType
    rw [Expr.inlined, expr, expr, i.valueType_inlined]
    refine (place.before fun _ => agree_emit _).ofExpr fun _ => ?_
    simp [Expr.IsJoinOf, Expr.children]
  | call line callee args =>
    have code :=
      agree_call callee.command (agree_object? callee) (agree_function (agree_expr callee))
        (allAgree args)
    rw [Expr.inlined, expr, expr, callee.command_inlined]
    refine ((agree_noteJoin _ _).bind fun _ => code).of_iff fun cls => ?_
    rw [Expr.joins_iff, Expr.isJoinOf_call, Expr.children, List.exists_mem_cons_iff]
    cases found : callee.memberName? with
    | some name => simp
    | none =>
      by_cases joins : callee.Joins cls
      · simp [joins, command_op_of_joins found joins]
      · simp [joins]
  | array _ items =>
    have code := (agree_emit .typeArray).then fun _ =>
      (agree_all_reverse (allAgree items)).before fun _ =>
      agree_emit .arrayEnd
    rw [Expr.inlined, expr, expr, codesOnto_eq, codesOnto_eq, List.append_nil, List.append_nil]
    exact code.ofExpr (by simp [Expr.IsJoinOf, Expr.children])
  | unary _ op operand =>
    have code := (agree_expr operand).before fun _ => (agree_emit .convToFloat).then fun _ =>
      agree_emit op.opcode
    exact code.ofExpr (by simp [Expr.IsJoinOf, Expr.children])
  | step _ op before target =>
    refine (agree_step op before (agree_expr target)).ofExpr fun _ => ?_
    simp [Expr.IsJoinOf, Expr.children]
  | binary _ op lhs rhs =>
    rw [Expr.inlined, expr, expr, lhs.valueType_inlined, rhs.valueType_inlined]
    refine (agree_binary _ op (agree_expr lhs) (agree_expr rhs) _ _).ofExpr fun _ => ?_
    simp [Expr.IsJoinOf, Expr.children]
  | logical _ op lhs rhs =>
    have code := agree_logical op (agree_test (agree_expr lhs) lhs.valueType)
      (agree_test (agree_expr rhs) rhs.valueType)
    rw [Expr.inlined, expr, expr, lhs.valueType_inlined, rhs.valueType_inlined]
    exact code.ofExpr (by simp [Expr.IsJoinOf, Expr.children])
  | assign _ op target value =>
    have read := agree_expr target
    have stored :=
      agree_assign op (isSome_element?_inlined target) (agree_element? target read) read
      (agree_expr value) target.valueType value.valueType
    rw [Expr.inlined, expr, expr, target.valueType_inlined, value.valueType_inlined]
    refine (stored.bind fun _ => read).ofExpr fun _ => ?_
    simp only [Expr.IsJoinOf, Expr.children, reduceCtorEq, exists_false, false_or,
      List.exists_mem_cons_iff, List.not_mem_nil, false_and, or_false]
    tauto
  | ternary _ cond yes no =>
    have code := agree_choose (agree_test (agree_expr cond) cond.valueType) (agree_expr yes)
      (agree_expr no)
    rw [Expr.inlined, expr, expr, cond.valueType_inlined]
    exact code.ofExpr (by simp [Expr.IsJoinOf, Expr.children])
  | cast _ kind operand =>
    have code := (agree_expr operand).before fun _ => agree_emit kind.opcode
    exact code.ofExpr (by simp [Expr.IsJoinOf, Expr.children])
  | inRange _ value lower upper =>
    have behind := (agree_expr upper).before fun _ =>
      (agree_convert .number upper.valueType).then fun _ =>
      agree_emit .inRange
    have code := (agree_expr value).bind fun _ => (agree_expr lower).bind fun _ =>
      (agree_convert .number lower.valueType).then fun _ => behind
    rw [Expr.inlined, expr, expr, lower.valueType_inlined, upper.valueType_inlined]
    exact code.ofExpr (by simp [Expr.IsJoinOf, Expr.children])
  | inObject _ value object =>
    have code := (agree_expr value).bind fun _ => (agree_expr object).before fun _ =>
      agree_toObject.then fun _ =>
      agree_emit .inObj
    exact code.ofExpr (by simp [Expr.IsJoinOf, Expr.children])
  | new _ cls args =>
    refine (agree_newObject cls.name (allAgree args)).ofExpr fun _ => ?_
    by_cases only : args.length = 1 <;> simp [Expr.IsJoinOf, Expr.children, only]
  | newArray _ dims =>
    exact (agree_newArray dims).ofExpr (by simp [Expr.IsJoinOf, Expr.children])

theorem allAgree (es : List Expr) : AllAgree es := by
  cases es with
  | nil => exact fun _ h => nomatch h
  | cons e es => exact List.forall_mem_cons.mpr ⟨agree_expr e, allAgree es⟩

theorem agree_object? (e : Expr) :
    Agree (fun cls => e.memberName? ≠ none ∧ e.Joins cls) ((object? e.inlined).getD (pure ()))
      ((object? e).getD (pure ())) := by
  cases e with
  | member _ object _ =>
    refine (agree_expr object).of_iff fun _ => ?_
    rw [Expr.joins_iff]
    simp [Expr.IsJoinOf, Expr.children, Expr.memberName?]
  | name _ _ binding => cases binding <;> exact (agree_pure _).of_iff (by simp [Expr.memberName?])
  | _ => exact (agree_pure _).of_iff (by simp [Expr.memberName?])

theorem agree_element? (e : Expr) (agree : Agree e.Joins (expr e.inlined) (expr e)) :
    Agree e.Joins ((element? e.inlined).getD (expr e.inlined)) ((element? e).getD (expr e)) := by
  cases e with
  | index _ object i =>
    have place := agree_element (agree_expr object) (agree_expr i) i.valueType
    rw [Expr.inlined, element?, element?, i.valueType_inlined]
    exact place.ofExpr (by simp [Expr.IsJoinOf, Expr.children])
  | name _ _ binding => cases binding <;> exact agree
  | _ => exact agree

end

theorem agree_condition (e : Expr) : Agree e.Joins (condition e.inlined) (condition e) := by
  rw [condition, condition, e.valueType_inlined]
  exact agree_test (agree_expr e) _

theorem agree_effect (e : Expr) : Agree e.Joins (effect e.inlined) (effect e) := by
  have dropped : Agree e.Joins (do expr e.inlined; emit .indexDec) (do expr e; emit .indexDec) :=
    (agree_expr e).before fun _ => agree_emit _
  cases e with
  | assign _ op target value =>
    have read := agree_expr target
    have stored :=
      agree_assign op (isSome_element?_inlined target) (agree_element? target read) read
      (agree_expr value) target.valueType value.valueType
    rw [Expr.inlined, effect, effect, target.valueType_inlined, value.valueType_inlined]
    exact stored.ofExpr (by simp [Expr.IsJoinOf, Expr.children])
  | step _ op _ target =>
    have code := (agree_expr target).before fun _ => (agree_emit op.opcode).then fun _ =>
      agree_emit .indexDec
    exact code.ofExpr (by simp [Expr.IsJoinOf, Expr.children])
  | call line callee args =>
    have code := agree_expr (.call line callee args)
    rw [Expr.inlined] at code ⊢
    rw [effect, effect, callee.command_inlined]
    exact code.before fun _ => agree_ite (agree_emit _) (agree_pure _)
  | name _ _ binding => cases binding <;> exact dropped
  | _ => exact dropped

end expressions

section statements

variable {f f' g g' : Gen Unit}

theorem agree_elim {none : Gen Unit} (silent : Agree NoClass none none) {tr : ι → ι}
    {code : ι → Gen Unit} {P : ι → String → Prop} (each : ∀ a, Agree (P a) (code (tr a)) (code a))
    (x : Option ι) :
    Agree (fun cls => ∃ a ∈ x, P a cls) ((x.map tr).elim none code) (x.elim none code) := by
  cases x with
  | none => exact silent.of_iff (by simp)
  | some a => exact (each a).of_iff (by simp)

theorem agree_varDecl (decl : VarDecl) :
    Agree (fun cls => ∃ e ∈ decl.exprs, e.Joins cls) (varDecl decl.inlined) (varDecl decl) := by
  have each (d : VarDef) :
      Agree (fun cls => ∃ e ∈ d.value, e.Joins cls) (varDef d.inlined) (varDef d) :=
    (agree_localVar _).then fun _ => (agree_elim (agree_emit _) agree_expr d.value).before fun _ =>
      agree_emit _
  rw [varDecl, varDecl, VarDecl.inlined, List.forM_eq_forM, List.forM_map]
  refine (agree_forM decl.defs fun d _ => each d).of_iff fun cls => ?_
  simp only [VarDecl.exprs, List.mem_filterMap, Option.mem_def]
  constructor
  · rintro ⟨e, ⟨d, hd, value⟩, joins⟩
    exact ⟨d, hd, e, value, joins⟩
  · rintro ⟨d, hd, e, value, joins⟩
    exact ⟨e, ⟨d, hd, value⟩, joins⟩

theorem agree_forInit (init : ForInit) :
    Agree (fun cls => ∃ e ∈ init.exprs, e.Joins cls) (forInit init.inlined) (forInit init) := by
  cases init with
  | vars decl => exact agree_varDecl decl
  | expr e => exact (agree_effect e).of_iff (by simp [ForInit.exprs])

theorem agree_breakOut (line : Nat) : Agree NoClass (breakOut line) (breakOut line) := by
  intro code frames joined joined'
  cases frames with
  | nil => exact .error _
  | cons frame frames => exact .ok rfl rfl (by simp)

theorem agree_continueLoop (line : Nat) :
    Agree NoClass (continueLoop line) (continueLoop line) := by
  have noted (switches : List Frame) (frame : Frame) (frames : List Frame) : Agree NoClass (do
      switches.forM fun _ => emit .indexDec
      let label ← jump .setIndex
      modify fun d => { d with frames := switches ++
        { frame with continues := label :: frame.continues } :: frames })
      (do
      switches.forM fun _ => emit .indexDec
      let label ← jump .setIndex
      modify fun d =>
        { d with frames := switches ++ { frame with continues := label :: frame.continues } ::
          frames }) := by
    refine (agree_forM_noClass switches fun _ => agree_emit _).then fun _ =>
      (agree_jump _).then fun label => ?_
    exact fun _ _ _ _ => .ok rfl rfl (by simp)
  intro code frames joined joined'
  simp only [continueLoop, StateT.run_bind, StateT.run_get, pure_bind]
  cases frames.dropWhile Frame.isSwitch with
  | nil => exact .error _
  | cons frame outer => exact noted _ frame outer code frames joined joined'

theorem agree_endLoop (exit : Label) (next : Nat) :
    Agree NoClass (endLoop exit next) (endLoop exit next) := by
  refine agree_leave.then fun frame => (agree_patchHere exit).then fun _ => ?_
  exact (agree_forM_noClass _ agree_patchHere).then fun _ => agree_forM_noClass _ fun _ =>
    agree_patch _ _

theorem agree_labelTest (start : Nat) (label : Option Expr) (fallback : Option Nat) :
    Agree (fun cls => ∃ e ∈ label, e.Joins cls) (labelTest start fallback (label.map Expr.inlined))
      (labelTest start fallback label) := by
  cases label with
  | none => exact (agree_pure _).of_iff (by simp)
  | some e =>
    have test := (agree_emit .copyLastOp).then fun _ => (agree_expr e).before fun _ =>
      (agree_emit .eq).then fun _ =>
      (agree_jumpTo .setIndexTrue start).then fun _ => agree_pure fallback
    exact test.of_iff (by simp)

theorem agree_switchTests (tests : List (Nat × List (Option Expr))) :
    Agree (fun cls => ∃ t ∈ tests, ∃ label ∈ t.2, ∃ e ∈ label, e.Joins cls)
      (switchTests (tests.map (Prod.map id (List.map (Option.map Expr.inlined)))))
        (switchTests tests) := by
  refine (agree_foldlM tests (fun t _ found => ?_) none).before fun found => ?_
  · exact agree_foldlM t.2 (fun label _ found => agree_labelTest t.1 label found) found
  · cases found with
    | none => exact agree_pure _
    | some start => exact agree_jumpTo _ start

theorem agree_switch {bodies bodies' : Gen (List Nat)} {labels : List (List (Option Expr))}
    (cases : Agree P bodies bodies')
    (starts : ∀ {d found d'}, bodies'.run d = .ok (found, d') → found.length = labels.length)
    (value : Agree Q f f') :
    Agree (fun cls => P cls ∨ Q cls ∨ ∃ ls ∈ labels, ∃ label ∈ ls, ∃ e ∈ label, e.Joins cls)
      (switch bodies f (labels.map (List.map (Option.map Expr.inlined))))
        (switch bodies' f' labels) := by
  refine (agree_jump _).then fun tests => (agree_enter _).then fun _ =>
    cases.bindOf starts fun found known => ?_
  refine (agree_jump _).then fun done => (agree_patchHere tests).then fun _ =>
    value.bind fun _ => ?_
  have tested := agree_switchTests (found.zip labels)
  rw [← List.zip_map_right] at tested
  have each (cls : String) : (∃ ls ∈ labels, ∃ label ∈ ls, ∃ e ∈ label, e.Joins cls) ↔
      ∃ t ∈ found.zip labels, ∃ label ∈ t.2, ∃ e ∈ label, e.Joins cls := by
    constructor
    · rintro ⟨ls, mem, rest⟩
      rw [← List.map_snd_zip (Nat.le_of_eq known.symm), List.mem_map] at mem
      obtain ⟨t, ht, rfl⟩ := mem
      exact ⟨t, ht, rest⟩
    · rintro ⟨t, ht, rest⟩
      exact ⟨t.2, (List.of_mem_zip ht).2, rest⟩
  refine (tested.of_iff each).before fun _ => agree_leave.then fun frame =>
    (agree_patchHere done).then fun _ => ?_
  exact (agree_forM_noClass _ agree_patchHere).then fun _ => agree_emit _

theorem agree_onObject (body : Agree P f f') : Agree P (onObject f) (onObject f') := by
  refine (agree_emit _).then fun _ => (agree_jump _).then fun done => body.before fun _ => ?_
  exact (agree_emit _).then fun _ => agree_patchHere done

theorem agree_newControl (cls : String) (name : Agree P f f') (body : Agree Q g g') :
    Agree (fun cls => P cls ∨ Q cls) (newControl f cls g) (newControl f' cls g') := by
  have added :
      Agree NoClass
        (do emit .typeArray; emit .swapLastOps; reference "addcontrol"; emit .call; emit .indexDec)
      (do emit .typeArray; emit .swapLastOps; reference "addcontrol"; emit .call; emit .indexDec) :=
    (agree_emit _).then fun _ => (agree_emit _).then fun _ => (agree_reference _).then fun _ =>
      (agree_emit _).then fun _ => agree_emit _
  refine name.bind fun _ => (agree_emit _).then fun _ => (agree_emit _).then fun _ =>
    (agree_emit _).then fun _ => ?_
  refine (agree_emit _).then fun _ => (agree_string _).then fun _ => (agree_emit _).then fun _ => ?_
  refine (agree_emit _).then fun _ => (agree_emit _).then fun _ =>
    (agree_onObject body).before fun _ => added

theorem length_caseBodies {cs : List Case} {done starts : List Nat} {d d' : Draft}
    (run : (caseBodies done cs).run d = .ok (starts, d')) :
    starts.length = done.length + cs.length := by
  induction cs generalizing done d with
  | nil =>
    cases run
    exact List.length_reverse
  | cons c cs ih =>
    obtain ⟨start, d₁, -, rest⟩ := run_bind run
    obtain ⟨⟨⟩, d₂, -, rest⟩ := run_bind rest
    rw [ih rest, List.length_cons, List.length_cons]
    omega

mutual

theorem agree_stmt (s : Stmt) : Agree s.Joins (stmt s.inlined) (stmt s) := by
  cases s with
  | block _ body =>
    refine (agree_stmts body).ofStmt fun _ => ?_
    simp [Stmt.exprs, Stmt.children]
  | ifThen _ cond yes =>
    have code := (agree_condition cond).bind fun _ => (agree_jump .ifThen).then fun otherwise =>
      (agree_stmt yes).before fun _ => agree_patchHere otherwise
    exact code.ofStmt (by simp [Stmt.isConst, Stmt.exprs, Stmt.children])
  | ifElse _ cond yes no =>
    refine (agree_choose (agree_condition cond) (agree_stmt yes) (agree_stmt no)).ofStmt fun _ => ?_
    simp [Stmt.isConst, Stmt.exprs, Stmt.children]
  | whileLoop _ cond body =>
    have code := agree_here.then fun start => (agree_condition cond).bind fun _ =>
      (agree_jump .ifThen).then fun exit =>
      (agree_emit .cmdCall).then fun _ => (agree_enter .loop).then fun _ =>
        (agree_stmt body).before fun _ =>
        (agree_jumpTo .setIndex start).then fun _ => agree_endLoop exit start
    exact code.ofStmt (by simp [Stmt.isConst, Stmt.exprs, Stmt.children])
  | forLoop _ init cond step body =>
    have closed := fun start exit => agree_here.then fun next =>
      (agree_elim (agree_pure ()) agree_effect step).before fun _ =>
        (agree_jumpTo .setIndex start).then fun _ =>
        agree_endLoop exit next
    have code := (agree_elim (agree_pure ()) agree_forInit init).bind fun _ =>
      agree_here.then fun start =>
      (agree_elim (agree_emit .typeTrue) agree_condition cond).bind fun _ =>
        (agree_jump .ifThen).then fun exit =>
        (agree_emit .cmdCall).then fun _ => (agree_enter .loop).then fun _ =>
          (agree_stmt body).bind fun _ =>
          closed start exit
    have inits (cls : String) : (∃ e ∈ init.elim [] ForInit.exprs, e.Joins cls) ↔
        ∃ a ∈ init, ∃ e ∈ a.exprs, e.Joins cls := by cases init <;> simp
    refine code.ofStmt fun cls => ?_
    simp only [Stmt.isConst, Stmt.exprs, Stmt.children, List.mem_append, Option.mem_toList,
      Option.mem_def, or_and_right, exists_or, inits, List.mem_singleton, exists_eq_left,
      true_and, or_assoc]
    exact or_congr_right (or_congr_right or_comm)
  | forEach line declared item binding iterable body =>
    have closed := fun start exit => agree_here.then fun next => (agree_emit .inc).then fun _ =>
      (agree_jumpTo .setIndex start).then fun _ => (agree_endLoop exit next).then fun _ =>
        agree_emit .indexDec
    have code := (agree_bound line item binding).then fun _ => (agree_expr iterable).bind fun _ =>
      (agree_emit .convToObject).then fun _ => (agree_number 0).then fun _ =>
        agree_here.then fun start =>
        (agree_jump .forEach).then fun exit => (agree_emit .cmdCall).then fun _ =>
          (agree_enter .loop).then fun _ =>
          (agree_stmt body).before fun _ => closed start exit
    exact code.ofStmt (by simp [Stmt.isConst, Stmt.exprs, Stmt.children])
  | withObject _ object body =>
    have code := (agree_expr object).bind fun _ => agree_onObject (agree_stmt body)
    exact code.ofStmt (by simp [Stmt.isConst, Stmt.exprs, Stmt.children])
  | switch _ value cases =>
    have labels : (Case.inlinedAll cases).map Case.labels =
        (cases.map Case.labels).map (List.map (Option.map Expr.inlined)) := by
      rw [Case.inlinedAll_eq, List.map_map, List.map_map]
      exact List.map_congr_left fun c _ => by cases c; rfl
    rw [Stmt.inlined, stmt, stmt, labels]
    refine (agree_switch (agree_caseBodies [] cases) (fun run => ?_) (agree_expr value)).ofStmt
      fun cls => ?_
    · rw [length_caseBodies run, List.length_map, List.length_nil, Nat.zero_add]
    · have each : (∃ e ∈ cases.flatMap fun c => c.labels.reduceOption, e.Joins cls) ↔
          ∃ ls ∈ cases.map Case.labels, ∃ label ∈ ls, ∃ e ∈ label, e.Joins cls := by
        constructor
        · rintro ⟨e, mem, joins⟩
          obtain ⟨c, hc, label⟩ := List.mem_flatMap.mp mem
          exact ⟨c.labels, List.mem_map_of_mem hc, some e, List.reduceOption_mem_iff.mp label, e,
            rfl, joins⟩
        · rintro ⟨_, mem, label, hl, e, rfl, joins⟩
          obtain ⟨c, hc, rfl⟩ := List.mem_map.mp mem
          exact ⟨e, List.mem_flatMap.mpr ⟨c, hc, List.reduceOption_mem_iff.mpr hl⟩, joins⟩
      simp only [Stmt.isConst, Stmt.exprs, Stmt.children, List.exists_mem_cons_iff, each, true_and]
      exact or_comm
  | new _ cls name _ body =>
    refine (agree_newControl cls.name (agree_expr name) (agree_stmts body)).ofStmt fun _ => ?_
    simp [Stmt.isConst, Stmt.exprs, Stmt.children]
  | ret _ value =>
    have code := (agree_elim (agree_number 0) agree_expr value).before fun _ => agree_emit .ret
    exact code.ofStmt (by simp [Stmt.isConst, Stmt.exprs, Stmt.children])
  | vars decl =>
    exact (agree_varDecl decl).ofStmt (by simp [Stmt.isConst, Stmt.exprs, Stmt.children])
  | expr e =>
    exact (agree_effect e).ofStmt (by simp [Stmt.isConst, Stmt.exprs, Stmt.children])
  | breakOut line =>
    exact (agree_breakOut line).ofStmt (by simp [Stmt.exprs, Stmt.children])
  | continueLoop line =>
    exact (agree_continueLoop line).ofStmt (by simp [Stmt.exprs, Stmt.children])
  | const | empty =>
    exact (agree_pure _).ofStmt (by simp [Stmt.isConst, Stmt.exprs, Stmt.children])

theorem agree_stmts (ss : List Stmt) :
    Agree (fun cls => ∃ s ∈ ss, s.Joins cls) (stmts (Stmt.inlinedAll ss)) (stmts ss) := by
  cases ss with
  | nil => exact (agree_pure _).of_iff (by simp)
  | cons s ss => exact ((agree_stmt s).bind fun _ => agree_stmts ss).of_iff (by simp)

theorem agree_caseBodies (done : List Nat) (cs : List Case) :
    Agree (fun cls => ∃ s ∈ cs.flatMap Case.body, s.Joins cls)
      (caseBodies done (Case.inlinedAll cs))
      (caseBodies done cs) := by
  cases cs with
  | nil => exact (agree_pure _).of_iff (by simp)
  | cons c cs =>
    obtain ⟨line, labels, body⟩ := c
    have code := agree_here.then fun start => (agree_stmts body).bind fun _ =>
      agree_caseBodies (start :: done) cs
    refine code.of_iff fun _ => ?_
    simp only [List.flatMap_cons, List.mem_append, Case.body, or_and_right, exists_or]

end

theorem agree_funcBody (f : Func) :
    Agree (fun cls => ∃ s ∈ f.body.body, s.Joins cls) (funcBody f.inlined) (funcBody f) := by
  have calls : f.inlined.body.hasCall = f.body.hasCall := Stmt.anyHasCall_inlined f.body.body
  have returns : endsWithReturn f.inlined.body.body = endsWithReturn f.body.body :=
    endsWithReturn_inlined f.body.body
  have params := agree_forM_noClass f.params.reverse fun p => agree_reference p.name
  have ending (returns : Bool) :
      Agree NoClass (do unless returns && (← lastOp?) = some .ret do number 0; emit .ret)
        (do unless returns && (← lastOp?) = some .ret do number 0; emit .ret) :=
    agree_lastOp?.then fun _ => agree_ite (agree_pure _)
      ((agree_number 0).then fun _ => agree_emit _)
  have body := (agree_stmts f.body.body).before fun _ => ending (endsWithReturn f.body.body)
  rw [funcBody, funcBody, calls, returns]
  refine (agree_emit _).then fun _ => params.then fun _ => (agree_emit _).then fun _ =>
    (agree_emit _).then fun _ => ?_
  exact (agree_when (agree_emit _) body).of_iff (by simp)

theorem agree_item (i : Item) :
    Agree (fun cls => ∃ s ∈ i.stmts, s.Joins cls) (item i.inlined) (item i) := by
  cases i with
  | stmt s => exact (agree_stmt s).of_iff (by simp [Item.stmts])
  | func f =>
    refine (agree_jump _).then fun skip => (agree_declare _).then fun _ => ?_
    exact (agree_funcBody f).before fun _ => agree_patchHere skip

theorem agree_program (p : Program) :
    Agree (fun cls => ∃ s ∈ p.stmts, s.Joins cls) (program p.inlined) (program p) := by
  rw [program, program, Program.inlined, List.forM_eq_forM, List.forM_map]
  refine (agree_forM p.items fun i _ => agree_item i).of_iff fun cls => ?_
  simp only [Program.stmts, List.mem_flatMap]
  constructor
  · rintro ⟨s, ⟨i, hi, hs⟩, joins⟩
    exact ⟨i, hi, s, hs, joins⟩
  · rintro ⟨i, hi, s, hs, joins⟩
    exact ⟨s, ⟨i, hi, hs⟩, joins⟩

end statements

end Gen

namespace Program

theorem code_draft_inlined (p : Program) :
    p.inlined.draft.map Draft.code = p.draft.map Draft.code := by
  have alike := Gen.agree_program p .empty [] ∅ ∅
  change (((Gen.program p.inlined).run ⟨.empty, [], ∅⟩).map Prod.snd).map Draft.code =
    (((Gen.program p).run ⟨.empty, [], ∅⟩).map Prod.snd).map Draft.code
  generalize (Gen.program p.inlined).run ⟨.empty, [], ∅⟩ = x at *
  generalize (Gen.program p).run ⟨.empty, [], ∅⟩ = y at *
  cases alike with
  | ok code => exact congrArg Except.ok code
  | error => rfl

/-- Writing out its constants changes nothing of a program's image, nor of the error that it fails
with. -/
theorem image_generate_inlined (p : Program) (prologue : List UInt8) :
    (p.inlined.generate prologue).map Output.image = (p.generate prologue).map Output.image := by
  have image (q : Program) : (q.generate prologue).map Output.image =
      q.draft.map Draft.code >>= fun code => code.image prologue := by
    rw [generate]
    cases q.draft with
    | error x => rfl
    | ok d =>
      change ((d.code.image prologue >>= fun image => pure ⟨image, d.joined.toList⟩).map
        Output.image) =
        d.code.image prologue
      cases d.code.image prologue <;> rfl
  rw [image, image, code_draft_inlined]

/-- The classes that are noted for a program are those that its statements join. -/
theorem mem_joined_draft {p : Program} {d : Draft} (h : p.draft = .ok d) {cls : String} :
    cls ∈ d.joined ↔ ∃ s ∈ p.stmts, s.Joins cls := by
  have alike := Gen.agree_program p .empty [] ∅ ∅
  obtain ⟨⟨⟨⟩, _⟩, run, ⟨⟩⟩ := bind_eq_ok_iff.mp h
  rw [show (Gen.program p).run ⟨.empty, [], ∅⟩ = _ from run] at alike
  generalize (Gen.program p.inlined).run ⟨.empty, [], ∅⟩ = x at alike
  cases alike with
  | ok _ _ noted => simpa using noted cls

end Program

end GraalScript
