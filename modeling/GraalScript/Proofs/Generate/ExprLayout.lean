import GraalScript.Generate.Expr
import GraalScript.Proofs.Generate.Lays
import GraalScript.Proofs.Tree.Ready

/-! Layouts of expressions. Each part of the generator that writes expressions places the slots of
the layout of the same name, and fails under bound names only for want of room. -/
namespace GraalScript

namespace Layout

theorem nil_append (a : Layout) : nil ++ a = a := by
  funext n last
  simp [append_apply, nil]

theorem append_nil (a : Layout) : a ++ nil = a := by
  funext n last
  simp [append_apply, nil]

theorem append_assoc (a b c : Layout) : a ++ b ++ c = a ++ (b ++ c) := by
  funext n last
  simp [append_apply, Nat.add_assoc]

def memberOf (name : String) : Layout := one (.text .typeVar name) ++ op .memberAccess

def localVar (name : String) : Layout := op .temp ++ memberOf name

def convert (want given : ValueType) : Layout :=
  match want, given with
  | .number, .number | .number, .bool | .string, .string => nil
  | .number, _ => op .convToFloat
  | .string, _ => op .convToString
  | _, _ => nil

def toObject : Layout :=
  behind fun last => if last.any Opcode.leavesObject then nil else op .convToObject

def literal : Literal → Layout
  | .int n => one (.number n)
  | .float text => one (.decimal text)
  | .str text => one (.text .typeString text)
  | .bool true => op .typeTrue
  | .bool false => op .typeFalse
  | .null => op .typeNull

def bound (name : String) : Binding → Layout
  | .unresolved => nil
  | .constant value => literal value.literal
  | .localVar => localVar name
  | .builtin => (Opcode.ofRoot? name).elim (one (.text .typeVar name)) op
  | .objectVar | .param | .func => one (.text .typeVar name)

def element (object index : Layout) (type : ValueType) : Layout :=
  object ++ index ++ if type = .number then nil else op .convToFloat

def binary (type : ValueType) (o : BinaryOp) (lhs rhs : Layout) (left right : ValueType) : Layout :=
  lhs ++ convert type left ++ rhs ++ convert type right ++ op o.opcode

def test (value : Layout) (type : ValueType) : Layout :=
  value ++ behind fun last => if last.any Opcode.leavesBool then nil else convert .number type

/-- A first piece of code, a jump behind the second, the second, and a jump over the third. -/
def branch (o : Opcode) (first second third : Layout) : Layout := fun n last =>
  let x := first n last
  let y := second (n + x.length + 1) (some o)
  let next := n + x.length + 1 + y.length + 1
  let z := third next (some .setIndex)
  x ++ .jump o next :: (y ++ .jump .setIndex (next + z.length) :: z)

def logical (o : LogicalOp) (lhs rhs : Layout) : Layout := branch o.jump lhs rhs (op o.short)

def choose (cond yes no : Layout) : Layout := branch .ifThen cond yes no

def step (o : StepOp) (before : Bool) (target : Layout) : Layout :=
  target ++
    if before then op o.opcode
    else op .copyLastOp ++ op .convToFloat ++ op .swapLastOps ++ op o.opcode ++ op .indexDec

def assign (o : Option BinaryOp) (element? : Option Layout) (target value : Layout)
    (targetType valueType : ValueType) : Layout :=
  element?.getD target ++
    (match o with
      | none => value
      | some o =>
        binary o.compoundType o (if element?.isSome then target else op .copyLastOp) value
          targetType valueType) ++
    op (if element?.isSome then .arrayAssign else .assign)

def receiver (c : Command) (object? : Option Layout) : Layout :=
  object?.getD nil ++
    match c.convert with
    | none => nil
    | some o => behind fun last =>
      if last = some o || o = .convToObject && last.any Opcode.leavesObject then nil else op o

def arguments (c : Command) (args : List Layout) : Layout :=
  if c.style.reverseArgs then all args
  else if args.isEmpty && c.op = .objTokenize then one (.text .typeString Command.defaultSeparators)
  else all args.reverse

def call (c : Command) (object? : Option Layout) (function : Layout) (args : List Layout) :
    Layout :=
  (if c.style.objectFirst then receiver c object? else nil) ++
    (if c.style.useArray then op .typeArray else nil) ++
    arguments c args ++
    (if c.style.objectFirst then nil else receiver c object?) ++
    (if c.op = .call then function else nil) ++
    op c.op

def newObject (cls : String) (args : List Layout) : Layout :=
  (match args with
    | [name] => name ++ op .inlineNew
    | _ => one (.text .typeVar "unknown_object")) ++
    one (.text .typeString cls) ++ op .newObject

def newArray : List UInt32 → Layout
  | [] => nil
  | dim :: dims =>
    one (.number dim) ++ op .arrayNew ++
      all (dims.map fun dim => one (.number dim) ++ op .arrayNewMultidim)

mutual

def expr : Expr → Layout
  | .literal _ value => literal value
  | .name _ name binding => bound name binding
  | .member _ object member => expr object ++ toObject ++ memberOf member.name
  | .index _ object index => element (expr object) (expr index) index.valueType ++ op .array
  | .call _ callee args =>
    call callee.command (object? callee) (callee.memberName?.elim (expr callee) memberOf)
      (codesOnto [] args)
  | .array _ items => op .typeArray ++ all (codesOnto [] items) ++ op .arrayEnd
  | .unary _ o operand => expr operand ++ op .convToFloat ++ op o.opcode
  | .step _ o before target => step o before (expr target)
  | .binary _ o lhs rhs => binary o.operandType o (expr lhs) (expr rhs) lhs.valueType rhs.valueType
  | .logical _ o lhs rhs =>
    logical o (test (expr lhs) lhs.valueType) (test (expr rhs) rhs.valueType)
  | .assign _ o target value =>
    assign o (element? target) (expr target) (expr value) target.valueType value.valueType ++
      expr target
  | .ternary _ cond yes no => choose (test (expr cond) cond.valueType) (expr yes) (expr no)
  | .cast _ kind operand => expr operand ++ op kind.opcode
  | .inRange _ value lower upper =>
    expr value ++ expr lower ++ convert .number lower.valueType ++ expr upper ++
      convert .number upper.valueType ++ op .inRange
  | .inObject _ value object => expr value ++ expr object ++ toObject ++ op .inObj
  | .new _ cls args => newObject cls.name (codesOnto [] args)
  | .newArray _ dims => newArray dims

def codesOnto (done : List Layout) : List Expr → List Layout
  | [] => done
  | e :: es => codesOnto (expr e :: done) es

def object? : Expr → Option Layout
  | .member _ object _ => some (expr object)
  | _ => none

def element? : Expr → Option Layout
  | .index _ object index => some (element (expr object) (expr index) index.valueType)
  | _ => none

end

def condition (e : Expr) : Layout := test (expr e) e.valueType

def effect : Expr → Layout
  | .assign _ o target value =>
    assign o (element? target) (expr target) (expr value) target.valueType value.valueType
  | .step _ o _ target => expr target ++ op o.opcode ++ op .indexDec
  | .call line callee args =>
    expr (.call line callee args) ++ if callee.command.style.returnsValue then op .indexDec else nil
  | e => expr e ++ op .indexDec

end Layout

namespace Gen

open Layout

variable {shape : List Bool} {P : Prop} {a b c : Layout} {f g h : Gen Unit}

theorem lays_when {p : Prop} [Decidable p] (first : Lays shape P a f) (rest : Lays shape P b g) :
    Lays shape P ((if p then a else nil) ++ b) (if p then (do f; g) else g) := by
  split
  · exact first.seq rest
  · rw [nil_append]
    exact rest

theorem lays_unless {p : Prop} [Decidable p] (first : Lays shape P a f) (rest : Lays shape P b g) :
    Lays shape P ((if p then nil else a) ++ b) (if p then g else (do f; g)) := by
  split
  · rw [nil_append]
    exact rest
  · exact first.seq rest

theorem lays_branch (o : Opcode) (first : Lays shape P a f) (second : Lays shape P b g)
    (third : Lays shape P c h) :
    Lays shape P (branch o a b c) (do
      f
      let otherwise ← jump o
      g
      let done ← jump .setIndex
      patchHere otherwise
      h
      patchHere done) := by
  intro d hd
  refine (first d hd).bind fun _ d₁ placed₁ => ?_
  refine (ends_jump o).bind fun otherwise d₂ made₁ => ?_
  refine (second.after (placed₁.trans made₁.2) hd).bind fun _ d₃ placed₂ => ?_
  refine (ends_jump .setIndex).bind fun done d₄ made₂ => ?_
  unfold branch
  generalize hx : a d.code.size d.code.lastOp? = x at *
  have starts : d.code.size + (x ++ [Slot.waits o .inside]).length =
      d.code.size + x.length + 1 := by
    simp only [List.length_append, List.length_cons, List.length_nil]
    omega
  rw [starts] at placed₂
  simp only [Slot.lastOf_append, Slot.lastOf_cons, Slot.lastOf_nil, Slot.op] at placed₂
  generalize hy : b (d.code.size + x.length + 1) (some o) = y at *
  -- Both jumps wait inside, so the code splits at each of them in turn.
  have open₁ :
      d.Follows (x ++ Slot.waits o .inside :: (y ++ [Slot.waits .setIndex .inside])) d₄ := by
    simpa using placed₂.trans made₂.2
  refine (ends_patchHere_inside open₁ (made₁.1.trans placed₁.size_eq)).bind fun _ d₅ patched₁ => ?_
  refine (third.after patched₁ hd).bind fun _ d₆ placed₃ => ?_
  have next : d.code.size + x.length + 1 + (y ++ [Slot.waits .setIndex .inside]).length =
      d.code.size + x.length + 1 + y.length + 1 := by
    simp only [List.length_append, List.length_cons, List.length_nil]
    omega
  have length :
      ∀ t, d.code.size + (x ++ Slot.jump o t :: (y ++ [Slot.waits .setIndex .inside])).length =
      d.code.size + x.length + 1 + y.length + 1 := by
    intro t
    simp only [List.length_append, List.length_cons, List.length_nil]
    omega
  rw [next, length] at placed₃
  simp only [Slot.lastOf_append, Slot.lastOf_cons, Slot.lastOf_nil, Slot.op] at placed₃
  generalize hz : c (d.code.size + x.length + 1 + y.length + 1) (some .setIndex) = z at *
  have open₂ : d.Follows ((x ++ Slot.jump o (d.code.size + x.length + 1 + y.length + 1) :: y) ++
      .waits .setIndex .inside :: z) d₆ := by
    simpa using placed₃
  have label : done = d.code.size +
      (x ++ Slot.jump o (d.code.size + x.length + 1 + y.length + 1) :: y).length := by
    rw [made₂.1, placed₂.size_eq]
    simp
  refine (ends_patchHere_inside open₂ label).mono fun _ d' patched₂ => ?_
  have stop : ∀ t, d.code.size + (x ++ Slot.jump o t :: y).length + 1 =
      d.code.size + x.length + 1 + y.length + 1 := by
    intro t
    simp only [List.length_append, List.length_cons]
    omega
  rw [stop] at patched₂
  simpa [hx, hy, hz] using patched₂

theorem lays_memberOf (name : String) : Lays shape P (Layout.memberOf name) (Gen.memberOf name) :=
  (lays_reference name).seq (lays_emit _)

theorem lays_localVar (name : String) : Lays shape P (Layout.localVar name) (Gen.localVar name) :=
  (lays_emit _).seq (lays_memberOf name)

theorem lays_literal (value : Literal) :
    Lays shape P (Layout.literal value) (Gen.literal value) := by
  cases value with
  | int n => exact lays_number n
  | float text => exact lays_decimal text
  | str text => exact lays_string text
  | bool value => cases value <;> exact lays_emit _
  | null => exact lays_emit _

theorem lays_bound (line : Nat) (name : String) {binding : Binding}
    (h : P → binding.isBound = true) :
    Lays shape P (Layout.bound name binding) (Gen.bound line name binding) := by
  cases binding with
  | unresolved => exact fun _ _ p => absurd (h p) (by decide)
  | constant value => exact lays_literal value.literal
  | localVar => exact lays_localVar name
  | builtin =>
    simp only [Layout.bound, Gen.bound]
    cases Opcode.ofRoot? name with
    | none => exact lays_reference name
    | some o => exact lays_emit o
  | objectVar | param | func => exact lays_reference name

theorem lays_convert (want given : ValueType) :
    Lays shape P (Layout.convert want given) (Gen.convert want given) := by
  cases want <;> cases given <;> first | exact lays_pure | exact lays_emit _

theorem lays_toObject : Lays shape P Layout.toObject Gen.toObject :=
  lays_behind fun _ => lays_ite lays_pure (lays_emit _)

theorem lays_element (object : Lays shape P a f) (index : Lays shape P b g) (type : ValueType) :
    Lays shape P (Layout.element a b type) (Gen.element f g type) := by
  rw [Layout.element, append_assoc]
  exact object.seq (index.seq (lays_ite lays_pure (lays_emit _)))

theorem lays_binary (type : ValueType) (o : BinaryOp) (lhs : Lays shape P a f)
    (rhs : Lays shape P b g) (left right : ValueType) :
    Lays shape P (Layout.binary type o a b left right) (Gen.binary type o f g left right) := by
  simp only [Layout.binary, append_assoc]
  exact lhs.seq ((lays_convert _ _).seq (rhs.seq ((lays_convert _ _).seq (lays_emit _))))

theorem lays_test (value : Lays shape P a f) (type : ValueType) :
    Lays shape P (Layout.test a type) (Gen.test f type) :=
  value.seq (lays_behind fun _ => lays_ite lays_pure (lays_convert _ _))

theorem lays_logical (o : LogicalOp) (lhs : Lays shape P a f) (rhs : Lays shape P b g) :
    Lays shape P (Layout.logical o a b) (Gen.logical o f g) :=
  lays_branch o.jump lhs rhs (lays_emit o.short)

theorem lays_choose (cond : Lays shape P a f) (yes : Lays shape P b g) (no : Lays shape P c h) :
    Lays shape P (Layout.choose a b c) (Gen.choose f g h) := lays_branch .ifThen cond yes no

theorem lays_step (o : StepOp) (before : Bool) (target : Lays shape P a f) :
    Lays shape P (Layout.step o before a) (Gen.step o before f) := by
  refine target.seq (lays_ite (lays_emit _) ?_)
  simp only [append_assoc]
  exact (lays_emit _).seq ((lays_emit _).seq ((lays_emit _).seq ((lays_emit _).seq (lays_emit _))))

theorem lays_getD {a? : Option Layout} {f? : Option (Gen Unit)}
    (given : Option.Rel (Lays shape P) a? f?) (default : Lays shape P b g) :
    Lays shape P (a?.getD b) (f?.getD g) := by
  cases given with
  | some lays => exact lays
  | none => exact default

theorem lays_assign (o : Option BinaryOp) {a? : Option Layout} {f? : Option (Gen Unit)}
    (place : Option.Rel (Lays shape P) a? f?) (target : Lays shape P a f) (value : Lays shape P b g)
    (targetType valueType : ValueType) :
    Lays shape P (Layout.assign o a? a b targetType valueType)
      (Gen.assign o f? f g targetType valueType) := by
  have kinds : a?.isSome = f?.isSome := by cases place <;> rfl
  simp only [Layout.assign, Gen.assign, append_assoc, kinds]
  refine (lays_getD place target).seq ?_
  cases o with
  | none => exact value.seq (lays_emit _)
  | some o =>
    exact (lays_binary _ o (lays_ite target (lays_emit _)) value _ _).seq (lays_emit _)

theorem lays_receiver (o : Command) {a? : Option Layout} {f? : Option (Gen Unit)}
    (object : Option.Rel (Lays shape P) a? f?) :
    Lays shape P (Layout.receiver o a?) (Gen.receiver o f?) := by
  simp only [Layout.receiver, Gen.receiver]
  refine (lays_getD object lays_pure).seq ?_
  cases o.convert with
  | none => exact lays_pure
  | some convert => exact lays_behind fun _ => lays_ite lays_pure (lays_emit _)

theorem lays_arguments (o : Command) {as : List Layout} {fs : List (Gen Unit)}
    (args : List.Forall₂ (Lays shape P) as fs) (rest : Lays shape P b g) :
    Lays shape P (Layout.arguments o as ++ b) (if o.style.reverseArgs then (do Gen.all fs; g)
      else if fs.isEmpty && o.op = .objTokenize then (do string Command.defaultSeparators; g)
      else (do Gen.all fs.reverse; g)) := by
  have empty : as.isEmpty = fs.isEmpty := by cases args <;> rfl
  rw [Layout.arguments, empty]
  split
  · exact (lays_all args).seq rest
  · split
    · exact (lays_string _).seq rest
    · exact (lays_all (List.rel_reverse args)).seq rest

theorem lays_call (o : Command) {a? : Option Layout} {f? : Option (Gen Unit)} {as : List Layout}
    {fs : List (Gen Unit)} (object : Option.Rel (Lays shape P) a? f?) (function : Lays shape P a f)
    (args : List.Forall₂ (Lays shape P) as fs) :
    Lays shape P (Layout.call o a? a as) (Gen.call o f? f fs) := by
  have receiver := lays_receiver o object
  have final := lays_when (p := o.op = .call) function (lays_emit o.op)
  simp only [Layout.call, append_assoc]
  exact lays_when receiver
    (lays_when (lays_emit _) (lays_arguments o args (lays_unless receiver final)))

theorem lays_newObject (cls : String) {as : List Layout} {fs : List (Gen Unit)}
    (args : List.Forall₂ (Lays shape P) as fs) :
    Lays shape P (Layout.newObject cls as) (Gen.newObject cls fs) := by
  have named : Lays shape P (one (.text .typeString cls) ++ op .newObject)
      (do string cls; emit .newObject) := (lays_string cls).seq (lays_emit _)
  simp only [Layout.newObject, append_assoc]
  cases args with
  | nil => exact (lays_reference _).seq named
  | cons first rest =>
    cases rest with
    | nil =>
      rw [append_assoc]
      exact first.seq ((lays_emit _).seq named)
    | cons _ _ => exact (lays_reference _).seq named

theorem lays_forM {α : Type} {c : α → Layout} {f : α → Gen Unit} (xs : List α)
    (lays : ∀ x ∈ xs, Lays shape P (c x) (f x)) :
    Lays shape P (Layout.all (xs.map c)) (xs.forM f) := by
  induction xs with
  | nil => exact lays_pure
  | cons x xs ih =>
    have rest := ih fun y hy => lays y (List.mem_cons_of_mem x hy)
    exact (lays x List.mem_cons_self).seq rest

theorem lays_newArray (dims : List UInt32) :
    Lays shape P (Layout.newArray dims) (Gen.newArray dims) := by
  cases dims with
  | nil => exact lays_pure
  | cons dim dims =>
    simp only [Layout.newArray, append_assoc]
    refine (lays_number dim).seq ((lays_emit _).seq (lays_forM dims fun dim _ => ?_))
    exact (lays_number dim).seq (lays_emit _)

theorem lays_noteJoin (class? : Option String) : Lays shape P nil (noteJoin class?) := by
  cases class? with
  | none => exact lays_pure
  | some cls => exact fun d _ => ⟨rfl, (Draft.Follows.refl d).frames_eq, rfl⟩

theorem lays_callee {e : Expr} (lays : Lays shape P (Layout.expr e) (Gen.expr e)) :
    Lays shape P (e.memberName?.elim (Layout.expr e) Layout.memberOf)
      (e.memberName?.elim (Gen.expr e) Gen.memberOf) := by
  cases e.memberName? with
  | none => exact lays
  | some name => exact lays_memberOf name

mutual

theorem lays_expr (e : Expr) (h : P → e.isBound = true) :
    Lays shape P (Layout.expr e) (Gen.expr e) := by
  cases e with
  | literal _ value => exact lays_literal value
  | name line name binding => exact lays_bound line name h
  | member _ object member =>
    rw [Layout.expr, append_assoc]
    exact (lays_expr object h).seq (lays_toObject.seq (lays_memberOf _))
  | index _ object index =>
    simp only [Expr.isBound, Bool.and_eq_true] at h
    have place :=
      lays_element (lays_expr object fun p => (h p).1) (lays_expr index fun p => (h p).2)
      index.valueType
    exact place.seq (lays_emit _)
  | call _ callee args =>
    simp only [Expr.isBound, Bool.and_eq_true] at h
    have function := lays_callee (lays_expr callee fun p => (h p).1)
    have code := lays_call callee.command (lays_object? callee fun p => (h p).1) function
      (lays_codesOnto args (fun p => (h p).2) .nil)
    exact nil_append (Layout.expr _) ▸ (lays_noteJoin (callee.joinedClass? args)).seq code
  | array _ items =>
    rw [Layout.expr, append_assoc]
    exact (lays_emit _).seq ((lays_all (lays_codesOnto items h .nil)).seq (lays_emit _))
  | unary _ o operand =>
    rw [Layout.expr, append_assoc]
    exact (lays_expr operand h).seq ((lays_emit _).seq (lays_emit _))
  | step _ o before target => exact lays_step o before (lays_expr target h)
  | binary _ o lhs rhs =>
    simp only [Expr.isBound, Bool.and_eq_true] at h
    exact lays_binary _ o (lays_expr lhs fun p => (h p).1) (lays_expr rhs fun p => (h p).2) _ _
  | logical _ o lhs rhs =>
    simp only [Expr.isBound, Bool.and_eq_true] at h
    exact lays_logical o (lays_test (lays_expr lhs fun p => (h p).1) _)
      (lays_test (lays_expr rhs fun p => (h p).2) _)
  | assign _ o target value =>
    simp only [Expr.isBound, Bool.and_eq_true] at h
    have read := lays_expr target fun p => (h p).1
    have stored := lays_assign o (lays_element? target fun p => (h p).1) read
      (lays_expr value fun p => (h p).2) target.valueType value.valueType
    exact stored.seq read
  | ternary _ cond yes no =>
    simp only [Expr.isBound, Bool.and_eq_true] at h
    exact lays_choose (lays_test (lays_expr cond fun p => (h p).1.1) _)
      (lays_expr yes fun p => (h p).1.2) (lays_expr no fun p => (h p).2)
  | cast _ kind operand => exact (lays_expr operand h).seq (lays_emit _)
  | inRange _ value lower upper =>
    simp only [Expr.isBound, Bool.and_eq_true] at h
    simp only [Layout.expr, append_assoc]
    exact (lays_expr value fun p => (h p).1.1).seq ((lays_expr lower fun p => (h p).1.2).seq
      ((lays_convert _ _).seq ((lays_expr upper fun p => (h p).2).seq
        ((lays_convert _ _).seq (lays_emit _)))))
  | inObject _ value object =>
    simp only [Expr.isBound, Bool.and_eq_true] at h
    simp only [Layout.expr, append_assoc]
    exact (lays_expr value fun p => (h p).1).seq ((lays_expr object fun p => (h p).2).seq
      (lays_toObject.seq (lays_emit _)))
  | new _ cls args => exact lays_newObject cls.name (lays_codesOnto args h .nil)
  | newArray _ dims => exact lays_newArray dims

theorem lays_codesOnto {as : List Layout} {fs : List (Gen Unit)} (es : List Expr)
    (h : P → Expr.allBound es = true) (done : List.Forall₂ (Lays shape P) as fs) :
    List.Forall₂ (Lays shape P) (Layout.codesOnto as es) (Gen.codesOnto fs es) := by
  cases es with
  | nil => exact done
  | cons e es =>
    simp only [Expr.allBound, Bool.and_eq_true] at h
    exact lays_codesOnto es (fun p => (h p).2) (.cons (lays_expr e fun p => (h p).1) done)

theorem lays_object? (e : Expr) (h : P → e.isBound = true) :
    Option.Rel (Lays shape P) (Layout.object? e) (Gen.object? e) := by
  cases e with
  | member _ object _ => exact .some (lays_expr object h)
  | _ => exact .none

theorem lays_element? (e : Expr) (h : P → e.isBound = true) :
    Option.Rel (Lays shape P) (Layout.element? e) (Gen.element? e) := by
  cases e with
  | index _ object index =>
    simp only [Expr.isBound, Bool.and_eq_true] at h
    exact .some
      (lays_element (lays_expr object fun p => (h p).1) (lays_expr index fun p => (h p).2) _)
  | _ => exact .none

end

theorem lays_condition (e : Expr) (h : P → e.isBound = true) :
    Lays shape P (Layout.condition e) (Gen.condition e) := lays_test (lays_expr e h) _

theorem lays_effect (e : Expr) (h : P → e.isBound = true) :
    Lays shape P (Layout.effect e) (Gen.effect e) := by
  have dropped : Lays shape P (Layout.expr e ++ op .indexDec) (do Gen.expr e; emit .indexDec) :=
    (lays_expr e h).seq (lays_emit _)
  cases e with
  | assign _ o target value =>
    simp only [Expr.isBound, Bool.and_eq_true] at h
    exact lays_assign o (lays_element? target fun p => (h p).1) (lays_expr target fun p => (h p).1)
      (lays_expr value fun p => (h p).2) _ _
  | step _ o _ target =>
    simp only [Layout.effect, append_assoc]
    exact (lays_expr target h).seq ((lays_emit _).seq (lays_emit _))
  | call line callee args =>
    exact (lays_expr _ h).seq (lays_ite (lays_emit _) lays_pure)
  | _ => exact dropped

end Gen

end GraalScript
