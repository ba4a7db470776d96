import GraalScript.Proofs.Generate.Opening
import GraalScript.Proofs.Generate.Trace
import GraalScript.Proofs.StructuredJumps
import GraalScript.Proofs.Tree.Calls

/-! The announcement of calls. A function whose body has a call or a statement `new` says so behind
its start. The scan that decides this goes through the tree on its own, so it is compared with what
stands in the tree, and with the calls that stand in the code of the body. -/
namespace GraalScript

/-- The operation is written for a call or by a statement `new`. -/
def Effect.isCalling : Effect → Bool
  | node (.call ..) | upkeep (.keep ..) | upkeep (.attach ..) => true
  | node (.step ..) | node (.assign ..) | node (.power ..) | upkeep (.define _)
  | upkeep (.advance _) => false

def Effect.Quiet (es : List Effect) : Prop := ∀ e ∈ es, e.isCalling = false

namespace Effect

theorem quiet_nil : Quiet [] := List.forall_mem_nil _

@[simp] theorem quiet_append {x y : List Effect} : Quiet (x ++ y) ↔ Quiet x ∧ Quiet y :=
  List.forall_mem_append

theorem quiet_ite {p : Prop} [Decidable p] {x y : List Effect} (yes : Quiet x) (no : Quiet y) :
    Quiet (if p then x else y) := by
  split
  · exact yes
  · exact no

theorem quiet_flatten {xs : List (List Effect)} (h : ∀ x ∈ xs, Quiet x) : Quiet xs.flatten := by
  intro e inside
  obtain ⟨x, mem, inside⟩ := List.mem_flatten.mp inside
  exact h x mem e inside

theorem quiet_flatMap {α : Type} {f : α → List Effect} {xs : List α} (h : ∀ x ∈ xs, Quiet (f x)) :
    Quiet (xs.flatMap f) := by
  intro e inside
  obtain ⟨x, mem, inside⟩ := List.mem_flatMap.mp inside
  exact h x mem e inside

end Effect

open Effect

mutual

theorem Expr.quiet_trace (used : Bool) (e : Expr) (h : e.hasCall = false) :
    Quiet (e.trace used) := by
  cases e with
  | literal | name | newArray => exact quiet_nil
  | member _ object _ => exact object.quiet_trace true h
  | index _ object i =>
    rw [Expr.hasCall, Bool.or_eq_false_iff] at h
    exact quiet_append.mpr ⟨object.quiet_trace true h.1, i.quiet_trace true h.2⟩
  | call => cases h
  | array _ items =>
    exact quiet_flatten fun x inside => Expr.quiet_traces items h x (List.mem_reverse.mp inside)
  | unary _ _ operand | cast _ _ operand => exact operand.quiet_trace true h
  | step _ _ _ target =>
    exact quiet_append.mpr ⟨target.quiet_trace true h, List.forall_mem_singleton.mpr rfl⟩
  | binary _ _ lhs rhs =>
    rw [Expr.hasCall, Bool.or_eq_false_iff] at h
    refine quiet_append.mpr
      ⟨quiet_append.mpr ⟨lhs.quiet_trace true h.1, rhs.quiet_trace true h.2⟩, ?_⟩
    exact quiet_ite (List.forall_mem_singleton.mpr rfl) quiet_nil
  | logical _ _ lhs rhs =>
    rw [Expr.hasCall, Bool.or_eq_false_iff] at h
    exact quiet_append.mpr ⟨lhs.quiet_trace true h.1, rhs.quiet_trace true h.2⟩
  | assign _ op target value =>
    rw [Expr.hasCall, Bool.or_eq_false_iff] at h
    have place := target.quiet_trace true h.1
    simp only [Expr.trace, quiet_append]
    exact ⟨⟨⟨⟨⟨place, quiet_ite place quiet_nil⟩, value.quiet_trace true h.2⟩,
      quiet_ite (List.forall_mem_singleton.mpr rfl) quiet_nil⟩, List.forall_mem_singleton.mpr rfl⟩,
      quiet_ite place quiet_nil⟩
  | ternary _ cond yes no =>
    simp only [Expr.hasCall, Bool.or_eq_false_iff] at h
    simp only [Expr.trace, quiet_append]
    exact ⟨⟨cond.quiet_trace true h.1.1, yes.quiet_trace true h.1.2⟩, no.quiet_trace true h.2⟩
  | inRange _ value lower upper =>
    simp only [Expr.hasCall, Bool.or_eq_false_iff] at h
    simp only [Expr.trace, quiet_append]
    exact ⟨⟨value.quiet_trace true h.1.1, lower.quiet_trace true h.1.2⟩, upper.quiet_trace true h.2⟩
  | inObject _ value object =>
    rw [Expr.hasCall, Bool.or_eq_false_iff] at h
    exact quiet_append.mpr ⟨value.quiet_trace true h.1, object.quiet_trace true h.2⟩
  | new _ _ args =>
    have each := Expr.quiet_traces args h
    rw [Expr.trace]
    unfold ofOnly
    split
    next only same => exact each only (same ▸ List.mem_cons_self)
    next => exact quiet_nil

theorem Expr.quiet_traces (es : List Expr) (h : Expr.anyHasCall es = false) :
    ∀ x ∈ Expr.traces es, Quiet x := by
  cases es with
  | nil => exact List.forall_mem_nil _
  | cons e es =>
    rw [Expr.anyHasCall, Bool.or_eq_false_iff] at h
    exact List.forall_mem_cons.mpr ⟨e.quiet_trace true h.1, Expr.quiet_traces es h.2⟩

end

theorem Expr.quiet_trace? (used : Bool) (e : Option Expr) (h : e.any Expr.hasCall = false) :
    Quiet (Expr.trace? used e) := by
  cases e with
  | none => exact quiet_nil
  | some e => exact e.quiet_trace used h

theorem VarDecl.quiet_trace (decl : VarDecl) (h : decl.hasCall = false) : Quiet decl.trace := by
  refine quiet_flatMap fun d inside => quiet_append.mpr ⟨Expr.quiet_trace? true d.value ?_, ?_⟩
  · exact Bool.eq_false_iff.mpr (List.any_eq_false.mp h d inside)
  · exact List.forall_mem_singleton.mpr rfl

theorem ForInit.quiet_trace (init : Option ForInit) (h : init.any ForInit.hasCall = false) :
    Quiet (init.elim [] ForInit.trace) := by
  match init with
  | none => exact quiet_nil
  | some (.vars decl) => exact decl.quiet_trace h
  | some (.expr e) => exact e.quiet_trace false h

mutual

theorem Stmt.quiet_trace (s : Stmt) (h : s.hasCall = false) : Quiet s.trace := by
  cases s with
  | block _ body => exact Stmt.quiet_traceAll body h
  | ifThen _ cond yes =>
    rw [Stmt.hasCall, Bool.or_eq_false_iff] at h
    exact quiet_append.mpr ⟨cond.quiet_trace true h.1, yes.quiet_trace h.2⟩
  | ifElse _ cond yes no =>
    simp only [Stmt.hasCall, Bool.or_eq_false_iff] at h
    simp only [Stmt.trace, quiet_append]
    exact ⟨⟨cond.quiet_trace true h.1.1, yes.quiet_trace h.1.2⟩, no.quiet_trace h.2⟩
  | whileLoop _ cond body =>
    rw [Stmt.hasCall, Bool.or_eq_false_iff] at h
    exact quiet_append.mpr ⟨cond.quiet_trace true h.1, body.quiet_trace h.2⟩
  | forLoop _ init cond step body =>
    simp only [Stmt.hasCall, Bool.or_eq_false_iff] at h
    obtain ⟨⟨⟨begins, goes⟩, steps⟩, rounds⟩ := h
    simp only [Stmt.trace, quiet_append]
    exact ⟨ForInit.quiet_trace init begins,
      ⟨Expr.quiet_trace? true cond goes, body.quiet_trace rounds⟩,
      Expr.quiet_trace? false step steps⟩
  | forEach _ _ _ _ iterable body =>
    rw [Stmt.hasCall, Bool.or_eq_false_iff] at h
    simp only [Stmt.trace, quiet_append]
    exact ⟨iterable.quiet_trace true h.1, body.quiet_trace h.2, List.forall_mem_singleton.mpr rfl⟩
  | withObject _ object body =>
    rw [Stmt.hasCall, Bool.or_eq_false_iff] at h
    exact quiet_append.mpr ⟨object.quiet_trace true h.1, body.quiet_trace h.2⟩
  | switch _ value cases =>
    rw [Stmt.hasCall, Bool.or_eq_false_iff] at h
    obtain ⟨bodies, labels⟩ := Case.quiet_traceAll cases h.2
    simp only [Stmt.trace, quiet_append]
    exact ⟨bodies, value.quiet_trace true h.1, labels⟩
  | new => cases h
  | ret _ value => exact Expr.quiet_trace? true value h
  | vars decl => exact decl.quiet_trace h
  | expr e => exact e.quiet_trace false h
  | breakOut | continueLoop | const | empty => exact quiet_nil

theorem Stmt.quiet_traceAll (ss : List Stmt) (h : Stmt.anyHasCall ss = false) :
    Quiet (Stmt.traceAll ss) := by
  cases ss with
  | nil => exact quiet_nil
  | cons s ss =>
    rw [Stmt.anyHasCall, Bool.or_eq_false_iff] at h
    exact quiet_append.mpr ⟨s.quiet_trace h.1, Stmt.quiet_traceAll ss h.2⟩

theorem Case.quiet_traceAll (cs : List Case) (h : Case.anyHasCall cs = false) :
    Quiet (Case.traceAll cs) ∧ Quiet (cs.flatMap fun c => c.labels.flatMap (Expr.trace? true)) := by
  cases cs with
  | nil => exact ⟨quiet_nil, quiet_nil⟩
  | cons c cs =>
    rw [Case.anyHasCall, Bool.or_eq_false_iff] at h
    obtain ⟨body, labels⟩ := c.quiet_trace h.1
    obtain ⟨bodies, others⟩ := Case.quiet_traceAll cs h.2
    exact ⟨quiet_append.mpr ⟨body, bodies⟩, quiet_append.mpr ⟨labels, others⟩⟩

theorem Case.quiet_trace (c : Case) (h : c.hasCall = false) :
    Quiet c.trace ∧ Quiet (c.labels.flatMap (Expr.trace? true)) := by
  cases c with
  | mk _ labels body =>
    rw [Case.hasCall, Bool.or_eq_false_iff] at h
    refine ⟨Stmt.quiet_traceAll body h.2,
      quiet_flatMap fun label inside => Expr.quiet_trace? true label ?_⟩
    exact Bool.eq_false_iff.mpr (List.any_eq_false.mp h.1 label inside)

end

namespace Assembly

def ops (a : Assembly) : List Opcode := a.instrs.toList.map Instr.op

theorem length_ops (a : Assembly) : a.ops.length = a.size := by simp [ops, size]

end Assembly

theorem Draft.Follows.ops_eq {d d' : Draft} {x : List Slot} (h : d.Follows x d') :
    d'.code.ops = d.code.ops ++ x.map Slot.op := by
  rw [h.code_eq]
  exact d.code.map_op_placeAll x

/-- Behind the operations in `front`, generating `g` writes those in `code`. -/
def Gen.Writes (g : Gen Unit) (front code : List Opcode) : Prop :=
  ∃ d d', g.run d = .ok ((), d') ∧ d.code.ops = front ∧ d'.code.ops = front ++ code

def Func.opening (f : Func) : List Opcode :=
  Opcode.typeArray :: List.replicate f.params.length .typeVar ++ [Opcode.funcParamsEnd, .jmp]

def Func.guard (f : Func) : List Opcode := if f.body.hasCall then [.cmdCall] else []

namespace Layout

theorem map_op_references (ps : List Ident) (n : Nat) (last : Option Opcode) :
    (all (ps.map fun p => one (.text .typeVar p.name)) n last).map Slot.op =
      List.replicate ps.length .typeVar := by
  induction ps generalizing n last with
  | nil => rfl
  | cons p ps ih =>
    rw [List.map_cons, all, append_apply, List.map_append, ih, List.length_cons,
      List.replicate_succ]
    rfl

theorem map_op_beginFunc (f : Func) (n : Nat) (last : Option Opcode) :
    (beginFunc f n last).map Slot.op = f.opening ++ f.guard := by
  simp only [beginFunc, append_apply, List.map_append, map_op_references, List.length_reverse]
  unfold Func.guard
  split <;> simp [Func.opening, op, one, nil, Slot.op]

end Layout

theorem Slot.lastOf_eq_of_map_op {code : List Slot} {ops : List Opcode} {o : Opcode}
    (h : code.map op = ops ++ [o]) (last : Option Opcode) : lastOf code last = some o := by
  obtain ⟨front, back, rfl, -, final⟩ := List.map_eq_append_iff.mp h
  obtain ⟨s, rfl, rfl⟩ := List.map_eq_singleton_iff.mp final
  simp

namespace Gen

open Layout

variable {f : Func} {d d' : Draft}

theorem drafts_func (outside : d.frames = []) (run : (Gen.item (.func f)).run d = .ok ((), d')) :
    ∃ d₁ d₂, (Gen.stmts f.body.body).run d₁ = .ok ((), d₂) ∧
      d₁.code.ops = d.code.ops ++ [Opcode.setIndex] ++ f.opening ++ f.guard ∧
      d₁.Follows (Layout.stmts 0 f.body.body d₁.code.size d₁.code.lastOp?) d₂ ∧
      d'.code.ops = d₁.code.ops ++
        ((Layout.stmts 0 f.body.body ++ ending f.body.body) d₁.code.size d₁.code.lastOp?).map
          Slot.op ∧
      (f.guard = [] → d₁.code.lastOp? = some .jmp) := by
  obtain ⟨whole, -⟩ :=
    (ends_item (P := False) (.func f) outside False.elim False.elim False.elim).of_run run
  obtain ⟨skip, d₁, jumped, run⟩ := run_bind run
  obtain ⟨⟨⟩, d₂, declared, run⟩ := run_bind run
  obtain ⟨⟨⟩, _, ran, -⟩ := run_bind run
  rw [Gen.funcBody_eq] at ran
  obtain ⟨⟨⟩, d₃, opened, ran⟩ := run_bind ran
  obtain ⟨⟨⟩, d₄, written, -⟩ := run_bind ran
  obtain ⟨listed, -⟩ := (ends_declare (P := False) False.elim).of_run declared
  have skipped : (d.list [(f.tableName, d₁.code.size)]).Follows [.waits .setIndex .inside] d₂ := by
    rw [listed]
    exact ((ends_jump (P := False) .setIndex).of_run jumped).2.list _
  have size₂ : d₂.code.size = d.code.size + 1 := skipped.size_eq
  have last₂ : d₂.code.lastOp? = some .setIndex := skipped.lastOp?_eq
  have shape₂ : d₂.frames.map Frame.isSwitch = [] := by
    rw [skipped.shape_eq]
    simp [Draft.list, outside]
  have begun := (lays_beginFunc (P := False) f d₂ shape₂).of_run opened
  have follows := (lays_stmts (P := False) [] f.body.body False.elim False.elim d₃
    (begun.shape_eq.trans shape₂)).of_run written
  have start := map_op_beginFunc f d₂.code.size d₂.code.lastOp?
  have ops₃ : d₃.code.ops = d.code.ops ++ [Opcode.setIndex] ++ f.opening ++ f.guard := by
    rw [begun.ops_eq, skipped.ops_eq, start, ← List.append_assoc]
    rfl
  refine ⟨d₃, d₄, written, ops₃, follows, ?_, fun quiet => ?_⟩
  · rw [whole.ops_eq, begun.ops_eq, skipped.ops_eq, begun.size_eq, begun.lastOp?_eq,
      List.append_assoc, ← List.map_append, ← append_apply, ← funcBody_split, size₂, last₂,
      List.append_assoc]
    rfl
  · rw [quiet, List.append_nil, Func.opening, List.append_cons] at start
    rw [begun.lastOp?_eq, Slot.lastOf_eq_of_map_op start]

theorem writes_func (outside : d.frames = []) (run : (Gen.item (.func f)).run d = .ok ((), d')) :
    ∃ body closing : List Opcode,
      Writes (Gen.stmts f.body.body)
        (d.code.ops ++ [Opcode.setIndex] ++ f.opening ++ f.guard) body ∧
      d'.code.ops = d.code.ops ++ [Opcode.setIndex] ++ f.opening ++ f.guard ++ body ++ closing ∧
      body.filter Opcode.isEffect = (Stmt.traceAll f.body.body).map Effect.op ∧
      (f.guard = [] → ∃ o rest, body ++ closing = o :: rest ∧ o ≠ .cmdCall) := by
  obtain ⟨d₁, d₂, written, front, follows, code, last⟩ := drafts_func outside run
  rw [follows.append_apply, List.map_append, front] at code
  refine ⟨_, (ending f.body.body d₂.code.size d₂.code.lastOp?).map Slot.op,
    ⟨d₁, d₂, written, front, ?_⟩, ?_, traces_stmts 0 f.body.body d₁.code.size d₁.code.lastOp?,
    fun quiet => ?_⟩
  · rw [follows.ops_eq, front]
  · rw [code, List.append_assoc _ _ (List.map _ _)]
  · obtain ⟨s, rest, begins, other⟩ := exists_op_behind_jmp f.body.body d₁.code.size
    refine ⟨s.op, rest.map Slot.op, ?_, other⟩
    rw [← last quiet] at begins
    rw [← List.map_cons, ← begins, follows.append_apply, List.map_append]

theorem func_of_items {is : List Item} (mem : .func f ∈ is) (outside : d.frames = [])
    (run : (is.forM Gen.item).run d = .ok ((), d')) :
    ∃ d₁ d₂ after, d₁.frames = [] ∧ (Gen.item (.func f)).run d₁ = .ok ((), d₂) ∧
      d'.code.ops = d₂.code.ops ++ after ∧
      (f.tableName, d₁.code.size + 1) ∈ Item.allListed is d.code.size d.code.lastOp? := by
  induction is generalizing d with
  | nil => cases mem
  | cons i is ih =>
    obtain ⟨⟨⟩, d₁, ran, rest⟩ := run_bind run
    obtain ⟨follows, -⟩ :=
      (ends_item (P := False) i outside False.elim False.elim False.elim).of_run ran
    have outside₁ : d₁.frames = [] := by
      have shape := follows.shape_eq
      rw [show (d.list _).frames = [] from outside] at shape
      exact List.map_eq_nil_iff.mp shape
    rw [Item.allListed]
    rcases List.mem_cons.mp mem with rfl | later
    · obtain ⟨others, -⟩ :=
        (ends_items (P := False) is outside₁ False.elim False.elim False.elim).of_run rest
      exact ⟨d, d₁, _, outside, ran, others.ops_eq, List.mem_append_left _ List.mem_cons_self⟩
    · obtain ⟨d₂, d₃, after, outside₂, written, code, listed⟩ := ih later outside₁ rest
      rw [follows.size_eq, follows.lastOp?_eq] at listed
      exact ⟨d₂, d₃, after, outside₂, written, code, List.mem_append_right _ listed⟩

end Gen

/-- The function stands in the code where the table says. Behind its start, which ends with a jump,
come the operations in `rest`, and there those of its body, perhaps behind an announcement of
calls. -/
def Func.StandsIn (a : Assembly) (f : Func) (body rest : List Opcode) : Prop :=
  ∃ entry ∈ a.functions.toList, entry.name = f.tableName ∧ ∃ before guard after,
    before.length = entry.opIndex.toNat ∧ a.ops = before ++ f.opening ++ rest ∧
      rest = guard ++ body ++ after ∧
    (guard = [] ∨ guard = [.cmdCall]) ∧
      Gen.Writes (Gen.stmts f.body.body) (before ++ f.opening ++ guard) body

theorem Effect.isCalling_of_op {e : Effect} (h : e.op = .call) : e.isCalling = true := by
  cases e with
  | node n =>
    cases n with
    | call => rfl
    | step _ op _ _ => cases op <;> cases h
    | assign _ _ target _ =>
      rw [Effect.op, Node.op] at h
      split at h <;> cases h
    | power => cases h
  | upkeep u =>
    cases u with
    | keep | attach => rfl
    | define | advance => cases h

theorem Stmt.anyHasCall_of_calling {ss : List Stmt} {e : Effect} (inside : e ∈ Stmt.traceAll ss)
    (calling : e.isCalling = true) : Stmt.anyHasCall ss = true := by
  refine eq_true_of_ne_false fun none => ?_
  rw [Stmt.quiet_traceAll ss none e inside] at calling
  cases calling

theorem Stmt.anyHasCall_of_call {ss : List Stmt} {code : List Opcode}
    (effects : code.filter Opcode.isEffect = (Stmt.traceAll ss).map Effect.op)
    (call : .call ∈ code) : Stmt.anyHasCall ss = true := by
  have found : .call ∈ code.filter Opcode.isEffect := List.mem_filter.mpr ⟨call, by decide⟩
  rw [effects] at found
  obtain ⟨e, inside, op⟩ := List.mem_map.mp found
  exact Stmt.anyHasCall_of_calling inside (Effect.isCalling_of_op op)

/-- Every function of a program stands in its code, and is announced to call exactly if the scan
says so. -/
theorem Program.standsIn_of_draft {p : Program} {d : Draft} (h : p.draft = .ok d) {f : Func}
    (mem : f ∈ p.funcs) :
    ∃ body rest, f.StandsIn d.code body rest ∧
      body.filter Opcode.isEffect = (Stmt.traceAll f.body.body).map Effect.op ∧
      (rest.head? = some .cmdCall ↔ f.body.hasCall = true) := by
  have item : .func f ∈ p.items := by
    obtain ⟨i, inside, found⟩ := List.mem_filterMap.mp mem
    cases i with
    | func g => exact Option.some.inj found ▸ inside
    | stmt s => cases found
  obtain ⟨-, small⟩ := draft_eq_ok h
  obtain ⟨⟨⟨⟩, _⟩, run, ⟨⟩⟩ := bind_eq_ok_iff.mp h
  obtain ⟨d₁, d₂, after, outside, ran, code, listed⟩ := Gen.func_of_items item rfl run
  obtain ⟨body, closing, writes, code₂, effects, begins⟩ := Gen.writes_func outside ran
  refine ⟨body, f.guard ++ body ++ (closing ++ after), ?_, effects, ?_⟩
  · refine ⟨⟨f.tableName, .ofNat (d₁.code.size + 1)⟩, ?_, rfl,
      d₁.code.ops ++ [Opcode.setIndex], f.guard, closing ++ after, ?_, ?_, rfl, ?_, writes⟩
    · rw [functions_draft h]
      exact List.mem_map_of_mem listed
    · have fits : d₁.code.size + 1 < 0x100000000 := small _ listed
      simp [Assembly.length_ops, Nat.mod_eq_of_lt fits]
    · rw [code, code₂]
      simp only [List.append_assoc]
    · unfold Func.guard
      split
      · exact .inr rfl
      · exact .inl rfl
  · cases scan : f.body.hasCall with
    | true => simp [Func.guard, scan]
    | false =>
      have quiet : f.guard = [] := by simp [Func.guard, scan]
      obtain ⟨o, rest, start, other⟩ := begins quiet
      rw [quiet, List.nil_append, ← List.append_assoc, start]
      simpa using other

/-- Behind the start of every function there is an announcement of calls exactly if a call or a
statement `new` stands anywhere in its body. So there is one wherever the code of the body has a
call, or any operation that is written for a call or by a statement `new`. -/
theorem Program.calls_announced {p : Program} {prologue : List UInt8} {out : Output}
    (h : p.generate prologue = .ok out) :
    ∃ d, p.draft = .ok d ∧ d.code.image prologue = .ok out.image ∧ ∀ f ∈ p.funcs,
      ∃ body rest, f.StandsIn d.code body rest ∧
        body.filter Opcode.isEffect = (Stmt.traceAll f.body.body).map Effect.op ∧
        (Opcode.call ∈ body ∨ (∃ e ∈ Stmt.traceAll f.body.body, e.isCalling = true) →
          rest.head? = some .cmdCall) ∧
        (rest.head? = some .cmdCall ↔ f.body.Calls) := by
  obtain ⟨d, drafted, written, -⟩ := Program.generate_eq_ok_iff.mp h
  refine ⟨d, drafted, written, fun f mem => ?_⟩
  obtain ⟨body, rest, stands, effects, announced⟩ := standsIn_of_draft drafted mem
  refine ⟨body, rest, stands, effects, fun some => announced.mpr ?_,
    announced.trans f.body.hasCall_iff⟩
  rcases some with call | ⟨e, inside, calling⟩
  · exact Stmt.anyHasCall_of_call effects call
  · exact Stmt.anyHasCall_of_calling inside calling

/-- `function f(a) { switch (a) { case g(): } } function g() { while (1) ; }`. -/
def Program.labelCall : Program :=
  ⟨[.func ⟨1, false, none, ⟨"f", 1⟩, [⟨"a", 1⟩], ⟨1, [.switch 1 (.name 1 "a" .param)
      [.mk 1 [some (.call 1 (.name 1 "g" .func) [])] []]]⟩⟩,
    .func ⟨1, false, none, ⟨"g", 1⟩, [], ⟨1, [.whileLoop 1 (.literal 1 (.int 1)) (.empty 1)]⟩⟩],
      none⟩

/-- A function with a call in a label only, and one with the announcement of its loop only. -/
theorem Program.calls_announced_label : ∃ out d, Program.labelCall.generate [] = .ok out ∧
    Program.labelCall.draft = .ok d ∧ Program.labelCall.funcs.map (·.body.hasCall) = [true, false] ∧
    ∀ f ∈ Program.labelCall.funcs, ∃ body rest, f.StandsIn d.code body rest ∧
      (rest.head? = some .cmdCall ↔ f.body.Calls) := by
  have succeeds : (Program.labelCall.generate []).toOption.isSome = true := by decide +kernel
  obtain ⟨out, generated⟩ := exists_ok_of_isSome succeeds
  obtain ⟨d, drafted, -, announced⟩ := calls_announced generated
  refine ⟨out, d, generated, drafted, rfl, fun f mem => ?_⟩
  obtain ⟨body, rest, stands, -, -, calls⟩ := announced f mem
  exact ⟨body, rest, stands, calls⟩

end GraalScript
