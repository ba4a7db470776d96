import GraalScript.Proofs.Code.Requests
import GraalScript.Proofs.Generate.CodeAt
import GraalScript.Proofs.PoolTexts

/-! Generating code does nothing to it but what can be asked of a buffer, so the image of a script
is what a buffer writes. -/
namespace GraalScript

namespace Gen

variable {α β : Type} {f g h : Gen Unit}

/-- Whatever is there before, `g` goes on from it step by step. -/
def Builds (g : Gen α) : Prop := ∀ d x d', g.run d = .ok (x, d') → d.code.Builds d'.code

theorem builds_pure (x : α) : Builds (pure x : Gen α) := by
  intro d y d' run
  cases run
  exact .refl

theorem builds_throw (e : CodeError) : Builds (throw e : Gen α) := fun _ _ _ run => nomatch run

theorem Builds.bind {g : Gen α} {k : α → Gen β} (first : Builds g) (rest : ∀ x, Builds (k x)) :
    Builds (g >>= k) := by
  intro d y d' run
  obtain ⟨x, d₁, ran, run⟩ := run_bind run
  exact (first d x d₁ ran).trans (rest x d₁ y d' run)

theorem Builds.seq {g : Gen α} {k : Gen β} (first : Builds g) (second : Builds k) :
    Builds (do _ ← g; k) :=
  first.bind fun _ => second

theorem builds_of_code {g : Gen α} (same : ∀ d x d', g.run d = .ok (x, d') → d'.code = d.code) :
    Builds g := by
  intro d x d' run
  rw [same d x d' run]

theorem builds_onCode {change : Assembly → Assembly} (step : ∀ a : Assembly, a.Step (change a)) :
    Builds (onCode change) := by
  intro d x d' run
  cases run
  exact .single (step d.code)

theorem builds_emit (op : Opcode) : Builds (emit op) := builds_onCode (.emit · op)

theorem builds_number (n : UInt32) : Builds (number n) := builds_onCode (.int · _ n)

theorem builds_decimal (text : String) : Builds (decimal text) := builds_onCode (.float · _ text)

theorem builds_string (text : String) : Builds (string text) := builds_onCode (.text · _ text)

theorem builds_reference (name : String) : Builds (reference name) := builds_onCode (.text · _ name)

theorem builds_memberOf (name : String) : Builds (memberOf name) :=
  (builds_reference name).seq (builds_emit _)

theorem builds_localVar (name : String) : Builds (localVar name) :=
  (builds_emit _).seq (builds_memberOf name)

theorem builds_get : Builds (get : Gen Draft) :=
  builds_of_code fun _ _ _ run => by cases run; rfl

theorem builds_here : Builds here := builds_get.bind fun _ => builds_pure _

theorem builds_lastOp? : Builds lastOp? := builds_get.bind fun _ => builds_pure _

theorem builds_jump (op : Opcode) : Builds (jump op) := by
  intro d label d' run
  cases run
  exact .single (.jump d.code op)

theorem builds_patch (label : Label) (target : Nat) : Builds (patch label target) := by
  intro d x d' run
  cases patched : d.code.patch label target with
  | error e =>
    simp only [patch, StateT.run, patched] at run
    cases run
  | ok code =>
    simp only [patch, StateT.run, patched] at run
    cases run
    exact .single (.patch patched)

theorem builds_patchHere (label : Label) : Builds (patchHere label) :=
  builds_here.bind fun target => builds_patch label target

theorem builds_jumpTo (op : Opcode) (target : Nat) : Builds (jumpTo op target) :=
  (builds_jump op).bind fun label => builds_patch label target

theorem builds_declare (name : String) : Builds (declare name) := by
  intro d x d' run
  cases added : d.code.addFunction name with
  | error e =>
    simp only [declare, StateT.run, added] at run
    cases run
  | ok code =>
    simp only [declare, StateT.run, added] at run
    cases run
    exact .single (.function added)

theorem builds_modify {change : Draft → Draft} (same : ∀ d, (change d).code = d.code) :
    Builds (modify change : Gen PUnit) :=
  builds_of_code fun d _ _ run => by cases run; exact same d

theorem builds_enter (frame : Frame) : Builds (enter frame) := builds_modify fun _ => rfl

theorem builds_leave : Builds leave := builds_of_code fun _ _ _ run => by cases run; rfl

theorem builds_ite {p : Prop} [Decidable p] {g h : Gen α} (yes : Builds g) (no : Builds h) :
    Builds (if p then g else h) := by
  split
  · exact yes
  · exact no

theorem builds_when {p : Prop} [Decidable p] {k : Gen α} (first : Builds f) (rest : Builds k) :
    Builds (if p then (do f; k) else k) :=
  builds_ite (first.seq rest) rest

theorem builds_unless {p : Prop} [Decidable p] {k : Gen α} (first : Builds f) (rest : Builds k) :
    Builds (if p then k else (do f; k)) :=
  builds_ite rest (first.seq rest)

theorem builds_elim {x : Option α} {k : α → Gen β} {none : Gen β} (missing : Builds none)
    (given : ∀ y ∈ x, Builds (k y)) : Builds (x.elim none k) := by
  cases x with
  | none => exact missing
  | some y => exact given y rfl

theorem builds_getD {g? : Option (Gen Unit)} (given : ∀ g ∈ g?, Builds g) (default : Builds f) :
    Builds (g?.getD f) := by
  cases g? with
  | none => exact default
  | some g => exact given g rfl

theorem builds_all {gs : List (Gen Unit)} (each : ∀ g ∈ gs, Builds g) : Builds (all gs) := by
  induction gs with
  | nil => exact builds_pure ()
  | cons g gs ih =>
    rw [List.forall_mem_cons] at each
    exact each.1.seq (ih each.2)

theorem builds_forM {xs : List α} {k : α → Gen Unit} (each : ∀ x ∈ xs, Builds (k x)) :
    Builds (xs.forM k) := by
  induction xs with
  | nil => exact builds_pure ()
  | cons x xs ih =>
    rw [List.forall_mem_cons] at each
    exact each.1.seq (ih each.2)

theorem builds_foldlM {xs : List α} {k : β → α → Gen β} (each : ∀ y, ∀ x ∈ xs, Builds (k y x))
    (y : β) : Builds (xs.foldlM k y) := by
  induction xs generalizing y with
  | nil => exact builds_pure y
  | cons x xs ih =>
    rw [List.foldlM_cons]
    exact (each y x List.mem_cons_self).bind fun z =>
      ih (fun w x' inside => each w x' (List.mem_cons_of_mem x inside)) z

theorem builds_convert (want given : ValueType) : Builds (convert want given) := by
  cases want <;> cases given <;> first | exact builds_pure () | exact builds_emit _

theorem builds_toObject : Builds toObject :=
  builds_lastOp?.bind fun _ => builds_ite (builds_pure _) (builds_emit _)

theorem builds_literal (value : Literal) : Builds (literal value) := by
  cases value with
  | int n => exact builds_number n
  | float text => exact builds_decimal text
  | str text => exact builds_string text
  | bool value => cases value <;> exact builds_emit _
  | null => exact builds_emit _

theorem builds_bound (line : Nat) (name : String) (binding : Binding) :
    Builds (bound line name binding) := by
  cases binding with
  | unresolved => exact builds_throw _
  | constant value => exact builds_literal _
  | localVar => exact builds_localVar name
  | builtin => exact builds_elim (builds_reference name) fun op _ => builds_emit op
  | objectVar | param | func => exact builds_reference name

theorem builds_element (object : Builds f) (index : Builds g) (type : ValueType) :
    Builds (element f g type) :=
  object.seq (index.seq (builds_ite (builds_pure _) (builds_emit _)))

theorem builds_binary (type : ValueType) (op : BinaryOp) (lhs : Builds f) (rhs : Builds g)
    (left right : ValueType) : Builds (binary type op f g left right) :=
  lhs.seq ((builds_convert _ _).seq (rhs.seq ((builds_convert _ _).seq (builds_emit _))))

theorem builds_test (value : Builds f) (type : ValueType) : Builds (test f type) :=
  value.seq (builds_lastOp?.bind fun _ => builds_ite (builds_pure _) (builds_convert _ _))

theorem builds_logical (op : LogicalOp) (lhs : Builds f) (rhs : Builds g) :
    Builds (logical op f g) :=
  lhs.seq ((builds_jump _).bind fun short => rhs.seq ((builds_jump _).bind fun done =>
    (builds_patchHere short).seq ((builds_emit _).seq (builds_patchHere done))))

theorem builds_choose (cond : Builds f) (yes : Builds g) (no : Builds h) : Builds (choose f g h) :=
  cond.seq ((builds_jump _).bind fun otherwise => yes.seq ((builds_jump _).bind fun done =>
    (builds_patchHere otherwise).seq (no.seq (builds_patchHere done))))

theorem builds_step (op : StepOp) (before : Bool) (target : Builds f) : Builds (step op before f) :=
  target.seq (builds_ite (builds_emit _) ((builds_emit _).seq ((builds_emit _).seq
    ((builds_emit _).seq ((builds_emit _).seq (builds_emit _))))))

theorem builds_assign (op : Option BinaryOp) {place? : Option (Gen Unit)}
    (place : ∀ g ∈ place?, Builds g) (target : Builds f) (value : Builds g)
    (targetType valueType : ValueType) : Builds (assign op place? f g targetType valueType) := by
  refine (builds_getD place target).seq ?_
  cases op with
  | none => exact value.seq (builds_emit _)
  | some op =>
    exact (builds_binary _ op (builds_ite target (builds_emit _)) value _ _).seq (builds_emit _)

theorem builds_receiver (c : Command) {object? : Option (Gen Unit)}
    (object : ∀ g ∈ object?, Builds g) : Builds (receiver c object?) := by
  refine (builds_getD object (builds_pure ())).seq ?_
  split
  · exact builds_pure ()
  · exact builds_lastOp?.bind fun _ => builds_ite (builds_pure _) (builds_emit _)

theorem builds_call (c : Command) {object? : Option (Gen Unit)} (object : ∀ g ∈ object?, Builds g)
    (function : Builds f) {args : List (Gen Unit)} (each : ∀ g ∈ args, Builds g) :
    Builds (call c object? f args) := by
  have receiver := builds_receiver c object
  have final := builds_when (p := c.op = .call) function (builds_emit c.op)
  have rest := builds_unless (p := c.style.objectFirst = true) receiver final
  have reversed : ∀ g ∈ args.reverse, Builds g := fun g inside =>
    each g (List.mem_reverse.mp inside)
  refine builds_when receiver (builds_when (builds_emit _) ?_)
  exact builds_ite ((builds_all each).seq rest)
    (builds_ite ((builds_string _).seq rest) ((builds_all reversed).seq rest))

theorem builds_noteJoin (class? : Option String) : Builds (noteJoin class?) := by
  cases class? with
  | none => exact builds_pure ()
  | some cls => exact builds_modify fun _ => rfl

theorem builds_newObject (cls : String) {args : List (Gen Unit)} (each : ∀ g ∈ args, Builds g) :
    Builds (newObject cls args) := by
  have named : Builds (do string cls; emit .newObject) := (builds_string cls).seq (builds_emit _)
  unfold newObject
  split
  next name => exact (each name List.mem_cons_self).seq ((builds_emit _).seq named)
  next => exact (builds_reference _).seq named

theorem builds_newArray (dims : List UInt32) : Builds (newArray dims) := by
  cases dims with
  | nil => exact builds_pure ()
  | cons dim dims =>
    refine (builds_number dim).seq ((builds_emit _).seq (builds_forM fun dim _ => ?_))
    exact (builds_number dim).seq (builds_emit _)

mutual

theorem builds_expr (e : Expr) : Builds (expr e) := by
  cases e with
  | literal _ value => exact builds_literal value
  | name line name binding => exact builds_bound line name binding
  | member _ object member =>
    exact (builds_expr object).seq (builds_toObject.seq (builds_memberOf _))
  | index _ object index =>
    exact (builds_element (builds_expr object) (builds_expr index) _).seq (builds_emit _)
  | call _ callee args =>
    refine (builds_noteJoin _).seq (builds_call _ (builds_object? callee) ?_
      (builds_codesOnto args (List.forall_mem_nil _)))
    exact builds_elim (builds_expr callee) fun name _ => builds_memberOf name
  | array _ items =>
    have each := builds_codesOnto items (List.forall_mem_nil _)
    exact (builds_emit _).seq ((builds_all each).seq (builds_emit _))
  | unary _ op operand =>
    exact (builds_expr operand).seq ((builds_emit _).seq (builds_emit _))
  | step _ op before target => exact builds_step op before (builds_expr target)
  | binary _ op lhs rhs => exact builds_binary _ op (builds_expr lhs) (builds_expr rhs) _ _
  | logical _ op lhs rhs =>
    exact builds_logical op (builds_test (builds_expr lhs) _) (builds_test (builds_expr rhs) _)
  | assign _ op target value =>
    have read := builds_expr target
    exact (builds_assign op (builds_element? target) read (builds_expr value) _ _).seq read
  | ternary _ cond yes no =>
    exact builds_choose (builds_test (builds_expr cond) _) (builds_expr yes) (builds_expr no)
  | cast _ kind operand => exact (builds_expr operand).seq (builds_emit _)
  | inRange _ value lower upper =>
    exact (builds_expr value).seq ((builds_expr lower).seq ((builds_convert _ _).seq
      ((builds_expr upper).seq ((builds_convert _ _).seq (builds_emit _)))))
  | inObject _ value object =>
    exact (builds_expr value).seq ((builds_expr object).seq (builds_toObject.seq (builds_emit _)))
  | new _ cls args =>
    exact builds_newObject cls.name (builds_codesOnto args (List.forall_mem_nil _))
  | newArray _ dims => exact builds_newArray dims

theorem builds_codesOnto {done : List (Gen Unit)} (es : List Expr) (before : ∀ g ∈ done, Builds g) :
    ∀ g ∈ codesOnto done es, Builds g := by
  cases es with
  | nil => exact before
  | cons e es => exact builds_codesOnto es (List.forall_mem_cons.mpr ⟨builds_expr e, before⟩)

theorem builds_object? (e : Expr) : ∀ g ∈ object? e, Builds g := by
  cases e with
  | member _ object _ =>
    rintro g ⟨⟩
    exact builds_expr object
  | _ => nofun

theorem builds_element? (e : Expr) : ∀ g ∈ element? e, Builds g := by
  cases e with
  | index _ object index =>
    rintro g ⟨⟩
    exact builds_element (builds_expr object) (builds_expr index) _
  | _ => nofun

end

theorem builds_condition (e : Expr) : Builds (condition e) := builds_test (builds_expr e) _

theorem builds_effect (e : Expr) : Builds (effect e) := by
  have dropped : Builds (do expr e; emit .indexDec) := (builds_expr e).seq (builds_emit _)
  cases e with
  | assign _ op target value =>
    exact builds_assign op (builds_element? target) (builds_expr target) (builds_expr value) _ _
  | step _ op _ target =>
    exact (builds_expr target).seq ((builds_emit _).seq (builds_emit _))
  | call line callee args =>
    exact (builds_expr _).seq (builds_ite (builds_emit _) (builds_pure _))
  | _ => exact dropped

theorem builds_varDecl (decl : VarDecl) : Builds (varDecl decl) :=
  builds_forM fun _ _ => (builds_localVar _).seq
    ((builds_elim (builds_emit _) fun e _ => builds_expr e).seq (builds_emit _))

theorem builds_forInit (init : ForInit) : Builds (forInit init) := by
  cases init with
  | vars decl => exact builds_varDecl decl
  | expr e => exact builds_effect e

theorem builds_breakOut (line : Nat) : Builds (breakOut line) := by
  refine (builds_jump _).bind fun label => builds_of_code fun d x d' run => ?_
  obtain ⟨code, frames, joined⟩ := d
  cases frames with
  | nil => cases run
  | cons frame frames =>
    cases run
    rfl

theorem builds_continueLoop (line : Nat) : Builds (continueLoop line) := by
  have noted (switches : List Frame) (frame : Frame) (frames : List Frame) : Builds (do
      switches.forM fun _ => emit .indexDec
      let label ← jump .setIndex
      modify fun d => { d with
        frames := switches ++ { frame with continues := label :: frame.continues } :: frames }) :=
    (builds_forM fun _ _ => builds_emit _).seq
      ((builds_jump _).bind fun _ => builds_modify fun _ => rfl)
  intro d x d' run
  simp only [continueLoop, StateT.run_bind, StateT.run_get, pure_bind] at run
  cases outer : d.frames.dropWhile Frame.isSwitch with
  | nil =>
    rw [outer] at run
    cases run
  | cons frame frames =>
    rw [outer] at run
    exact noted _ frame frames d x d' run

theorem builds_endLoop (exit : Label) (next : Nat) : Builds (endLoop exit next) :=
  builds_leave.bind fun _ => (builds_patchHere exit).seq
    ((builds_forM fun label _ => builds_patchHere label).seq
      (builds_forM fun label _ => builds_patch label next))

theorem builds_labelTest (start : Nat) (fallback : Option Nat) (label : Option Expr) :
    Builds (labelTest start fallback label) := by
  cases label with
  | none => exact builds_pure _
  | some e =>
    exact (builds_emit _).seq ((builds_expr e).seq ((builds_emit _).seq
      ((builds_jumpTo _ _).seq (builds_pure _))))

theorem builds_switchTests (tests : List (Nat × List (Option Expr))) :
    Builds (switchTests tests) := by
  refine (builds_foldlM (fun fallback test _ => ?_) none).bind fun fallback => ?_
  · exact builds_foldlM (fun known label _ => builds_labelTest test.1 known label) fallback
  · cases fallback with
    | none => exact builds_pure ()
    | some start => exact builds_jumpTo _ start

theorem builds_onObject (body : Builds f) : Builds (onObject f) :=
  (builds_emit _).seq ((builds_jump _).bind fun done =>
    body.seq ((builds_emit _).seq (builds_patchHere done)))

theorem builds_switch {bodies : Gen (List Nat)} (cases : Builds bodies) (value : Builds f)
    (labels : List (List (Option Expr))) : Builds (switch bodies f labels) :=
  (builds_jump _).bind fun tests => (builds_enter _).seq (cases.bind fun _ =>
    (builds_jump _).bind fun done => (builds_patchHere tests).seq (value.seq
      ((builds_switchTests _).seq (builds_leave.bind fun _ => (builds_patchHere done).seq
        ((builds_forM fun label _ => builds_patchHere label).seq (builds_emit _))))))

theorem builds_newControl (cls : String) (name : Builds f) (body : Builds g) :
    Builds (newControl f cls g) := by
  have added : Builds (do
      emit .typeArray
      emit .swapLastOps
      reference "addcontrol"
      emit .call
      emit .indexDec) :=
    (builds_emit _).seq ((builds_emit _).seq ((builds_reference _).seq
      ((builds_emit _).seq (builds_emit _))))
  refine name.seq ((builds_emit _).seq ((builds_emit _).seq ((builds_emit _).seq
    ((builds_emit _).seq ((builds_string cls).seq ?_)))))
  exact (builds_emit _).seq ((builds_emit _).seq ((builds_emit _).seq
    ((builds_onObject body).seq added)))

mutual

theorem builds_stmt (s : Stmt) : Builds (stmt s) := by
  cases s with
  | block _ body => exact builds_stmts body
  | ifThen _ cond yes =>
    exact (builds_condition cond).seq ((builds_jump _).bind fun otherwise =>
      (builds_stmt yes).seq (builds_patchHere otherwise))
  | ifElse _ cond yes no =>
    exact builds_choose (builds_condition cond) (builds_stmt yes) (builds_stmt no)
  | whileLoop _ cond body =>
    refine builds_here.bind fun start => (builds_condition cond).seq ?_
    refine (builds_jump _).bind fun exit => (builds_emit _).seq ((builds_enter _).seq ?_)
    exact (builds_stmt body).seq ((builds_jumpTo _ start).seq (builds_endLoop exit start))
  | forLoop _ init cond step body =>
    refine (builds_elim (builds_pure ()) fun i _ => builds_forInit i).seq ?_
    refine builds_here.bind fun start => ?_
    refine (builds_elim (builds_emit _) fun c _ => builds_condition c).seq ?_
    refine (builds_jump _).bind fun exit => (builds_emit _).seq ((builds_enter _).seq ?_)
    refine (builds_stmt body).seq (builds_here.bind fun next => ?_)
    refine (builds_elim (builds_pure ()) fun e _ => builds_effect e).seq ?_
    exact (builds_jumpTo _ start).seq (builds_endLoop exit next)
  | forEach line _ item binding iterable body =>
    refine (builds_bound line item binding).seq ((builds_expr iterable).seq ?_)
    refine (builds_emit _).seq ((builds_number 0).seq (builds_here.bind fun start => ?_))
    refine (builds_jump _).bind fun exit => (builds_emit _).seq ((builds_enter _).seq ?_)
    refine (builds_stmt body).seq (builds_here.bind fun next => (builds_emit _).seq ?_)
    exact (builds_jumpTo _ start).seq ((builds_endLoop exit next).seq (builds_emit _))
  | withObject _ object body => exact (builds_expr object).seq (builds_onObject (builds_stmt body))
  | switch _ value cases => exact builds_switch (builds_caseBodies [] cases) (builds_expr value) _
  | new _ cls name _ body => exact builds_newControl cls.name (builds_expr name) (builds_stmts body)
  | ret _ value =>
    exact (builds_elim (builds_number 0) fun e _ => builds_expr e).seq (builds_emit _)
  | breakOut line => exact builds_breakOut line
  | continueLoop line => exact builds_continueLoop line
  | vars decl => exact builds_varDecl decl
  | const => exact builds_pure ()
  | expr e => exact builds_effect e
  | empty _ => exact builds_pure ()

theorem builds_stmts (ss : List Stmt) : Builds (stmts ss) := by
  cases ss with
  | nil => exact builds_pure ()
  | cons s ss => exact (builds_stmt s).seq (builds_stmts ss)

theorem builds_caseBodies (done : List Nat) (cs : List Case) : Builds (caseBodies done cs) := by
  cases cs with
  | nil => exact builds_pure _
  | cons c cs =>
    exact builds_here.bind fun start => (builds_caseBody c).seq (builds_caseBodies _ cs)

theorem builds_caseBody (c : Case) : Builds (caseBody c) := by
  cases c with
  | mk _ _ body => exact builds_stmts body

end

theorem builds_funcBody (f : Func) : Builds (funcBody f) := by
  have ending : Builds (do
      unless endsWithReturn f.body.body && (← lastOp?) = some .ret do
        number 0
        emit .ret) :=
    builds_lastOp?.bind fun _ => builds_ite (builds_pure _) ((builds_number 0).seq (builds_emit _))
  have body := (builds_stmts f.body.body).seq ending
  have params : Builds (f.params.reverse.forM fun p => reference p.name) :=
    builds_forM fun p _ => builds_reference p.name
  exact (builds_emit _).seq (params.seq ((builds_emit _).seq ((builds_emit _).seq
    (builds_when (builds_emit _) body))))

theorem builds_item (i : Item) : Builds (item i) := by
  cases i with
  | func f =>
    exact (builds_jump _).bind fun skip =>
      (builds_declare _).seq ((builds_funcBody f).seq (builds_patchHere skip))
  | stmt s => exact builds_stmt s

theorem builds_program (p : Program) : Builds (program p) := builds_forM fun i _ => builds_item i

end Gen

theorem Program.builds_draft {p : Program} {d : Draft} (h : p.draft = .ok d) :
    Assembly.empty.Builds d.code := by
  obtain ⟨⟨x, d'⟩, run, same⟩ := bind_eq_ok_iff.mp h
  cases same
  exact Gen.builds_program p .empty x d' run

/-- The image of a script is written by requests of a buffer, all of them accepted: as many
operations as the code has instructions, with a pool that is small enough to be read back. -/
theorem requests_of_compile (settings : Settings) (script : Option ScriptId) (source : String)
    {out : Output} (h : (compile settings script source).result = .ok out) :
    ∃ header parsed bound symbols draft steps t, Header.ofScript settings script = .ok header ∧
      Program.parse source settings.maxNesting = .ok parsed ∧
      parsed.resolve header.env = .ok (bound, symbols) ∧ bound.draft = .ok draft ∧
      Transcript.empty.run? steps = some t ∧
      steps.filterMap Buffer.Step.op? = draft.code.instrs.toList.map Instr.op ∧
      let b := (Buffer.Tracked.empty.run steps).buffer
      b.image header.prologue = .ok out.image ∧ b.ops = draft.code.size ∧
        b.lastOp? = draft.code.lastOp? ∧ b.pool.toList.length < 0x100000000 := by
  obtain ⟨header, parsed, bound, symbols, made, parsing, resolved, generated⟩ :=
    compile_result_eq_ok_iff.mp h
  obtain ⟨draft, drafted, written, -⟩ := Program.generate_eq_ok_iff.mp generated
  have plain : ∀ i ∈ bound.items, i.Spelled fun _ => True :=
    Program.spelled_of_resolve Text.admits_any
      (Program.spelled_of_parse (fun _ _ _ => trivial) parsing) resolved
  have lines := Program.written_draft (Program.spelled_layout Text.admits_any plain) drafted
  obtain ⟨steps, t, accepted, holds⟩ :=
    (Program.builds_draft drafted).requests.2 (Transcript.readable_of_written lines)
  refine ⟨header, parsed, bound, symbols, draft, steps, t, made, parsing, resolved,
    drafted, accepted, ?_, ?_, ?_, ?_, ?_⟩
  · have ops := Transcript.map_op_run accepted
    rw [← Transcript.map_op_of_pairs holds.writes.lines] at ops
    exact ops.symm
  · rw [holds.image, written]
  · exact holds.size
  · exact holds.lastOp
  · rw [holds.pool]
    exact Image.length_pool_lt written

end GraalScript
