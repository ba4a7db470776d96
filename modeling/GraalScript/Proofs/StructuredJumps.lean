import GraalScript.Proofs.Generate.CodeAt

/-! Structured jumps: where the statements of a program stand in its code, and so where each break,
each continue and each label of a switch leads. -/
namespace GraalScript

namespace Assembly

/-- A loop has a head, a jump out of it, a body, a tail and a jump back to the head. In the body, a
break leads behind the jump back and a continue to the head or to the tail. -/
def LoopAt (a : Assembly) (head : Gen Unit) (exit : Opcode) (body : Around → Nat → Nat → Prop)
    (tail : Gen Unit) (toHead : Bool) (lo hi : Nat) : Prop :=
  ∃ test next back, a.Emits head lo test ∧ a.JumpAt test exit hi ∧ a.OpAt (test + 1) .cmdCall ∧
    body (.loop hi (if toHead then lo else next)) (test + 2) next ∧ a.Emits tail next back ∧
    a.JumpAt back .setIndex lo ∧ hi = back + 1

/-- A body that runs on the object on top of the stack. -/
def ObjectAt (a : Assembly) (body : Nat → Nat → Prop) (lo hi : Nat) : Prop :=
  ∃ stop, a.OpAt lo .convToObject ∧ a.JumpAt (lo + 1) .withBegin hi ∧ body (lo + 2) stop ∧
    a.OpAt stop .withEnd ∧
    hi = stop + 1

/-- The tests of labels, in their order, each with a jump to the start of its body. A default label
has no test. -/
def TestsAt (a : Assembly) : List (Nat × Option Expr) → Nat → Nat → Prop
  | [], lo, hi => lo = hi
  | (_, none) :: tests, lo, hi => a.TestsAt tests lo hi
  | (start, some label) :: tests, lo, hi =>
    ∃ eq, a.OpAt lo .copyLastOp ∧ a.Emits (Gen.expr label) (lo + 1) eq ∧
      a.OpAt eq .eq ∧ a.JumpAt (eq + 1) .setIndexTrue start ∧ a.TestsAt tests (eq + 2) hi

end Assembly

namespace Case

/-- The labels of several cases in their order, each with the start of the body of its case. -/
def labelStarts (tests : List (Nat × List (Option Expr))) : List (Nat × Option Expr) :=
  tests.flatMap fun t => t.2.map (t.1, ·)

/-- The start of the body that has the default label, the last of them if there are several. -/
def defaultStart? (labels : List (Nat × Option Expr)) : Option Nat :=
  (labels.filter (·.2.isNone)).getLast?.map Prod.fst

end Case

/-- The tests of a switch, for each case the start of its body and its labels. Behind all of them
there is a jump to the default body, if there is one. -/
def Assembly.SwitchAt (a : Assembly) (tests : List (Nat × List (Option Expr))) (lo hi : Nat) :
    Prop :=
  ∃ stop, a.TestsAt (Case.labelStarts tests) lo stop ∧
    match Case.defaultStart? (Case.labelStarts tests) with
    | none => hi = stop
    | some start => a.JumpAt stop .setIndex start ∧ hi = stop + 1

namespace Gen

def beginControl (name : Gen Unit) (cls : String) : Gen Unit := do
  name
  emit .inlineNew
  emit .copyLastOp
  emit .copyLastOp
  emit .copyLastOp
  string cls
  emit .convToString
  emit .newObject
  emit .assign

def endControl : Gen Unit := do
  emit .typeArray
  emit .swapLastOps
  reference "addcontrol"
  emit .call
  emit .indexDec

theorem newControl_eq (name : Gen Unit) (cls : String) (body : Gen Unit) :
    newControl name cls body = (do beginControl name cls; onObject body; endControl) := by
  simp only [newControl, beginControl, endControl, bind_assoc]

def labelCode (start : Nat) (label : Expr) : Gen Unit := do
  emit .copyLastOp
  expr label
  emit .eq
  jumpTo .setIndexTrue start

theorem labelTest_some (start : Nat) (found : Option Nat) (label : Expr) :
    labelTest start found (some label) = (do labelCode start label; return found) := by
  simp only [labelTest, labelCode, bind_assoc]

def beginEach (line : Nat) (item : String) (binding : Binding) (iterable : Expr) : Gen Unit := do
  bound line item binding
  expr iterable
  emit .convToObject
  number 0

def beginFunc (f : Func) : Gen Unit := do
  emit .typeArray
  f.params.reverse.forM fun p => reference p.name
  emit .funcParamsEnd
  emit .jmp
  if f.body.hasCall then emit .cmdCall

def endFunc (f : Func) : Gen Unit := do
  unless endsWithReturn f.body.body && (← lastOp?) = some .ret do
    number 0
    emit .ret

theorem funcBody_eq (f : Func) :
    funcBody f = (do beginFunc f; stmts f.body.body; endFunc f) := by
  unfold funcBody beginFunc endFunc
  split <;> simp only [bind_assoc, pure_bind]

end Gen

namespace Layout

def beginFunc (f : Func) : Layout :=
  op .typeArray ++ (all (f.params.reverse.map fun p => one (.text .typeVar p.name)) ++
    (op .funcParamsEnd ++ (op .jmp ++ if f.body.hasCall then op .cmdCall else nil)))

theorem funcBody_split (f : Func) :
    funcBody f = beginFunc f ++ (stmts 0 f.body.body ++ ending f.body.body) := by
  simp only [funcBody, beginFunc, append_assoc]

end Layout

theorem Gen.lays_beginFunc {shape : List Bool} {P : Prop} (f : Func) :
    Lays shape P (Layout.beginFunc f) (beginFunc f) :=
  (lays_emit _).seq
    ((lays_forM _ fun p _ => lays_reference p.name).seq
      ((lays_emit _).seq ((lays_emit _).seq (lays_ite (lays_emit _) lays_pure))))

mutual

/-- The statement stands in the code from `lo` on and before `hi`. -/
def Stmt.Lies (a : Assembly) (around : Around) : Stmt → Nat → Nat → Prop
  | .block _ body, lo, hi => Stmt.AllLie a around body lo hi
  | .ifThen _ cond yes, lo, hi =>
    ∃ test, a.Emits (Gen.condition cond) lo test ∧ a.JumpAt test .ifThen hi ∧
      Stmt.Lies a around yes (test + 1) hi
  | .ifElse _ cond yes no, lo, hi => ∃ test done, a.Emits (Gen.condition cond) lo test ∧
      a.JumpAt test .ifThen (done + 1) ∧ Stmt.Lies a around yes (test + 1) done ∧
        a.JumpAt done .setIndex hi ∧
      Stmt.Lies a around no (done + 1) hi
  | .whileLoop _ cond body, lo, hi =>
    a.LoopAt (Gen.condition cond) .ifThen (fun inner lo hi => Stmt.Lies a inner body lo hi)
      (return) true lo hi
  | .forLoop _ init cond step body, lo, hi =>
    ∃ start, a.Emits (init.elim (return) Gen.forInit) lo start ∧
      a.LoopAt (cond.elim (Gen.emit .typeTrue) Gen.condition) .ifThen
        (fun inner lo hi => Stmt.Lies a inner body lo hi)
        (step.elim (return) Gen.effect) false start hi
  | .forEach line _ item binding iterable body, lo, hi => ∃ start stop,
      a.Emits (Gen.beginEach line item binding iterable) lo start ∧
      a.LoopAt (return) .forEach (fun inner lo hi => Stmt.Lies a inner body lo hi)
        (Gen.emit .inc) false start stop ∧
      a.OpAt stop .indexDec ∧ hi = stop + 1
  | .withObject _ object body, lo, hi => ∃ start, a.Emits (Gen.expr object) lo start ∧
      a.ObjectAt (fun lo hi => Stmt.Lies a around body lo hi) start hi
  -- The bodies stand before the value and the tests. A break leads to the operation that drops the
  -- value.
  | .switch _ value cases, lo, hi => ∃ starts done tests stop, a.JumpAt lo .setIndex (done + 1) ∧
      Case.AllLie a (around.switch stop) cases starts (lo + 1) done ∧ a.JumpAt done .setIndex stop ∧
      a.Emits (Gen.expr value) (done + 1) tests ∧
        a.SwitchAt (starts.zip (cases.map Case.labels)) tests stop ∧
      a.OpAt stop .indexDec ∧ hi = stop + 1
  | .new _ cls name _ body, lo, hi =>
    ∃ start stop, a.Emits (Gen.beginControl (Gen.expr name) cls.name) lo start ∧
      a.ObjectAt (fun lo hi => Stmt.AllLie a around body lo hi) start stop ∧
        a.Emits Gen.endControl stop hi
  | .breakOut _, lo, hi =>
    ∃ target, around.leave? = some target ∧ a.JumpAt lo .setIndex target ∧ hi = lo + 1
  | .continueLoop _, lo, hi => ∃ target, around.next? = some target ∧
      (∀ i < around.switches, a.OpAt (lo + i) .indexDec) ∧
        a.JumpAt (lo + around.switches) .setIndex target ∧
      hi = lo + around.switches + 1
  | .ret line value, lo, hi => a.Emits (Gen.stmt (.ret line value)) lo hi
  | .vars decl, lo, hi => a.Emits (Gen.varDecl decl) lo hi
  | .expr e, lo, hi => a.Emits (Gen.effect e) lo hi
  | .const .., lo, hi | .empty _, lo, hi => lo = hi

def Stmt.AllLie (a : Assembly) (around : Around) : List Stmt → Nat → Nat → Prop
  | [], lo, hi => lo = hi
  | s :: ss, lo, hi => ∃ mid, Stmt.Lies a around s lo mid ∧ Stmt.AllLie a around ss mid hi

/-- The bodies of the cases stand one behind the other and start where `starts` says. -/
def Case.AllLie (a : Assembly) (around : Around) : List Case → List Nat → Nat → Nat → Prop
  | [], starts, lo, hi => starts = [] ∧ lo = hi
  | c :: cs, starts, lo, hi => ∃ later mid, starts = lo :: later ∧ Case.Lies a around c lo mid ∧
      Case.AllLie a around cs later mid hi

def Case.Lies (a : Assembly) (around : Around) : Case → Nat → Nat → Prop
  | .mk _ _ body, lo, hi => Stmt.AllLie a around body lo hi

end

def Item.Lies (a : Assembly) : Item → Nat → Nat → Prop
  | .func f, lo, hi =>
    a.JumpAt lo .setIndex hi ∧ ∃ start stop, a.Emits (Gen.beginFunc f) (lo + 1) start ∧
      Stmt.AllLie a .top f.body.body start stop ∧ a.Emits (Gen.endFunc f) stop hi
  | .stmt s, lo, hi => s.Lies a .top lo hi

def Item.AllLie (a : Assembly) : List Item → Nat → Nat → Prop
  | [], lo, hi => lo = hi
  | i :: is, lo, hi => ∃ mid, i.Lies a lo mid ∧ Item.AllLie a is mid hi

namespace Assembly

open Gen Layout

variable {a : Assembly} {around : Around} {shape : List Bool} {l m : Layout} {g : Gen Unit}
  {d d' : Draft}

theorem stands_pure : a.Stands around shape nil (pure ()) fun lo hi => lo = hi := by
  refine ⟨lays_pure, fun hd run keeps => ?_⟩
  cases run
  rfl

theorem stands_condition (e : Expr) :
    a.Stands around shape (Layout.condition e) (Gen.condition e) (a.Emits (Gen.condition e)) :=
  stands_emits (lays_condition e False.elim) (fits_condition (Nat.le_refl 0) e)

theorem stands_expr (e : Expr) :
    a.Stands around shape (Layout.expr e) (Gen.expr e) (a.Emits (Gen.expr e)) :=
  stands_emits (lays_expr e False.elim) (fits_expr (Nat.le_refl 0) e)

theorem stands_onObject {At : Nat → Nat → Prop} (body : a.Stands around shape l g At) :
    a.Stands around shape (Layout.onObject l) (Gen.onObject g) (a.ObjectAt At) := by
  have same : Gen.onObject g =
      (do
        Gen.emit .convToObject
        (do let done ← jump .withBegin; (do g; Gen.emit .withEnd); patchHere done)) := by
    simp only [Gen.onObject, bind_assoc]
  rw [same]
  refine ((stands_emit _).seq ((body.seq (stands_emit _)).jumpOver _)).mono ?_
  rintro lo hi ⟨_, ⟨opens, rfl⟩, jumps, stop, inside, ends, rfl⟩
  exact ⟨stop, opens, jumps, inside, ends, rfl⟩

theorem stands_loop {k : Layout} {f h : Gen Unit} {B : Around → Nat → Nat → Prop} (exit : Opcode)
    (head : Lays shape False l f) (headed : l.Fits false false 0 0)
    (body : ∀ stop next, a.Stands (.loop stop next) (false :: shape) m g (B (.loop stop next)))
    (tail : Lays (false :: shape) False k h) (tailed : k.Fits false false 0 0) (toHead : Bool) :
    a.Stands around shape (Layout.loop l exit m k toHead) (do
      let start ← here
      f
      let out ← jump exit
      Gen.emit .cmdCall
      enter .loop
      g
      let next ← here
      h
      jumpTo .setIndex start
      endLoop out (if toHead then start else next)) (a.LoopAt f exit B h toHead) :=
  (stands_emits head headed).loop exit body (fun _ _ => stands_emits tail tailed) toHead

theorem stands_breakOut (around_shape : around.Matches shape) (line : Nat) :
    a.Stands around shape (one (.waits .setIndex .breakOut)) (breakOut line) fun lo hi =>
      ∃ target, around.leave? = some target ∧ a.JumpAt lo .setIndex target ∧ hi = lo + 1 := by
  refine ⟨lays_breakOut line False.elim, fun {d d'} hd run keeps => ?_⟩
  have inside : shape ≠ [] := by
    rintro rfl
    have frames := List.map_eq_nil_iff.mp hd
    have failed : (breakOut line).run d = .error (.noLoop line) := by
      simp [breakOut, jump, frames]
      rfl
    rw [failed] at run
    cases run
  obtain ⟨target, known⟩ := Option.isSome_iff_exists.mp (around_shape.leave inside)
  have size := ((lays_breakOut (P := False) line False.elim d hd).of_run run).size_eq
  refine ⟨target, known, ?_, size⟩
  have settled : around.settle (.waits .setIndex .breakOut) = .jump .setIndex target := by
    simp [Around.settle, Slot.settle, known]
  unfold Keeps one at keeps
  rw [List.map_singleton, settled] at keeps
  exact keeps.jumpAt

theorem Holds.replicate_op {n k : Nat} {pool : Pool} {o : Opcode} {code : List Slot}
    (h : a.Holds n pool (List.replicate k (Slot.plain o) ++ code)) :
    (∀ i < k, a.OpAt (n + i) o) ∧ a.Holds (n + k) pool code := by
  induction k generalizing n with
  | zero => exact ⟨nofun, h⟩
  | succ k ih =>
    obtain ⟨-, first, rest⟩ := h
    obtain ⟨others, behind⟩ := ih rest
    rw [Nat.add_right_comm] at behind
    refine ⟨fun i small => ?_, behind⟩
    cases i with
    | zero => exact first
    | succ i =>
      have other := others i (Nat.lt_of_succ_lt_succ small)
      rwa [Nat.add_right_comm] at other

theorem stands_continueLoop (around_shape : around.Matches shape) (line : Nat) :
    a.Stands around shape (Layout.continueLoop around.switches) (Gen.continueLoop line) fun lo hi =>
      ∃ target, around.next? = some target ∧ (∀ i < around.switches, a.OpAt (lo + i) .indexDec) ∧
        a.JumpAt (lo + around.switches) .setIndex target ∧ hi = lo + around.switches + 1 := by
  have lays : Lays shape False _ (Gen.continueLoop line) := lays_continueLoop line False.elim
  rw [around_shape.switches] at lays
  refine ⟨lays, fun {d d'} hd run keeps => ?_⟩
  have inside : false ∈ shape := by
    refine Classical.byContradiction fun outside => ?_
    have frames : d.frames.dropWhile Frame.isSwitch = [] := by
      rw [List.dropWhile_eq_nil_iff]
      intro f member
      refine eq_true_of_ne_false fun loop => outside ?_
      rw [← hd, ← loop]
      exact List.mem_map_of_mem member
    have failed : (Gen.continueLoop line).run d = .error (.noLoop line) := by
      simp [Gen.continueLoop, frames]
      rfl
    rw [failed] at run
    cases run
  obtain ⟨target, known⟩ := Option.isSome_iff_exists.mp (around_shape.next inside)
  have size := ((lays d hd).of_run run).size_eq
  have code : Layout.continueLoop around.switches d.code.size d.code.lastOp? =
      List.replicate around.switches (Slot.plain .indexDec) ++
        [Slot.waits .setIndex .continueLoop] := by
    rw [Layout.continueLoop, append_apply, all_replicate_op]
    rfl
  have settled : around.settle (.waits .setIndex .continueLoop) = .jump .setIndex target := by
    simp [Around.settle, Slot.settle, known]
  rw [code] at size
  unfold Keeps at keeps
  rw [code, List.map_append, List.map_replicate, List.map_singleton, settled] at keeps
  obtain ⟨drops, jumps⟩ := keeps.replicate_op
  refine ⟨target, known, drops, jumps.jumpAt, ?_⟩
  simpa [Nat.add_assoc] using size

theorem stands_labelCode (start : Nat) (label : Expr) :
    a.Stands around shape (Layout.labelTest start (some label)) (labelCode start label) fun lo hi =>
      ∃ eq, a.OpAt lo .copyLastOp ∧ a.Emits (Gen.expr label) (lo + 1) eq ∧ a.OpAt eq .eq ∧
        a.JumpAt (eq + 1) .setIndexTrue start ∧ hi = eq + 2 := by
  rw [Layout.labelTest, append_assoc, append_assoc]
  refine ((stands_emit _).seq
    ((stands_expr label).seq ((stands_emit _).seq (stands_jumpTo _ _)))).mono ?_
  rintro lo hi ⟨_, ⟨copies, rfl⟩, eq, value, _, ⟨compares, rfl⟩, jumps, rfl⟩
  exact ⟨eq, copies, value, compares, jumps, rfl⟩

end Assembly

namespace Case

theorem labelStarts_cons (t : Nat × List (Option Expr)) (tests : List (Nat × List (Option Expr))) :
    labelStarts (t :: tests) = t.2.map (t.1, ·) ++ labelStarts tests := List.flatMap_cons

theorem defaultStart?_cons (p : Nat × Option Expr) (ps : List (Nat × Option Expr)) :
    defaultStart? (p :: ps) = (defaultStart? ps).or (if p.2.isNone then some p.1 else none) := by
  unfold defaultStart?
  by_cases h : p.2.isNone = true
  · rw [List.filter_cons, if_pos h, if_pos h, List.getLast?_cons]
    cases (ps.filter (·.2.isNone)).getLast? <;> rfl
  · rw [List.filter_cons, if_neg h, if_neg h, Option.or_none]

theorem foldl_defaultStart? (ps : List (Nat × Option Expr)) (found : Option Nat) :
    ps.foldl (fun found p => if p.2.isNone then some p.1 else found) found =
      (defaultStart? ps).or found := by
  induction ps generalizing found with
  | nil => rfl
  | cons p ps ih =>
    rw [List.foldl_cons, ih, defaultStart?_cons, Option.or_assoc]
    by_cases h : p.2.isNone = true <;> simp [h]

theorem fallback_eq (tests : List (Nat × List (Option Expr))) :
    Layout.fallback tests = defaultStart? (labelStarts tests) := by
  rw [← Option.or_none (o := defaultStart? (labelStarts tests)), ← foldl_defaultStart?, labelStarts,
    List.foldl_flatMap]
  simp only [List.foldl_map]
  rfl

end Case

theorem Layout.all_append (ls ms : List Layout) :
    Layout.all (ls ++ ms) = Layout.all ls ++ Layout.all ms := by
  induction ls with
  | nil => exact (Layout.nil_append _).symm
  | cons l ls ih => rw [List.cons_append, Layout.all, ih, Layout.all, Layout.append_assoc]

theorem Layout.all_labelStarts (tests : List (Nat × List (Option Expr))) :
    Layout.all (tests.map fun (start, labels) => Layout.all (labels.map (Layout.labelTest start))) =
      Layout.all ((Case.labelStarts tests).map fun p => Layout.labelTest p.1 p.2) := by
  induction tests with
  | nil => rfl
  | cons t tests ih =>
    rw [List.map_cons, Layout.all, ih, Case.labelStarts_cons, List.map_append, Layout.all_append,
      List.map_map]
    rfl

theorem Gen.foldlM_labelStarts (tests : List (Nat × List (Option Expr))) (found : Option Nat) :
    tests.foldlM (fun found (start, labels) => labels.foldlM (Gen.labelTest start) found) found =
      (Case.labelStarts tests).foldlM (fun found p => Gen.labelTest p.1 found p.2) found := by
  induction tests generalizing found with
  | nil => rfl
  | cons t tests ih =>
    rw [List.foldlM_cons, Case.labelStarts_cons, List.foldlM_append, List.foldlM_map]
    exact bind_congr fun found => ih found

namespace Assembly

open Gen Layout

variable {a : Assembly} {around : Around} {shape : List Bool} {d d' : Draft}

theorem testsAt_of_run (ps : List (Nat × Option Expr)) {found r : Option Nat}
    (run : (ps.foldlM (fun found p => Gen.labelTest p.1 found p.2) found).run d = .ok (r, d'))
    (hd : d.frames.map Frame.isSwitch = shape)
    (keeps : a.Keeps around d (Layout.all (ps.map fun p => Layout.labelTest p.1 p.2))) :
    a.TestsAt ps d.code.size d'.code.size ∧ r = (Case.defaultStart? ps).or found := by
  induction ps generalizing d found with
  | nil =>
    cases run
    exact ⟨rfl, rfl⟩
  | cons p ps ih =>
    obtain ⟨start, label⟩ := p
    rw [List.foldlM_cons] at run
    obtain ⟨first, d₁, ran, rest⟩ := run_bind run
    have lays :
        Returns shape False (Layout.labelTest start label) _ (Gen.labelTest start found label) :=
      returns_labelTest start False.elim found
    obtain ⟨-, follows⟩ := (lays d hd).of_run ran
    obtain ⟨here, later⟩ := Keeps.split keeps follows
    obtain ⟨tests, rfl⟩ := ih rest (follows.shape_eq.trans hd) later
    rw [Case.defaultStart?_cons, Option.or_assoc]
    cases label with
    | none =>
      cases ran
      exact ⟨tests, rfl⟩
    | some label =>
      rw [labelTest_some] at ran
      obtain ⟨⟨⟩, _, ran, ⟨⟩⟩ := run_bind ran
      obtain ⟨eq, copies, value, compares, jumps, stop⟩ :=
        (stands_labelCode start label).here hd ran here
      exact ⟨⟨eq, copies, value, compares, jumps, stop ▸ tests⟩, rfl⟩

theorem stands_switchTests (tests : List (Nat × List (Option Expr))) :
    a.Stands around shape (Layout.switchTests tests) (Gen.switchTests tests)
      (a.SwitchAt tests) := by
  have lays : Lays shape False (Layout.switchTests tests) (Gen.switchTests tests) :=
    lays_switchTests tests False.elim
  refine ⟨lays, fun {d d'} hd run keeps => ?_⟩
  unfold Gen.switchTests at run
  rw [Gen.foldlM_labelStarts] at run
  obtain ⟨found, d₁, ran, run⟩ := run_bind run
  have each (p : Nat × Option Expr) (found : Option Nat) :
      Returns shape False (Layout.labelTest p.1 p.2)
        (fun _ _ => if p.2.isNone then some p.1 else found)
        (Gen.labelTest p.1 found p.2) := returns_labelTest p.1 False.elim found
  have placed := returns_foldlM (Case.labelStarts tests) (fun p _ found => each p found) none
  obtain ⟨-, follows⟩ := (placed d hd).of_run ran
  rw [Layout.switchTests, Layout.all_labelStarts, Case.fallback_eq] at keeps
  obtain ⟨before, behind⟩ := keeps.split follows
  obtain ⟨labels, rfl⟩ := testsAt_of_run _ ran hd before
  refine ⟨d₁.code.size, labels, ?_⟩
  rw [Option.or_none] at run
  cases default : Case.defaultStart? (Case.labelStarts tests) with
  | none =>
    rw [default] at run
    cases run
    rfl
  | some start =>
    rw [default] at run behind
    exact (stands_jumpTo .setIndex start).here (follows.shape_eq.trans hd) run behind

theorem stands_beginControl (e : Expr) (cls : String) :
    a.Stands around shape
      (Layout.expr e ++ (op .inlineNew ++ (op .copyLastOp ++ (op .copyLastOp ++ (op .copyLastOp ++
        (one (.text .typeString cls) ++ (op .convToString ++ (op .newObject ++ op .assign))))))))
      (beginControl (Gen.expr e) cls) (a.Emits (beginControl (Gen.expr e) cls)) := by
  refine stands_emits ?_ ?_
  · exact (lays_expr e False.elim).seq
      ((lays_emit _).seq
        ((lays_emit _).seq
          ((lays_emit _).seq
            ((lays_emit _).seq
              ((lays_string _).seq ((lays_emit _).seq ((lays_emit _).seq (lays_emit _))))))))
  · exact (fits_expr (Nat.le_refl 0) e).append
      ((fits_op rfl).append
        ((fits_op rfl).append
          ((fits_op rfl).append
            ((fits_op rfl).append
              ((fits_one rfl).append
                ((fits_op rfl).append ((fits_op rfl).append (fits_op rfl))))))))

theorem stands_endControl :
    a.Stands around shape
      (op .typeArray ++
        (op .swapLastOps ++ (one (.text .typeVar "addcontrol") ++ (op .call ++ op .indexDec))))
      endControl (a.Emits endControl) := by
  refine stands_emits ?_ ?_
  · exact (lays_emit _).seq
      ((lays_emit _).seq ((lays_reference _).seq ((lays_emit _).seq (lays_emit _))))
  · exact (fits_op rfl).append
      ((fits_op rfl).append ((fits_one rfl).append ((fits_op rfl).append (fits_op rfl))))

theorem stands_beginEach (line : Nat) (item : String) (binding : Binding) (iterable : Expr) :
    a.Stands around shape
      (Layout.bound item binding ++ (Layout.expr iterable ++ (op .convToObject ++ one (.number 0))))
      (beginEach line item binding iterable) (a.Emits (beginEach line item binding iterable)) := by
  refine stands_emits ?_ ?_
  · exact (lays_bound line item False.elim).seq ((lays_expr iterable False.elim).seq
      ((lays_emit _).seq (lays_number 0)))
  · exact (fits_bound item binding).append ((fits_expr (Nat.le_refl 0) iterable).append
      ((fits_op rfl).append (fits_one rfl)))

mutual

theorem stands_stmt {around : Around} {shape : List Bool} (around_shape : around.Matches shape)
    (s : Stmt) :
    a.Stands around shape (Layout.stmt around.switches s) (Gen.stmt s) (s.Lies a around) := by
  cases s with
  | block _ body => exact stands_stmts around_shape body
  | ifThen _ cond yes =>
    exact (stands_condition cond).seq ((stands_stmt around_shape yes).jumpOver .ifThen)
  | ifElse _ cond yes no =>
    exact (stands_condition cond).choose (stands_stmt around_shape yes)
      (stands_stmt around_shape no)
  | whileLoop _ cond body =>
    exact stands_loop (B := fun inner => Stmt.Lies a inner body) .ifThen
      (lays_condition cond False.elim)
      (fits_condition (Nat.le_refl 0) cond)
      (fun stop next => stands_stmt (Around.matches_loop stop next shape) body) lays_pure
        fits_nil true
  | forLoop _ init cond step body =>
    refine Stands.seq (stands_emits ?_ ?_)
      (stands_loop (B := fun inner => Stmt.Lies a inner body) .ifThen ?_ ?_
        (fun stop next => stands_stmt (Around.matches_loop stop next shape) body) ?_ ?_ false)
    · exact lays_elim lays_pure fun i _ => lays_forInit False.elim
    · exact fits_elim fits_nil fun i _ => fits_forInit (Nat.le_refl 0) i
    · exact lays_elim (lays_emit _) fun e _ => lays_condition e False.elim
    · exact fits_elim (fits_op rfl) fun e _ => fits_condition (Nat.le_refl 0) e
    · exact lays_elim lays_pure fun e _ => lays_effect e False.elim
    · exact fits_elim fits_nil fun e _ => fits_effect (Nat.le_refl 0) e
  | forEach line _ item binding iterable body =>
    have drops : a.Stands around shape (op .indexDec) (Gen.emit .indexDec) _ :=
      stands_emit .indexDec
    have rounds :=
      (stands_loop (B := fun inner => Stmt.Lies a inner body)
        (m := Layout.stmt 0 body) .forEach lays_pure fits_nil
          (fun stop next => stands_stmt (Around.matches_loop stop next shape) body) (lays_emit .inc)
      (fits_op rfl) false).seq drops
    have whole := (stands_beginEach line item binding iterable).seq rounds
    simp only [beginEach, bind_assoc, pure_bind] at whole
    simp only [Layout.stmt, append_assoc] at whole ⊢
    refine whole.mono ?_
    rintro lo hi ⟨start, setup, stop, rounds, drops⟩
    exact ⟨start, stop, setup, rounds, drops⟩
  | withObject _ object body =>
    exact (stands_expr object).seq (stands_onObject (stands_stmt around_shape body))
  | switch _ value cases =>
    have bodied : Returns (true :: shape) False _ _ (caseBodies [] cases) :=
      returns_caseBodies (true :: shape) cases [] False.elim False.elim
    rw [(around_shape.switch 0).switches] at bodied
    refine Stands.switch bodied (fun stop _ _ _ hd run keeps => ?_) (fun _ => stands_expr value)
      fun _ found => stands_switchTests (found.zip (cases.map Case.labels))
    obtain ⟨starts, rfl, lie⟩ := lie_caseBodies (around_shape.switch stop) cases [] hd run keeps
    exact lie
  | new _ cls name _ body =>
    have whole := (stands_beginControl name cls.name).seq
      ((stands_onObject (stands_stmts around_shape body)).seq (stands_endControl (a := a)))
    simp only [Layout.stmt, Layout.newControl, append_assoc, Gen.stmt, newControl_eq] at whole ⊢
    refine whole.mono ?_
    rintro lo hi ⟨start, setup, stop, inside, ends⟩
    exact ⟨start, stop, setup, inside, ends⟩
  | ret line value =>
    refine stands_emits
      ((lays_elim (lays_number 0) fun e _ => lays_expr e False.elim).seq (lays_emit _)) ?_
    exact (fits_elim (fits_one rfl) fun e _ => fits_expr (Nat.le_refl 0) e).append (fits_op rfl)
  | breakOut line => exact stands_breakOut around_shape line
  | continueLoop line => exact stands_continueLoop around_shape line
  | vars decl => exact stands_emits (lays_varDecl False.elim) (fits_varDecl (Nat.le_refl 0) decl)
  | const _ _ _ => exact stands_pure
  | expr e => exact stands_emits (lays_effect e False.elim) (fits_effect (Nat.le_refl 0) e)
  | empty _ => exact stands_pure

theorem stands_stmts {around : Around} {shape : List Bool} (around_shape : around.Matches shape)
    (ss : List Stmt) :
    a.Stands around shape (Layout.stmts around.switches ss) (Gen.stmts ss)
      (Stmt.AllLie a around ss) := by
  cases ss with
  | nil => exact stands_pure
  | cons s ss => exact (stands_stmt around_shape s).seq (stands_stmts around_shape ss)

theorem lie_caseBodies {around : Around} {shape : List Bool} {d d' : Draft} {found : List Nat}
    (around_shape : around.Matches shape) (cs : List Case) (done : List Nat)
    (hd : d.frames.map Frame.isSwitch = shape) (run : (caseBodies done cs).run d = .ok (found, d'))
    (keeps : a.Keeps around d (Layout.caseBodies around.switches cs)) :
    ∃ starts, found = done.reverse ++ starts ∧
      Case.AllLie a around cs starts d.code.size d'.code.size := by
  cases cs with
  | nil =>
    cases run
    exact ⟨[], (List.append_nil _).symm, rfl, rfl⟩
  | cons c cs =>
    obtain ⟨_, _, ⟨⟩, run⟩ := run_bind run
    obtain ⟨⟨⟩, d₁, ran, run⟩ := run_bind run
    have first := stands_caseBody around_shape c
    have follows := (first.lays d hd).of_run ran
    obtain ⟨here, later⟩ := Keeps.split keeps follows
    obtain ⟨starts, rfl, lie⟩ :=
      lie_caseBodies around_shape cs (d.code.size :: done) (follows.shape_eq.trans hd) run later
    exact ⟨d.code.size :: starts, by simp, starts, d₁.code.size, rfl, first.here hd ran here, lie⟩

theorem stands_caseBody {around : Around} {shape : List Bool} (around_shape : around.Matches shape)
    (c : Case) :
    a.Stands around shape (Layout.caseBody around.switches c) (caseBody c) (c.Lies a around) := by
  obtain ⟨line, labels, body⟩ := c
  exact stands_stmts around_shape body

end

theorem stands_funcBody (f : Func) :
    a.Stands .top [] (Layout.funcBody f) (Gen.funcBody f) fun lo hi =>
      ∃ start stop, a.Emits (beginFunc f) lo start ∧
      Stmt.AllLie a .top f.body.body start stop ∧ a.Emits (endFunc f) stop hi := by
  have head : a.Stands .top [] (Layout.beginFunc f) (beginFunc f) (a.Emits (beginFunc f)) := by
    refine stands_emits (lays_beginFunc f) ?_
    refine (fits_op rfl).append
      ((fits_all fun l inside => ?_).append
        ((fits_op rfl).append ((fits_op rfl).append (fits_ite (fits_op rfl) fits_nil))))
    obtain ⟨p, -, rfl⟩ := List.mem_map.mp inside
    exact fits_one rfl
  have ending : a.Stands .top [] (Layout.ending f.body.body) (endFunc f) (a.Emits (endFunc f)) := by
    refine stands_emits
      (lays_behind fun _ => lays_ite lays_pure ((lays_number 0).seq (lays_emit _))) ?_
    exact fits_behind fun _ => fits_ite fits_nil ((fits_one rfl).append (fits_op rfl))
  rw [Layout.funcBody_split, Gen.funcBody_eq]
  refine (head.seq ((stands_stmts Around.matches_top f.body.body).seq ending)).mono ?_
  rintro lo hi ⟨start, first, stop, body, last⟩
  exact ⟨start, stop, first, body, last⟩

theorem lies_item (i : Item) (outside : d.frames.map Frame.isSwitch = [])
    (run : (Gen.item i).run d = .ok ((), d')) (keeps : a.Keeps .top d (Layout.item i)) :
    i.Lies a d.code.size d'.code.size := by
  cases i with
  | stmt s => exact (stands_stmt Around.matches_top s).here outside run keeps
  | func f =>
    obtain ⟨skip, d₁, jumped, run⟩ := run_bind run
    obtain ⟨⟨⟩, d₂, declared, run⟩ := run_bind run
    obtain ⟨⟨⟩, d₃, ran, patched⟩ := run_bind run
    obtain ⟨size₁, last₁, pool₁, shape₁⟩ := run_jump jumped
    obtain ⟨listed, -⟩ := (ends_declare (P := False) False.elim).of_run declared
    have code₂ : d₂.code = d₁.code.list [(f.tableName, d₁.code.size)] := congrArg Draft.code listed
    have size₂ : d₂.code.size = d.code.size + 1 := code₂ ▸ size₁
    have last₂ : d₂.code.lastOp? = some .setIndex := code₂ ▸ last₁
    have pool₂ : d₂.code.pool = d.code.pool := code₂ ▸ pool₁
    have shape₂ : d₂.frames.map Frame.isSwitch = [] := listed ▸ shape₁.trans outside
    have body := stands_funcBody (a := a) f
    have follows := (body.lays d₂ shape₂).of_run ran
    obtain ⟨stop, -⟩ := run_patchHere patched
    have code : Layout.item (.func f) d.code.size d.code.lastOp? =
        .jump .setIndex d'.code.size :: Layout.funcBody f d₂.code.size d₂.code.lastOp? := by
      rw [stop, follows.size_eq, last₂, size₂]
      rfl
    unfold Keeps at keeps
    rw [code] at keeps
    obtain ⟨jumps, inside⟩ := keeps.jump size₂ pool₂
    have here := body.here shape₂ ran inside
    rw [← stop, size₂] at here
    exact ⟨jumps, here⟩

theorem lie_items (is : List Item) (outside : d.frames = [])
    (run : (is.forM Gen.item).run d = .ok ((), d')) (keeps : a.Keeps .top d (Layout.items is)) :
    Item.AllLie a is d.code.size d'.code.size := by
  induction is generalizing d with
  | nil =>
    cases run
    rfl
  | cons i is ih =>
    have shape : d.frames.map Frame.isSwitch = [] := by rw [outside]; rfl
    obtain ⟨⟨⟩, d₁, ran, rest⟩ := run_bind run
    obtain ⟨follows, -⟩ :=
      (ends_item (P := False) i outside False.elim False.elim False.elim).of_run ran
    have outside₁ : d₁.frames = [] := List.map_eq_nil_iff.mp (follows.shape_eq.trans shape)
    have code : Layout.items (i :: is) d.code.size d.code.lastOp? =
        Layout.item i d.code.size d.code.lastOp? ++
          Layout.items is d₁.code.size d₁.code.lastOp? := by
      rw [follows.size_eq, follows.lastOp?_eq]
      rfl
    unfold Keeps at keeps
    rw [code] at keeps
    obtain ⟨here, later⟩ :=
      Holds.piece (d := d.list (i.listed d.code.size)) (l := Layout.item i) keeps follows
    exact ⟨d₁.code.size, lies_item i shape ran here, ih outside₁ rest later⟩

end Assembly

theorem Program.lies {p : Program} {d : Draft} (placed : ∀ i ∈ p.items, i.isPlaced = true)
    (h : p.draft = .ok d) : Item.AllLie d.code p.items 0 d.code.size := by
  obtain ⟨follows, -⟩ := draft_eq_ok h
  have fits : Slot.allFit false false 0 p.layout.length p.layout := by
    simpa [layout] using Layout.fits_items (Nat.le_refl 0) p.items placed 0 none (Nat.le_refl 0)
  have keeps : d.code.Keeps .top .empty (Layout.items p.items) := by
    unfold Assembly.Keeps
    change d.code.Holds 0 _ (p.layout.map _)
    rw [Around.map_settle_of_allFit _ fits, follows.code_eq]
    exact Assembly.holds_placeAll _ follows.range
  obtain ⟨⟨⟨⟩, _⟩, run, ⟨⟩⟩ := bind_eq_ok_iff.mp h
  exact Assembly.lie_items p.items rfl run keeps

/-- In the code behind every image the statements of the program stand one inside the other as in
its tree, so that every break leads behind the innermost loop or to the end of the innermost switch,
every continue drops the values of the switches inside its loop and leads to its next round, and
every label of a switch leads to the body of its case. -/
theorem structuredJumps_of_compile (settings : Settings) (script : Option ScriptId)
    (source : String) {out : Output} (h : (compile settings script source).result = .ok out) :
    ∃ header parsed bound symbols draft, Header.ofScript settings script = .ok header ∧
      Program.parse source settings.maxNesting = .ok parsed ∧
      parsed.resolve header.env = .ok (bound, symbols) ∧ bound.draft = .ok draft ∧
      draft.code.image header.prologue = .ok out.image ∧
      Item.AllLie draft.code bound.items 0 draft.code.size := by
  obtain ⟨header, parsed, bound, symbols, made, read, resolved, generated⟩ :=
    compile_result_eq_ok_iff.mp h
  obtain ⟨draft, drafted, written, -⟩ := Program.generate_eq_ok_iff.mp generated
  have ready := Program.ready_of_resolve (Program.isPlaced_of_parse read) resolved
  exact ⟨header, parsed, bound, symbols, draft, made, read, resolved, drafted, written,
    Program.lies ready.placed drafted⟩

/-- A switch inside a loop, with a continue for the loop and a break for the switch. -/
theorem structuredJumps_of_compile_nested : ∃ out,
    (compile ⟨8, true⟩ none "while(1)switch(1){case 2:continue;default:break;}").result = .ok out ∧
    ∃ header parsed bound symbols draft, Header.ofScript ⟨8, true⟩ none = .ok header ∧
      Program.parse "while(1)switch(1){case 2:continue;default:break;}" 8 = .ok parsed ∧
      parsed.resolve header.env = .ok (bound, symbols) ∧ bound.draft = .ok draft ∧
      draft.code.image header.prologue = .ok out.image ∧
      Item.AllLie draft.code bound.items 0 draft.code.size := by
  have ran : (compile ⟨8, true⟩ none
      "while(1)switch(1){case 2:continue;default:break;}").result.toOption.isSome =
        true := by decide +kernel
  obtain ⟨out, compiled⟩ := exists_ok_of_isSome ran
  exact ⟨out, compiled, structuredJumps_of_compile _ _ _ compiled⟩

end GraalScript
