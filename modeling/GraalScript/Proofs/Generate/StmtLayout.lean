import GraalScript.Generate.Stmt
import GraalScript.Proofs.Generate.ExprLayout
import Mathlib.Data.List.TakeWhile

/-! Layouts of statements. A loop or switch settles the jumps of its own code that wait for its end
or for the next round; what else waits is left to the constructs around it. -/
namespace GraalScript

namespace Slot

@[simp] theorem waitsFor_settle (w v : Wait) (target : Nat) (s : Slot) :
    (s.settle w target).waitsFor v = (decide (v ≠ w) && s.waitsFor v) := by
  cases s with
  | waits op u => by_cases h : u = w <;> by_cases hv : v = w <;> simp_all [settle, waitsFor]; grind
  | _ => simp [settle, waitsFor]

theorem eq_waits_of_waitsFor {w : Wait} {s : Slot} (h : s.waitsFor w = true) :
    ∃ op, s = .waits op w := by
  cases s with
  | waits op v => exact ⟨op, by simpa [waitsFor] using h⟩
  | _ => cases h

theorem settle_of_not_waitsFor {w : Wait} {s : Slot} (h : s.waitsFor w = false) (target : Nat) :
    s.settle w target = s := by
  cases s with
  | waits op v =>
    have other : v ≠ w := by simpa [waitsFor] using h
    simp [settle, other]
  | _ => rfl

theorem labels_map_settle_self (w : Wait) (target n : Nat) (code : List Slot) :
    labels w n (code.map (settle w target)) = [] := by
  apply labels_eq_nil
  intro s hs
  obtain ⟨t, _, rfl⟩ := List.mem_map.mp hs
  simp

theorem labels_map_settle_of_ne {w v : Wait} (h : v ≠ w) (target n : Nat) (code : List Slot) :
    labels v n (code.map (settle w target)) = labels v n code := by
  induction code generalizing n with
  | nil => rfl
  | cons s code ih => simp [labels, ih, h]

end Slot

theorem Frame.noteContinues_eq {frames rest : List Frame} {frame : Frame}
    (h : frames.dropWhile Frame.isSwitch = frame :: rest) (labels : List Label) :
    noteContinues labels frames = frames.takeWhile Frame.isSwitch ++
      { frame with continues := labels ++ frame.continues } :: rest := by
  induction frames with
  | nil => cases h
  | cons f fs ih => by_cases switch : f.isSwitch <;> simp_all [noteContinues]

namespace Layout

/-- A loop ends with a jump back to its head. What waits for its end goes behind that jump; what
waits for the next round goes to the head or to the tail. -/
def loop (head : Layout) (exit : Opcode) (body tail : Layout) (toHead : Bool) : Layout :=
  fun n last =>
  let x := head n last
  let first := n + x.length + 2
  let y := (body ++ tail ++ one (.jump .setIndex n)) first (some .cmdCall)
  let next := first + (body first (some .cmdCall)).length
  let stop := first + y.length
  x ++ Slot.jump exit stop :: Slot.plain .cmdCall ::
    (y.map (Slot.settle .breakOut stop)).map
      (Slot.settle .continueLoop (if toHead then n else next))

/-- The bodies of a switch stand before its value and its tests. -/
def switch (bodies : Layout) (starts : Nat → Option Opcode → List Nat) (value : Layout)
    (tests : List Nat → Layout) : Layout := fun n _ =>
  let x := bodies (n + 1) (some .setIndex)
  let first := n + 1 + x.length + 1
  let y := (value ++ tests (starts (n + 1) (some .setIndex))) first (some .setIndex)
  let stop := first + y.length
  .jump .setIndex first ::
    ((x ++ .jump .setIndex stop :: y).map (.settle .breakOut stop) ++ [.plain .indexDec])

def onObject (body : Layout) : Layout :=
  op .convToObject ++ jumpOver .withBegin (body ++ op .withEnd)

def varDef (d : VarDef) : Layout :=
  localVar d.name.name ++ d.value.elim (op .typeNull) expr ++ op .assign

def varDecl (decl : VarDecl) : Layout := all (decl.defs.map varDef)

def forInit : ForInit → Layout
  | .vars decl => varDecl decl
  | .expr e => effect e

/-- A continue drops the value of each switch between it and its loop. -/
def continueLoop (switches : Nat) : Layout :=
  all (List.replicate switches (op .indexDec)) ++ one (.waits .setIndex .continueLoop)

theorem all_replicate_op (k : Nat) (o : Opcode) (n : Nat) (last : Option Opcode) :
    all (List.replicate k (op o)) n last = List.replicate k (.plain o) := by
  induction k generalizing n last with
  | zero => rfl
  | succ k ih =>
    rw [List.replicate_succ, all, append_apply, ih]
    rfl

theorem note_continueLoop (switches n : Nat) (last : Option Opcode) (frames : List Frame) :
    Frame.note n (continueLoop switches n last) frames =
      Frame.noteContinues [n + switches] frames := by
  have drops (w : Wait) : Slot.labels w n (List.replicate switches (.plain .indexDec)) = [] := by
    refine Slot.labels_eq_nil (fun s hs => ?_) n
    rw [List.eq_of_mem_replicate hs]
    rfl
  rw [continueLoop, append_apply, all_replicate_op, Frame.note, Slot.labels_append,
    Slot.labels_append, drops, drops]
  simp [one, Slot.labels, Slot.waitsFor]

def labelTest (start : Nat) : Option Expr → Layout
  | none => nil
  | some label => op .copyLastOp ++ expr label ++ op .eq ++ one (.jump .setIndexTrue start)

def fallback (tests : List (Nat × List (Option Expr))) : Option Nat :=
  tests.foldl (fun found (start, labels) =>
    labels.foldl (fun found label => if label.isNone then some start else found) found) none

def switchTests (tests : List (Nat × List (Option Expr))) : Layout :=
  all (tests.map fun (start, labels) => all (labels.map (labelTest start))) ++
    (fallback tests).elim nil fun start => one (.jump .setIndex start)

def newControl (name : Layout) (cls : String) (body : Layout) : Layout :=
  name ++ op .inlineNew ++ op .copyLastOp ++ op .copyLastOp ++ op .copyLastOp ++
    one (.text .typeString cls) ++ op .convToString ++ op .newObject ++ op .assign ++
    onObject body ++ op .typeArray ++ op .swapLastOps ++ one (.text .typeVar "addcontrol") ++
    op .call ++ op .indexDec

mutual

/-- The layout of a statement with the given number of switches between it and its loop. -/
def stmt (switches : Nat) : Stmt → Layout
  | .block _ body => stmts switches body
  | .ifThen _ cond yes => condition cond ++ jumpOver .ifThen (stmt switches yes)
  | .ifElse _ cond yes no => choose (condition cond) (stmt switches yes) (stmt switches no)
  | .whileLoop _ cond body => loop (condition cond) .ifThen (stmt 0 body) nil true
  | .forLoop _ init cond step body =>
    init.elim nil forInit ++
      loop (cond.elim (op .typeTrue) condition) .ifThen (stmt 0 body) (step.elim nil effect) false
  | .forEach _ _ item binding iterable body =>
    bound item binding ++ expr iterable ++ op .convToObject ++ one (.number 0) ++
      loop nil .forEach (stmt 0 body) (op .inc) false ++ op .indexDec
  | .withObject _ object body => expr object ++ onObject (stmt switches body)
  | .switch _ value cases =>
    switch (caseBodies (switches + 1) cases) (caseStarts (switches + 1) cases) (expr value)
      fun starts => switchTests (starts.zip (cases.map Case.labels))
  | .new _ cls name _ body => newControl (expr name) cls.name (stmts switches body)
  | .ret _ value => value.elim (one (.number 0)) expr ++ op .ret
  | .breakOut _ => one (.waits .setIndex .breakOut)
  | .continueLoop _ => continueLoop switches
  | .vars decl => varDecl decl
  | .const .. => nil
  | .expr e => effect e
  | .empty _ => nil

def stmts (switches : Nat) : List Stmt → Layout
  | [] => nil
  | s :: ss => stmt switches s ++ stmts switches ss

def caseBodies (switches : Nat) : List Case → Layout
  | [] => nil
  | c :: cs => caseBody switches c ++ caseBodies switches cs

def caseStarts (switches : Nat) : List Case → Nat → Option Opcode → List Nat
  | [], _, _ => []
  | c :: cs, n, last =>
    let x := caseBody switches c n last
    n :: caseStarts switches cs (n + x.length) (Slot.lastOf x last)

def caseBody (switches : Nat) : Case → Layout
  | .mk _ _ body => stmts switches body

end

end Layout

namespace Gen

open Layout

variable {shape : List Bool} {P : Prop} {a b c : Layout} {f g h : Gen Unit} {d : Draft}

theorem ends_enter (frame : Frame) :
    Ends P (enter frame) d fun _ d' => d'.code = d.code ∧ d'.frames = frame :: d.frames :=
  ⟨rfl, rfl⟩

theorem ends_leave {frame : Frame} {frames : List Frame} (h : d.frames = frame :: frames) :
    Ends P leave d fun found d' => found = frame ∧ d'.code = d.code ∧ d'.frames = frames := by
  refine ⟨?_, rfl, ?_⟩ <;> simp [h]

theorem ends_fromHere {α : Type} {next : Nat → Gen α} {Q : α → Draft → Prop}
    (ends : Ends P (next d.code.size) d Q) : Ends P (do next (← here)) d Q := ends

theorem Ends.of_run_eq {α : Type} {g g' : Gen α} {Q : α → Draft → Prop} (ends : Ends P g d Q)
    (eq : g'.run d = g.run d) : Ends P g' d Q := by
  unfold Ends at ends ⊢
  rw [eq]
  exact ends

/-- Going through the labels of a piece of code settles its jumps, from the last to the first. -/
theorem ends_settle {act : Nat → Gen Unit} {target size : Nat} (w : Wait) {base : Assembly}
    (u z : List Slot)
    (acts : ∀ label (d : Draft), d.code.size = size →
      (act label).run d = (patch label target).run d)
    (code_eq : d.code = base.placeAll (u ++ z)) (size_eq : d.code.size = size)
    (range : z.all Slot.inRange = true) :
    Ends P ((Slot.labels w (base.size + u.length) z).forM act) d fun _ d' =>
      d'.code = base.placeAll (u ++ z.map (Slot.settle w target)) ∧ d'.frames = d.frames ∧
      (z.map (Slot.settle w target)).all Slot.inRange = true := by
  induction z generalizing u with
  | nil => exact ⟨code_eq, rfl, rfl⟩
  | cons s z ih =>
    rw [List.all_cons, Bool.and_eq_true] at range
    have later := ih (u ++ [s]) (by simpa using code_eq) range.2
    simp only [List.length_append, List.length_cons, List.length_nil, Nat.zero_add] at later
    rw [Slot.labels, List.forM_eq_forM, List.forM_append]
    refine later.bind fun _ d' settled => ?_
    obtain ⟨settled_code, settled_frames, settled_range⟩ := settled
    by_cases waits : s.waitsFor w = true
    · obtain ⟨op, rfl⟩ := Slot.eq_waits_of_waitsFor waits
      have this_code :
          d'.code = base.placeAll (u ++ Slot.waits op w :: z.map (Slot.settle w target)) := by
        rw [settled_code]
        simp
      have this_size : d'.code.size = size := by
        rw [settled_code, ← size_eq, code_eq]
        simp
      have patched := (ends_patch (P := P) this_code rfl target).of_run_eq
        (acts (base.size + u.length) d' this_size)
      simp only [waits, if_true, List.forM_cons, List.forM_nil, bind_pure_unit]
      refine patched.mono fun _ d'' result => ⟨?_, result.2.1.trans settled_frames, ?_⟩
      · simpa [Slot.settle] using result.1
      · simpa only [List.map_cons, List.all_cons, settled_range, Bool.and_true,
          Slot.settle, if_true, Slot.inRange, decide_eq_true_eq] using result.2.2
    · have same := Slot.settle_of_not_waitsFor (Bool.eq_false_iff.mpr waits) target
      simp only [waits, List.map_cons, same]
      refine ends_pure ⟨by simpa using settled_code, settled_frames, ?_⟩
      rw [List.all_cons, range.1, settled_range, Bool.and_self]

theorem ends_patchAll (w : Wait) {base : Assembly} {u z : List Slot} {first : Nat}
    (first_eq : first = base.size + u.length) (code_eq : d.code = base.placeAll (u ++ z))
    (range : z.all Slot.inRange = true) (target : Nat) :
    Ends P ((Slot.labels w first z).forM fun label => patch label target) d fun _ d' =>
      d'.code = base.placeAll (u ++ z.map (.settle w target)) ∧ d'.frames = d.frames ∧
      (z.map (.settle w target)).all Slot.inRange = true := by
  rw [first_eq]
  exact ends_settle w u z (fun _ _ _ => rfl) code_eq rfl range

theorem ends_patchAllHere (w : Wait) {base : Assembly} {u z : List Slot} {first : Nat}
    (first_eq : first = base.size + u.length) (code_eq : d.code = base.placeAll (u ++ z))
    (range : z.all Slot.inRange = true) :
    Ends P ((Slot.labels w first z).forM patchHere) d fun _ d' =>
      d'.code = base.placeAll (u ++ z.map (.settle w (first + z.length))) ∧ d'.frames = d.frames ∧
      (z.map (.settle w (first + z.length))).all Slot.inRange = true := by
  have size : d.code.size = first + z.length := by
    simp [code_eq, first_eq, Nat.add_assoc]
  have acts (label : Nat) (d' : Draft) (eq : d'.code.size = first + z.length) :
      (patchHere label).run d' = (patch label (first + z.length)).run d' := by
    rw [← eq]
    rfl
  rw [first_eq] at size acts ⊢
  exact ends_settle w u z acts code_eq size range

theorem ends_endLoop {base : Assembly} {exit : Opcode} {x z : List Slot} {out first : Nat}
    {frames : List Frame} (first_eq : first = base.size + x.length + 2)
    (code_eq : d.code = base.placeAll (x ++ Slot.waits exit .inside :: Slot.plain .cmdCall :: z))
    (frames_eq : d.frames =
      ⟨false, Slot.labels .breakOut first z, Slot.labels .continueLoop first z⟩ :: frames)
    (out_eq : out = base.size + x.length) (range : z.all Slot.inRange = true) (next : Nat) :
    Ends P (endLoop out next) d fun _ d' =>
      d'.code = base.placeAll (x ++ Slot.jump exit (first + z.length) :: Slot.plain .cmdCall ::
        (z.map (Slot.settle .breakOut (first + z.length))).map (Slot.settle .continueLoop next)) ∧
      d'.frames = frames ∧ first + z.length < 0x10000 ∧
      ((z.map (Slot.settle .breakOut (first + z.length))).map (Slot.settle .continueLoop next)).all
        Slot.inRange = true := by
  refine (ends_leave frames_eq).bind fun frame d₁ left => ?_
  obtain ⟨rfl, left_code, left_frames⟩ := left
  have exits := ends_patchHere (P := P) (left_code.trans code_eq) out_eq
  have stop : base.size + x.length + 1 + (Slot.plain .cmdCall :: z).length = first + z.length := by
    rw [first_eq, List.length_cons]
    omega
  rw [stop] at exits
  refine exits.bind fun _ d₂ patched => ?_
  let u : List Slot := x ++ [Slot.jump exit (first + z.length), .plain .cmdCall]
  have inner : first = base.size + u.length := by
    simp [u, first_eq, Nat.add_assoc]
  have code₂ : d₂.code = base.placeAll (u ++ z) := by
    simpa [u] using patched.1
  refine (ends_patchAllHere .breakOut inner code₂ range).bind fun _ d₃ broken => ?_
  have continues := ends_patchAll (P := P) .continueLoop inner broken.1 broken.2.2 next
  rw [Slot.labels_map_settle_of_ne (by decide)] at continues
  refine continues.mono fun _ d₄ continued => ?_
  exact ⟨by simpa [u] using continued.1,
    continued.2.1.trans (broken.2.1.trans (patched.2.1.trans left_frames)), patched.2.2,
      continued.2.2⟩

theorem lays_loop (exit : Opcode) (head : Lays shape P a f) (body : Lays (false :: shape) P b g)
    (tail : Lays (false :: shape) P c h) (toHead : Bool) :
    Lays shape P (loop a exit b c toHead) (do
      let start ← here
      f
      let out ← jump exit
      emit .cmdCall
      enter .loop
      g
      let next ← here
      h
      jumpTo .setIndex start
      endLoop out (if toHead then start else next)) := by
  intro d hd
  refine ends_fromHere ((head d hd).bind fun _ d₁ headed => ?_)
  refine (ends_jump exit).bind fun out d₂ made => ?_
  refine ((lays_emit .cmdCall).after (headed.trans made.2) hd).bind fun _ d₃ opened => ?_
  refine (ends_enter .loop).bind fun _ d₄ entered => ?_
  have shape₄ : d₄.frames.map Frame.isSwitch = false :: shape := by
    rw [entered.2, List.map_cons, opened.shape_eq, hd]
    rfl
  have size₄ : d₄.code.size = d.code.size + (a d.code.size d.code.lastOp?).length + 2 := by
    rw [entered.1, opened.size_eq]
    simp only [List.length_append]
    rfl
  have last₄ : d₄.code.lastOp? = some .cmdCall := by
    rw [entered.1, opened.lastOp?_eq]
    simp [op, one, Slot.op]
  refine (body d₄ shape₄).bind fun _ d₅ bodied => ends_fromHere ?_
  refine (tail.after bodied shape₄).bind fun _ d₆ tailed => ?_
  refine ((lays_jumpTo .setIndex d.code.size).after tailed shape₄).bind fun _ d₇ back => ?_
  have next := bodied.size_eq
  change d₄.Follows ((b ++ c ++ one (.jump .setIndex d.code.size)) d₄.code.size d₄.code.lastOp?) d₇
    at back
  rw [size₄, last₄] at back next
  -- The frame of the loop has gathered the open jumps of its code.
  have frames₇ := back.frames_eq
  rw [size₄, entered.2, Frame.note_loop, opened.frames_eq] at frames₇
  have code₇ := back.code_eq
  rw [entered.1, opened.code_eq, ← Assembly.placeAll_append] at code₇
  simp only [List.append_assoc] at code₇
  refine (ends_endLoop rfl code₇ frames₇ (made.1.trans headed.size_eq) back.range _).mono
    fun _ d₈ ended => ?_
  rw [next] at ended
  obtain ⟨code₈, frames₈, stop_range, range⟩ := ended
  refine ⟨code₈, frames₈.trans ?_, ?_⟩
  on_goal 2 =>
    rw [loop, List.all_append, List.all_cons, List.all_cons]
    simp only [Bool.and_eq_true]
    exact ⟨headed.range, decide_eq_true stop_range, rfl, range⟩
  rw [loop, List.append_assoc, Frame.note_append_eq, Frame.note_append_eq]
  · simp [Slot.labels, Slot.waitsFor, Slot.labels_map_settle_self, Slot.labels_map_settle_of_ne,
      -List.map_map]
  · simp [Slot.labels, Slot.waitsFor, Slot.labels_map_settle_self, -List.map_map]
  · simp [op, one, Slot.labels, Slot.waitsFor]
  · simp [op, one, Slot.labels, Slot.waitsFor]

theorem ends_endSwitch {base : Assembly} {x y : List Slot} {done stop : Nat} {frames : List Frame}
    (stop_eq : stop = base.size + x.length + 1 + y.length)
    (code_eq : d.code = base.placeAll (x ++ Slot.waits .setIndex .inside :: y))
    (frames_eq : d.frames =
      ⟨true, Slot.labels .breakOut base.size (x ++ Slot.waits .setIndex .inside :: y),
        []⟩ :: frames)
    (done_eq : done = base.size + x.length)
    (range : (x ++ Slot.waits .setIndex .inside :: y).all Slot.inRange = true) :
    Ends P (do
      let frame ← leave
      patchHere done
      frame.breaks.forM patchHere
      emit .indexDec) d fun _ d' =>
        d'.code = base.placeAll
          ((x ++ Slot.jump .setIndex stop :: y).map (Slot.settle .breakOut stop) ++
            [Slot.plain .indexDec]) ∧
        d'.frames = frames ∧
        ((x ++ Slot.jump .setIndex stop :: y).map (Slot.settle .breakOut stop)).all Slot.inRange =
          true := by
  refine (ends_leave frames_eq).bind fun frame d₁ left => ?_
  obtain ⟨rfl, left_code, left_frames⟩ := left
  refine (ends_patchHere (left_code.trans code_eq) done_eq).bind fun _ d₂ patched => ?_
  rw [← stop_eq] at patched
  have code₂ : d₂.code = base.placeAll ([] ++ (x ++ Slot.jump .setIndex stop :: y)) := patched.1
  have range₂ : (x ++ Slot.jump .setIndex stop :: y).all Slot.inRange = true := by
    simpa [Slot.inRange, patched.2.2] using range
  have breaks := ends_patchAllHere (P := P) .breakOut rfl code₂ range₂
  have size : base.size + (x ++ Slot.jump .setIndex stop :: y).length = stop := by
    rw [stop_eq, List.length_append, List.length_cons]
    omega
  have labels : Slot.labels .breakOut base.size (x ++ Slot.jump .setIndex stop :: y) =
      Slot.labels .breakOut base.size (x ++ Slot.waits .setIndex .inside :: y) := by
    simp [Slot.labels_append, Slot.labels, Slot.waitsFor]
  simp only [List.length_nil, Nat.add_zero, List.nil_append, size, labels] at breaks
  refine breaks.bind fun _ d₃ broken => ?_
  refine ⟨?_, broken.2.1.trans (patched.2.1.trans left_frames), broken.2.2⟩
  rw [Assembly.placeAll_append, ← broken.1]
  rfl

theorem lays_switch {bodies : Gen (List Nat)} {starts : Nat → Option Opcode → List Nat}
    {tests : List Nat → Layout} {labels : List (List (Option Expr))}
    (bodied : ∀ d : Draft, d.frames.map Frame.isSwitch = true :: shape →
      Ends P bodies d fun found d' =>
        found = starts d.code.size d.code.lastOp? ∧ d.Follows (a d.code.size d.code.lastOp?) d')
    (valued : Lays (true :: shape) P b g)
    (tested : ∀ found, Lays (true :: shape) P (tests found) (switchTests (found.zip labels))) :
    Lays shape P (Layout.switch a starts b tests) (switch bodies g labels) := by
  intro d hd
  refine (ends_jump .setIndex).bind fun label d₁ made => ?_
  refine (ends_enter .switch).bind fun _ d₂ entered => ?_
  have frames₂ : d₂.frames = .switch :: d.frames := by
    rw [entered.2, made.2.frames_eq, Frame.note_eq_self] <;> simp [Slot.labels, Slot.waitsFor]
  have shape₂ : d₂.frames.map Frame.isSwitch = true :: shape := by
    rw [frames₂, List.map_cons, hd]
    rfl
  have code₂ : d₂.code = d.code.placeAll [.waits .setIndex .inside] :=
    entered.1.trans made.2.code_eq
  have size₂ : d₂.code.size = d.code.size + 1 := by simp [code₂]
  have last₂ : d₂.code.lastOp? = some .setIndex := by simp [code₂, Slot.op]
  refine (bodied d₂ shape₂).bind fun found d₃ ran => ?_
  refine (ends_jump .setIndex).bind fun done d₄ left => ?_
  have bodies₄ := ran.2.trans left.2
  rw [size₂, last₂] at ran bodies₄
  have code₄ : d₄.code = d.code.placeAll
      ([] ++ Slot.waits .setIndex .inside ::
        (a (d.code.size + 1) (some .setIndex) ++ [Slot.waits .setIndex .inside])) := by
    rw [bodies₄.code_eq, code₂, ← Assembly.placeAll_append]
    rfl
  refine (ends_patchHere code₄ made.1).bind fun _ d₅ patched => ?_
  let first := d.code.size + 1 + (a (d.code.size + 1) (some .setIndex)).length + 1
  have first_eq : d.code.size + ([] : List Slot).length + 1 +
      (a (d.code.size + 1) (some .setIndex) ++ [Slot.waits .setIndex .inside]).length = first := by
    simp [first, Nat.add_assoc]
  rw [first_eq] at patched
  -- From here on it is as if the jump to the tests had had its target from the start.
  let start : Draft := { d₂ with code := d.code.place (.jump .setIndex first) }
  have size : start.code.size = d.code.size + 1 := Assembly.size_place ..
  have bodies₅ : start.Follows
      (a (d.code.size + 1) (some .setIndex) ++ [Slot.waits .setIndex .inside]) d₅ := by
    refine ⟨patched.1, ?_, bodies₄.range⟩
    rw [patched.2.1, bodies₄.frames_eq, size, size₂]
  refine (valued.after bodies₅ shape₂).bind fun _ d₆ value₆ => ?_
  refine ((tested found).after value₆ shape₂).bind fun _ d₇ tests₇ => ?_
  rw [Layout.append_after, size, ran.1] at tests₇
  let y := (b ++ tests (starts (d.code.size + 1) (some .setIndex))) first (some .setIndex)
  have whole : start.Follows
      (a (d.code.size + 1) (some .setIndex) ++ Slot.waits .setIndex .inside :: y) d₇ := by
    simpa [y, first, Slot.op, Nat.add_assoc] using tests₇
  have frames₇ := whole.frames_eq
  rw [show start.frames = .switch :: d.frames from frames₂, Frame.note_switch] at frames₇
  refine (ends_endSwitch rfl whole.code_eq frames₇ ?_ whole.range).mono fun _ d₈ ended => ?_
  · rw [left.1, ran.2.size_eq, size, size₂]
  have stop : start.code.size + (a (d.code.size + 1) (some .setIndex)).length + 1 + y.length =
      first + y.length := by
    rw [size]
  rw [stop] at ended
  obtain ⟨code₈, frames₈, range⟩ := ended
  refine ⟨code₈, frames₈.trans ?_, ?_⟩
  on_goal 2 =>
    rw [Layout.switch, List.all_cons, List.all_append, range]
    simpa [Slot.inRange] using patched.2.2
  rw [size]
  simp [Frame.note, Layout.switch, Slot.labels, Slot.labels_append, Slot.waitsFor,
    Slot.settle, y, first, Slot.labels_map_settle_self, Slot.labels_map_settle_of_ne]

theorem lays_onObject (body : Lays shape P a g) :
    Lays shape P (Layout.onObject a) (Gen.onObject g) := by
  have within := lays_jumpOver .withBegin (body.seq (lays_emit .withEnd))
  simp only [bind_assoc] at within
  exact (lays_emit _).seq within

theorem lays_elim {α : Type} {c : α → Layout} {k : α → Gen Unit} {x : Option α}
    (none : Lays shape P a f) (some : ∀ y ∈ x, Lays shape P (c y) (k y)) :
    Lays shape P (x.elim a c) (x.elim f k) := by
  cases x with
  | none => exact none
  | some y => exact some y rfl

theorem lays_varDecl {decl : VarDecl} (h : P → decl.isBound = true) :
    Lays shape P (Layout.varDecl decl) (Gen.varDecl decl) := by
  simp only [VarDecl.isBound, List.all_eq_true, Option.all_eq_true] at h
  refine lays_forM decl.defs fun d hd => ?_
  have value : Lays shape P (d.value.elim (op .typeNull) Layout.expr)
      (d.value.elim (emit .typeNull) Gen.expr) :=
    lays_elim (lays_emit _) fun e he => lays_expr e (h · d hd e he)
  rw [Layout.varDef, append_assoc]
  exact (lays_localVar d.name.name).seq (value.seq (lays_emit _))

theorem lays_forInit {init : ForInit} (h : P → init.isBound = true) :
    Lays shape P (Layout.forInit init) (Gen.forInit init) := by
  cases init with
  | vars decl => exact lays_varDecl h
  | expr e => exact lays_effect e h

theorem lays_breakOut (line : Nat) (h : P → (!shape.isEmpty) = true) :
    Lays shape P (one (.waits .setIndex .breakOut)) (breakOut line) := by
  intro d hd
  cases frames : d.frames with
  | nil =>
    have failed : (breakOut line).run d = .error (.noLoop line) := by
      simp [breakOut, jump, frames]
      rfl
    simp only [Ends, failed]
    intro p
    simp [← hd, frames] at h
    exact (h p).elim
  | cons frame frames' =>
    have noted : (breakOut line).run d = .ok ((), { d with
        code := (d.code.emitJump .setIndex).2
        frames := { frame with breaks := d.code.size :: frame.breaks } :: frames' }) := by
      simp [breakOut, jump, frames]
      rfl
    simp only [Ends, noted]
    refine ⟨rfl, ?_, rfl⟩
    simp [frames, one, Frame.note, Frame.noteBreaks, Slot.labels, Slot.waitsFor]

theorem lays_continueLoop (line : Nat) (h : P → shape.contains false = true) :
    Lays shape P (Layout.continueLoop (shape.takeWhile id).length) (continueLoop line) := by
  intro d hd
  have switches : (shape.takeWhile id).length = (d.frames.takeWhile Frame.isSwitch).length := by
    simp [← hd, List.takeWhile_map]
  cases frames : d.frames.dropWhile Frame.isSwitch with
  | nil =>
    have failed : (continueLoop line).run d = .error (.noLoop line) := by
      simp [continueLoop, frames]
      rfl
    simp only [Ends, failed]
    intro p
    rw [List.dropWhile_eq_nil_iff] at frames
    have found := h p
    simp only [← hd, List.contains_eq_mem, List.mem_map, decide_eq_true_eq] at found
    obtain ⟨frame, member, loop⟩ := found
    simp [frames frame member] at loop
  | cons frame rest =>
    have run : (continueLoop line).run d = (do
        (d.frames.takeWhile Frame.isSwitch).forM fun _ => emit .indexDec
        let label ← jump .setIndex
        modify fun d' => { d' with
          frames := d.frames.takeWhile Frame.isSwitch ++
            { frame with continues := label :: frame.continues } :: rest } : Gen Unit).run d := by
      simp [continueLoop, frames]
    refine Ends.of_run_eq ?_ run
    have drops :
        Lays shape P _ ((d.frames.takeWhile Frame.isSwitch).forM fun _ => emit .indexDec) :=
      lays_forM _ fun _ _ => lays_emit .indexDec
    rw [List.map_const', ← switches] at drops
    refine (drops d hd).bind fun _ d₁ dropped => ?_
    refine (ends_jump .setIndex).bind fun label d₂ made => ?_
    refine ⟨?_, ?_, ?_⟩
    · rw [Layout.continueLoop, append_apply, Assembly.placeAll_append, ← dropped.code_eq]
      exact made.2.code_eq
    · have label_eq : label = d.code.size + (shape.takeWhile id).length := by
        rw [made.1, dropped.size_eq, all_replicate_op, List.length_replicate]
      rw [note_continueLoop, ← label_eq, Frame.noteContinues_eq frames]
      rfl
    · rw [Layout.continueLoop, append_apply, List.all_append, dropped.range]
      rfl

/-- As `Lays`, with a result that the place of the code decides. -/
def Returns {α : Type} (shape : List Bool) (P : Prop) (a : Layout) (v : Nat → Option Opcode → α)
    (g : Gen α) : Prop :=
  ∀ d : Draft, d.frames.map Frame.isSwitch = shape → Ends P g d fun r d' =>
    r = v d.code.size d.code.lastOp? ∧ d.Follows (a d.code.size d.code.lastOp?) d'

theorem returns_foldlM {σ ι : Type} {step : σ → ι → Gen σ} {next : σ → ι → σ} {c : ι → Layout}
    (xs : List ι) (each : ∀ x ∈ xs, ∀ s, Returns shape P (c x) (fun _ _ => next s x) (step s x))
    (s : σ) :
    Returns shape P (Layout.all (xs.map c)) (fun _ _ => xs.foldl next s) (xs.foldlM step s) := by
  induction xs generalizing s with
  | nil => exact fun d _ => ⟨rfl, Draft.Follows.refl d⟩
  | cons x xs ih =>
    intro d hd
    rw [List.foldlM_cons]
    refine (each x List.mem_cons_self s d hd).bind fun s' d₁ first => ?_
    have rest :=
      ih (fun y hy => each y (List.mem_cons_of_mem x hy)) s' d₁ (first.2.shape_eq.trans hd)
    rw [first.2.size_eq, first.2.lastOp?_eq] at rest
    exact rest.mono fun r d₂ last => ⟨last.1.trans (by rw [first.1]; rfl), first.2.trans last.2⟩

theorem returns_labelTest (start : Nat) {label : Option Expr}
    (h : P → label.all Expr.isBound = true) (found : Option Nat) :
    Returns shape P (Layout.labelTest start label)
      (fun _ _ => if label.isNone then some start else found)
      (Gen.labelTest start found label) := by
  cases label with
  | none => exact fun d _ => ⟨rfl, Draft.Follows.refl d⟩
  | some e =>
    have test : Lays shape P (Layout.labelTest start (some e)) (do
        emit .copyLastOp
        Gen.expr e
        emit .eq
        jumpTo .setIndexTrue start) := by
      rw [Layout.labelTest, append_assoc, append_assoc]
      exact (lays_emit _).seq ((lays_expr e h).seq ((lays_emit _).seq (lays_jumpTo _ _)))
    intro d hd
    have ends := (test d hd).bind fun _ d' placed =>
      ends_pure (Q := fun r d' => r = found ∧ d.Follows _ d') ⟨rfl, placed⟩
    simp only [bind_assoc] at ends
    exact ends

theorem lays_switchTests (tests : List (Nat × List (Option Expr)))
    (h : P → ∀ t ∈ tests, t.2.all (·.all Expr.isBound) = true) :
    Lays shape P (Layout.switchTests tests) (Gen.switchTests tests) := by
  simp only [List.all_eq_true] at h
  have found : Returns shape P _ (fun _ _ => fallback tests) _ :=
    returns_foldlM tests (fun t ht s => returns_foldlM t.2
      (fun label hl s => returns_labelTest t.1 (h · t ht label hl) s) s) none
  intro d hd
  refine (found d hd).bind fun r d₁ tested => ?_
  rw [tested.1, Layout.switchTests]
  cases fallback tests with
  | none => exact lays_pure.after tested.2 hd
  | some start => exact (lays_jumpTo _ start).after tested.2 hd

theorem lays_newControl (cls : String) (name : Lays shape P a f) (body : Lays shape P b g) :
    Lays shape P (Layout.newControl a cls b) (Gen.newControl f cls g) := by
  simp only [Layout.newControl, append_assoc]
  exact name.seq ((lays_emit _).seq ((lays_emit _).seq ((lays_emit _).seq ((lays_emit _).seq
    ((lays_string _).seq ((lays_emit _).seq ((lays_emit _).seq ((lays_emit _).seq
    ((lays_onObject body).seq ((lays_emit _).seq ((lays_emit _).seq ((lays_reference _).seq
    ((lays_emit _).seq (lays_emit _))))))))))))))

mutual

theorem lays_stmt (shape : List Bool) (s : Stmt) (bound : P → s.isBound = true)
    (placed : P → s.isPlaced (shape.contains false) (!shape.isEmpty) = true) :
    Lays shape P (Layout.stmt (shape.takeWhile id).length s) (Gen.stmt s) := by
  cases s with
  | block _ body => exact lays_stmts shape body bound placed
  | ifThen _ cond yes =>
    simp only [Stmt.isBound, Bool.and_eq_true] at bound
    exact (lays_condition cond fun p => (bound p).1).seq
      (lays_jumpOver _ (lays_stmt shape yes (fun p => (bound p).2) placed))
  | ifElse _ cond yes no =>
    simp only [Stmt.isBound, Stmt.isPlaced, Bool.and_eq_true] at bound placed
    exact lays_choose (lays_condition cond fun p => (bound p).1.1)
      (lays_stmt shape yes (fun p => (bound p).1.2) fun p => (placed p).1)
      (lays_stmt shape no (fun p => (bound p).2) fun p => (placed p).2)
  | whileLoop _ cond body =>
    simp only [Stmt.isBound, Bool.and_eq_true] at bound
    have inner := lays_stmt (false :: shape) body (fun p => (bound p).2) placed
    exact lays_loop .ifThen (lays_condition cond fun p => (bound p).1) inner lays_pure true
  | forLoop _ init cond step body =>
    simp only [Stmt.isBound, Bool.and_eq_true, Option.all_eq_true] at bound
    have inner := lays_stmt (false :: shape) body (fun p => (bound p).2) placed
    refine Lays.seq (lays_elim lays_pure fun i hi => ?_)
      (lays_loop .ifThen (lays_elim (lays_emit _) fun e he => ?_) inner
        (lays_elim lays_pure fun e he => ?_) false)
    · exact lays_forInit fun p => (bound p).1.1.1 i hi
    · exact lays_condition e fun p => (bound p).1.1.2 e he
    · exact lays_effect e fun p => (bound p).1.2 e he
  | forEach line _ item binding iterable body =>
    simp only [Stmt.isBound, Bool.and_eq_true] at bound
    have inner := lays_stmt (false :: shape) body (fun p => (bound p).2) placed
    have rounds :=
      (lays_loop .forEach lays_pure inner (lays_emit .inc) false).seq (lays_emit .indexDec)
    simp only [pure_bind, bind_assoc] at rounds
    simp only [Layout.stmt, append_assoc]
    exact (lays_bound line item fun p => (bound p).1.1).seq
      ((lays_expr iterable fun p => (bound p).1.2).seq
        ((lays_emit _).seq ((lays_number 0).seq rounds)))
  | withObject _ object body =>
    simp only [Stmt.isBound, Bool.and_eq_true] at bound
    exact (lays_expr object fun p => (bound p).1).seq
      (lays_onObject (lays_stmt shape body (fun p => (bound p).2) placed))
  | switch _ value cases =>
    simp only [Stmt.isBound, Bool.and_eq_true] at bound
    have bodies := returns_caseBodies (true :: shape) cases [] (fun p => (bound p).2) placed
    refine lays_switch bodies (lays_expr value fun p => (bound p).1) fun starts => ?_
    exact lays_switchTests _ fun p t ht => Case.allBound_labels (bound p).2 (List.of_mem_zip ht).2
  | new _ cls name _ body =>
    simp only [Stmt.isBound, Bool.and_eq_true] at bound
    exact lays_newControl cls.name (lays_expr name fun p => (bound p).1)
      (lays_stmts shape body (fun p => (bound p).2) placed)
  | ret _ value =>
    simp only [Stmt.isBound, Option.all_eq_true] at bound
    exact (lays_elim (lays_number 0) fun e he => lays_expr e fun p => bound p e he).seq
      (lays_emit _)
  | breakOut line => exact lays_breakOut line placed
  | continueLoop line => exact lays_continueLoop line placed
  | vars decl => exact lays_varDecl bound
  | const _ _ _ => exact lays_pure
  | expr e => exact lays_effect e bound
  | empty _ => exact lays_pure

theorem lays_stmts (shape : List Bool) (ss : List Stmt) (bound : P → Stmt.allBound ss = true)
    (placed : P → Stmt.allPlaced (shape.contains false) (!shape.isEmpty) ss = true) :
    Lays shape P (Layout.stmts (shape.takeWhile id).length ss) (Gen.stmts ss) := by
  cases ss with
  | nil => exact lays_pure
  | cons s ss =>
    simp only [Stmt.allBound, Stmt.allPlaced, Bool.and_eq_true] at bound placed
    exact (lays_stmt shape s (fun p => (bound p).1) fun p => (placed p).1).seq
      (lays_stmts shape ss (fun p => (bound p).2) fun p => (placed p).2)

theorem returns_caseBodies (shape : List Bool) (cs : List Case) (done : List Nat)
    (bound : P → Case.allBound cs = true)
    (placed : P → Case.allPlaced (shape.contains false) (!shape.isEmpty) cs = true) :
    Returns shape P (Layout.caseBodies (shape.takeWhile id).length cs)
      (fun n last => done.reverse ++ Layout.caseStarts (shape.takeWhile id).length cs n last)
      (Gen.caseBodies done cs) := by
  intro d hd
  cases cs with
  | nil => exact ⟨by simp [caseStarts], Draft.Follows.refl d⟩
  | cons c cs =>
    simp only [Case.allBound, Case.allPlaced, Bool.and_eq_true] at bound placed
    refine ends_fromHere ?_
    refine (lays_caseBody shape c (fun p => (bound p).1) (fun p => (placed p).1) d hd).bind
      fun _ d₁ first => ?_
    have rest :=
      returns_caseBodies shape cs (d.code.size :: done) (fun p => (bound p).2)
        (fun p => (placed p).2)
      d₁ (first.shape_eq.trans hd)
    rw [first.size_eq, first.lastOp?_eq] at rest
    exact rest.mono fun r d₂ last => ⟨last.1.trans (by simp [caseStarts]), first.trans last.2⟩

theorem lays_caseBody (shape : List Bool) (c : Case) (bound : P → c.isBound = true)
    (placed : P → c.isPlaced (shape.contains false) (!shape.isEmpty) = true) :
    Lays shape P (Layout.caseBody (shape.takeWhile id).length c) (Gen.caseBody c) := by
  obtain ⟨line, labels, body⟩ := c
  simp only [Case.isBound, Bool.and_eq_true] at bound
  exact lays_stmts shape body (fun p => (bound p).2) placed

end

end Gen

end GraalScript
