import GraalScript.Proofs.ControlFlow

/-! Code that stands somewhere in the finished code. A layout says which slots a piece of code has;
here they are found again in the instructions, with the targets that the constructs around the piece
give to its open jumps. -/
namespace GraalScript

namespace Slot

def poolOf (pool : Pool) (code : List Slot) : Pool := code.foldl (fun p s => (s.instr p).2) pool

theorem snd_instr_settle (w : Wait) (target : Nat) (s : Slot) (pool : Pool) :
    ((s.settle w target).instr pool).2 = (s.instr pool).2 := by
  cases s with
  | waits op v => by_cases h : v = w <;> simp [settle, instr, h]
  | _ => rfl

theorem settle_settle (w : Wait) (target other : Nat) (s : Slot) :
    (s.settle w target).settle w other = s.settle w target :=
  settle_of_not_waitsFor (by simp) other

theorem settle_comm {v w : Wait} (h : v ≠ w) (target other : Nat) (s : Slot) :
    (s.settle v target).settle w other = (s.settle w other).settle v target := by
  cases s with
  | waits op u => by_cases hv : u = v <;> by_cases hw : u = w <;> simp_all [settle]
  | _ => rfl

end Slot

/-- What stands around a statement: where a break goes, where a continue goes, and the number of
switches between the statement and its loop. -/
structure Around where
  leave? : Option Nat
  next? : Option Nat
  switches : Nat

namespace Around

def top : Around := ⟨none, none, 0⟩

def loop (stop next : Nat) : Around := ⟨some stop, some next, 0⟩

def switch (around : Around) (stop : Nat) : Around :=
  { around with leave? := some stop, switches := around.switches + 1 }

def settle (around : Around) (s : Slot) : Slot :=
  (s.settle .breakOut (around.leave?.getD 0)).settle .continueLoop (around.next?.getD 0)

theorem settle_loop (around : Around) (stop next : Nat) (s : Slot) :
    around.settle ((s.settle .breakOut stop).settle .continueLoop next) =
      (loop stop next).settle s := by
  unfold settle loop
  rw [Slot.settle_comm (v := .continueLoop) (by decide), Slot.settle_settle, Slot.settle_settle]
  rfl

theorem map_settle_loop (around : Around) (stop next : Nat) (code : List Slot) :
    ((code.map (Slot.settle .breakOut stop)).map (Slot.settle .continueLoop next)).map
      around.settle =
      code.map (loop stop next).settle := by
  rw [List.map_map, List.map_map]
  exact List.map_congr_left fun s _ => around.settle_loop stop next s

theorem settle_switch (around : Around) (stop : Nat) (s : Slot) :
    around.settle (s.settle .breakOut stop) = (around.switch stop).settle s := by
  unfold settle switch
  rw [Slot.settle_settle]
  rfl

theorem map_settle_switch (around : Around) (stop : Nat) (code : List Slot) :
    (code.map (Slot.settle .breakOut stop)).map around.settle =
      code.map (around.switch stop).settle := by
  rw [List.map_map]
  exact List.map_congr_left fun s _ => around.settle_switch stop s

theorem snd_instr_settle (around : Around) (s : Slot) (pool : Pool) :
    ((around.settle s).instr pool).2 = (s.instr pool).2 := by
  rw [settle, Slot.snd_instr_settle, Slot.snd_instr_settle]

theorem poolOf_map_settle (around : Around) (pool : Pool) (code : List Slot) :
    Slot.poolOf pool (code.map around.settle) = Slot.poolOf pool code := by
  unfold Slot.poolOf
  rw [List.foldl_map]
  simp only [snd_instr_settle]

theorem map_settle_of_allFit (around : Around) {lo hi : Nat} {code : List Slot}
    (h : Slot.allFit false false lo hi code) : code.map around.settle = code := by
  rw [List.map_congr_left (g := id), List.map_id]
  intro s inside
  have fits := h s inside
  cases s with
  | waits op w => cases w <;> cases fits
  | _ => rfl

/-- The frames of code generation are those of the constructs around a statement. -/
structure Matches (around : Around) (shape : List Bool) : Prop where
  leave : shape ≠ [] → around.leave?.isSome = true
  next : false ∈ shape → around.next?.isSome = true
  switches : (shape.takeWhile id).length = around.switches

theorem matches_top : top.Matches [] := ⟨nofun, nofun, rfl⟩

theorem matches_loop (stop next : Nat) (shape : List Bool) :
    (loop stop next).Matches (false :: shape) :=
  ⟨fun _ => rfl, fun _ => rfl, rfl⟩

theorem Matches.switch {around : Around} {shape : List Bool} (h : around.Matches shape)
    (stop : Nat) : (around.switch stop).Matches (true :: shape) := by
  refine ⟨fun _ => rfl, fun inside => h.next ?_, congrArg (· + 1) h.switches⟩
  simpa using inside

end Around

namespace Assembly

variable {a : Assembly} {around : Around} {n : Nat} {pool : Pool} {x y code : List Slot}

/-- The slots stand in the code from `n` on, with their texts numbered behind those of the pool. -/
def Holds (a : Assembly) (n : Nat) (pool : Pool) : List Slot → Prop
  | [] => True
  | s :: code =>
    s.inRange = true ∧ a.instrs[n]? = some (s.instr pool).1 ∧ a.Holds (n + 1) (s.instr pool).2 code

theorem holds_append : a.Holds n pool (x ++ y) ↔
    a.Holds n pool x ∧ a.Holds (n + x.length) (Slot.poolOf pool x) y := by
  induction x generalizing n pool with
  | nil => exact ⟨fun h => ⟨trivial, h⟩, fun h => h.2⟩
  | cons s x ih =>
    rw [List.cons_append, Holds, Holds, ih, List.length_cons, Nat.add_right_comm, ← Nat.add_assoc,
      and_assoc, and_assoc]
    rfl

theorem pool_placeAll (a : Assembly) (code : List Slot) :
    (a.placeAll code).pool = Slot.poolOf a.pool code := by
  induction code generalizing a with
  | nil => rfl
  | cons s code ih => exact ih (a.place s)

theorem holds_placeAll (a : Assembly) (range : code.all Slot.inRange = true) :
    (a.placeAll code).Holds a.size a.pool code := by
  induction code generalizing a with
  | nil => trivial
  | cons s code ih =>
    rw [List.all_cons, Bool.and_eq_true] at range
    refine ⟨range.1, ?_, size_place a s ▸ ih (a.place s) range.2⟩
    rw [placeAll_cons, getElem?_placeAll_of_lt (by simp)]
    simp [place, size]

theorem Holds.getElem?_eq {base : Assembly} (h : a.Holds base.size base.pool code) {i : Nat}
    (first : base.size ≤ i) (last : i < base.size + code.length) :
    a.instrs[i]? = (base.placeAll code).instrs[i]? := by
  induction code generalizing base with
  | nil =>
    rw [List.length_nil] at last
    omega
  | cons s code ih =>
    obtain ⟨-, here, rest⟩ := h
    rw [placeAll_cons]
    rcases Nat.eq_or_lt_of_le first with rfl | later
    · rw [here, getElem?_placeAll_of_lt (by simp)]
      simp [place, size]
    · have inside : (base.place s).size ≤ i := by rw [size_place]; omega
      refine ih (by rw [size_place]; exact rest) inside ?_
      rw [size_place]
      rw [List.length_cons] at last
      omega

/-- The instruction `i` has the given opcode and no operand. -/
def OpAt (a : Assembly) (i : Nat) (op : Opcode) : Prop := a.instrs[i]? = some ⟨op, none⟩

/-- The instruction `i` is the given jump to `target`. -/
def JumpAt (a : Assembly) (i : Nat) (op : Opcode) (target : Nat) : Prop :=
  ∃ w, a.instrs[i]? = some ⟨op, some (.int w)⟩ ∧ w.toNat = target

/-- The instructions from `lo` on and before `hi` are those that `g` writes behind `lo` others. -/
def Emits (a : Assembly) (g : Gen Unit) (lo hi : Nat) : Prop :=
  ∃ d d', g.run d = .ok ((), d') ∧ d.code.size = lo ∧ d'.code.size = hi ∧
    ∀ i, lo ≤ i → i < hi → a.instrs[i]? = d'.code.instrs[i]?

/-- The slots of a layout stand in the code behind those of a draft, their open jumps settled. -/
def Keeps (a : Assembly) (around : Around) (d : Draft) (l : Layout) : Prop :=
  a.Holds d.code.size d.code.pool ((l d.code.size d.code.lastOp?).map around.settle)

end Assembly

theorem Draft.Follows.pool_eq {d d' : Draft} {x : List Slot} (h : d.Follows x d') :
    d'.code.pool = Slot.poolOf d.code.pool x := by
  rw [h.code_eq, Assembly.pool_placeAll]

theorem Draft.Follows.append_apply {d d' : Draft} {l : Layout}
    (h : d.Follows (l d.code.size d.code.lastOp?) d') (m : Layout) :
    (l ++ m) d.code.size d.code.lastOp? =
      l d.code.size d.code.lastOp? ++ m d'.code.size d'.code.lastOp? := by
  rw [Layout.append_apply, ← h.size_eq, ← h.lastOp?_eq]

namespace Gen

theorem run_bind {α β : Type} {g : Gen α} {f : α → Gen β} {d d' : Draft} {b : β}
    (h : (g >>= f).run d = .ok (b, d')) :
    ∃ r d₁, g.run d = .ok (r, d₁) ∧ (f r).run d₁ = .ok (b, d') := by
  rw [StateT.run_bind] at h
  cases first : g.run d with
  | error e =>
    rw [first] at h
    cases h
  | ok r =>
    rw [first] at h
    exact ⟨r.1, r.2, rfl, h⟩

theorem run_patch {label target : Nat} {d d' : Draft}
    (h : (patch label target).run d = .ok ((), d')) :
    d'.code.size = d.code.size ∧ d'.code.lastOp? = d.code.lastOp? ∧ d'.code.pool = d.code.pool ∧
      d'.frames = d.frames := by
  cases patched : d.code.patch label target with
  | error e =>
    simp only [patch, StateT.run, patched] at h
    cases h
  | ok code =>
    simp only [patch, StateT.run, patched] at h
    cases h
    unfold Assembly.patch at patched
    split at patched
    · cases patched
    · split at patched
      · cases patched
        refine ⟨by simp [Assembly.size], ?_, rfl, rfl⟩
        simp only [Assembly.lastOp?, Array.back?_eq_getElem?, Array.size_modify,
          Array.getElem?_modify]
        split <;> simp [Function.comp_def]
      · cases patched

theorem run_patchHere {label : Nat} {d d' : Draft} (h : (patchHere label).run d = .ok ((), d')) :
    d'.code.size = d.code.size ∧ d'.code.lastOp? = d.code.lastOp? ∧ d'.code.pool = d.code.pool ∧
      d'.frames = d.frames :=
  run_patch h

theorem Ends.of_run {α : Type} {P : Prop} {g : Gen α} {d d' : Draft} {Q : α → Draft → Prop} {r : α}
    (h : Ends P g d Q) (run : g.run d = .ok (r, d')) : Q r d' := by
  unfold Ends at h
  rw [run] at h
  exact h

theorem run_jump {o : Opcode} {label : Nat} {d d' : Draft} (h : (jump o).run d = .ok (label, d')) :
    d'.code.size = d.code.size + 1 ∧ d'.code.lastOp? = some o ∧ d'.code.pool = d.code.pool ∧
      d'.frames.map Frame.isSwitch = d.frames.map Frame.isSwitch := by
  have made := ((ends_jump (P := False) o).of_run h).2
  exact ⟨made.size_eq, made.lastOp?_eq, made.pool_eq, made.shape_eq⟩

end Gen

namespace Assembly

open Gen Layout

variable {a : Assembly} {around : Around} {n : Nat} {pool : Pool} {code : List Slot}
  {shape : List Bool} {l m : Layout} {g h : Gen Unit} {d d₁ d' : Draft}

theorem Holds.jumpAt {o : Opcode} {target : Nat} (h : a.Holds n pool (.jump o target :: code)) :
    a.JumpAt n o target :=
  ⟨_, h.2.1, Word.toNat_target (of_decide_eq_true h.1)⟩

theorem Holds.piece
    (holds : a.Holds d.code.size d.code.pool
      ((l d.code.size d.code.lastOp? ++ code).map around.settle))
    (follows : d.Follows (l d.code.size d.code.lastOp?) d₁) :
    a.Keeps around d l ∧ a.Holds d₁.code.size d₁.code.pool (code.map around.settle) := by
  rw [List.map_append, holds_append, around.poolOf_map_settle, List.length_map] at holds
  rw [follows.size_eq, follows.pool_eq]
  exact holds

theorem Holds.jump {o : Opcode} {target : Nat}
    (holds : a.Holds d.code.size d.code.pool ((.jump o target :: code).map around.settle))
    (size : d₁.code.size = d.code.size + 1) (pool : d₁.code.pool = d.code.pool) :
    a.JumpAt d.code.size o target ∧ a.Holds d₁.code.size d₁.code.pool (code.map around.settle) := by
  rw [size, pool]
  exact ⟨holds.jumpAt, holds.2.2⟩

theorem Holds.op {o : Opcode}
    (holds : a.Holds d.code.size d.code.pool ((.plain o :: code).map around.settle))
    (size : d₁.code.size = d.code.size + 1) (pool : d₁.code.pool = d.code.pool) :
    a.OpAt d.code.size o ∧ a.Holds d₁.code.size d₁.code.pool (code.map around.settle) := by
  rw [size, pool]
  exact holds.2

theorem Keeps.split (keeps : a.Keeps around d (l ++ m))
    (follows : d.Follows (l d.code.size d.code.lastOp?) d₁) :
    a.Keeps around d l ∧ a.Keeps around d₁ m := by
  unfold Keeps at keeps
  rw [follows.append_apply] at keeps
  exact keeps.piece follows

/-- Where `g` writes the slots of a layout, what stands there in the end is as `At` says of its
start and its end. -/
structure Stands (a : Assembly) (around : Around) (shape : List Bool) (l : Layout) (g : Gen Unit)
    (At : Nat → Nat → Prop) : Prop where
  lays : Lays shape False l g
  here : ∀ {d d'}, d.frames.map Frame.isSwitch = shape → g.run d = .ok ((), d') →
    a.Keeps around d l →
    At d.code.size d'.code.size

variable {At Bt Ct : Nat → Nat → Prop}

theorem Stands.mono (first : a.Stands around shape l g At) (imp : ∀ lo hi, At lo hi → Bt lo hi) :
    a.Stands around shape l g Bt :=
  ⟨first.lays, fun hd run keeps => imp _ _ (first.here hd run keeps)⟩

theorem stands_emits (lays : Lays shape False l g) (fits : l.Fits false false 0 0) :
    a.Stands around shape l g (a.Emits g) := by
  refine ⟨lays, fun {d d'} hd run keeps => ⟨d, d', run, rfl, rfl, fun i first last => ?_⟩⟩
  have follows := (lays d hd).of_run run
  unfold Keeps at keeps
  rw [around.map_settle_of_allFit (fits _ _ (Nat.zero_le _))] at keeps
  rw [follows.size_eq] at last
  rw [follows.code_eq]
  exact keeps.getElem?_eq first last

theorem stands_emit (o : Opcode) :
    a.Stands around shape (op o) (Gen.emit o) fun lo hi => a.OpAt lo o ∧ hi = lo + 1 := by
  have lays : Lays shape False (op o) (Gen.emit o) := lays_emit o
  exact ⟨lays, fun {d d'} hd run keeps => ⟨keeps.2.1, ((lays d hd).of_run run).size_eq⟩⟩

theorem stands_jumpTo (o : Opcode) (target : Nat) :
    a.Stands around shape (one (.jump o target)) (jumpTo o target)
      fun lo hi => a.JumpAt lo o target ∧ hi = lo + 1 := by
  have lays : Lays shape False (one (.jump o target)) (jumpTo o target) := lays_jumpTo o target
  exact ⟨lays, fun {d d'} hd run keeps => ⟨Holds.jumpAt keeps, ((lays d hd).of_run run).size_eq⟩⟩

theorem Stands.seq (first : a.Stands around shape l g At) (second : a.Stands around shape m h Bt) :
    a.Stands around shape (l ++ m) (do g; h) fun lo hi => ∃ mid, At lo mid ∧ Bt mid hi := by
  refine ⟨first.lays.seq second.lays, fun {d d'} hd run keeps => ?_⟩
  obtain ⟨⟨⟩, d₁, ran, rest⟩ := run_bind run
  have follows := (first.lays d hd).of_run ran
  obtain ⟨before, behind⟩ := keeps.split follows
  exact ⟨_, first.here hd ran before, second.here (follows.shape_eq.trans hd) rest behind⟩

/-- A jump that waits inside its construct stands before the code that it jumps over. -/
theorem Stands.jumpOver (o : Opcode) (inside : a.Stands around shape l g At) :
    a.Stands around shape (jumpOver o l) (do let label ← jump o; g; patchHere label)
      fun lo hi => a.JumpAt lo o hi ∧ At (lo + 1) hi := by
  refine ⟨lays_jumpOver o inside.lays, fun {d d'} hd run keeps => ?_⟩
  have whole := (lays_jumpOver o inside.lays d hd).of_run run
  obtain ⟨label, d₁, jumped, run⟩ := run_bind run
  obtain ⟨⟨⟩, d₂, ran, -⟩ := run_bind run
  obtain ⟨size, last, pool, shapes⟩ := run_jump jumped
  have shape₁ := shapes.trans hd
  have follows := (inside.lays d₁ shape₁).of_run ran
  have code : Layout.jumpOver o l d.code.size d.code.lastOp? =
      .jump o d₂.code.size :: l d₁.code.size d₁.code.lastOp? := by
    rw [follows.size_eq, last, size]
    rfl
  have stop : d₂.code.size = d'.code.size := by
    rw [whole.size_eq, code, List.length_cons, follows.size_eq, size]
    omega
  unfold Keeps at keeps
  rw [code, stop] at keeps
  obtain ⟨jumps, behind⟩ := keeps.jump size pool
  exact ⟨jumps, stop ▸ size ▸ inside.here shape₁ ran behind⟩

theorem Stands.choose {k : Layout} {f : Gen Unit} (cond : a.Stands around shape l f At)
    (yes : a.Stands around shape m g Bt) (no : a.Stands around shape k h Ct) :
    a.Stands around shape (Layout.choose l m k) (Gen.choose f g h) fun lo hi =>
      ∃ test done, At lo test ∧
      a.JumpAt test .ifThen (done + 1) ∧ Bt (test + 1) done ∧ a.JumpAt done .setIndex hi ∧
        Ct (done + 1) hi := by
  refine ⟨lays_choose cond.lays yes.lays no.lays, fun {d d'} hd run keeps => ?_⟩
  have whole := (lays_choose cond.lays yes.lays no.lays d hd).of_run run
  obtain ⟨⟨⟩, d₁, ran₁, run⟩ := run_bind run
  obtain ⟨otherwise, d₂, jumped₁, run⟩ := run_bind run
  obtain ⟨⟨⟩, d₃, ran₂, run⟩ := run_bind run
  obtain ⟨done, d₃', jumped₂, run⟩ := run_bind run
  obtain ⟨⟨⟩, d₄, patched, run⟩ := run_bind run
  obtain ⟨⟨⟩, d₅, ran₃, -⟩ := run_bind run
  have follows₁ := (cond.lays d hd).of_run ran₁
  obtain ⟨size₂, last₂, pool₂, shapes₂⟩ := run_jump jumped₁
  have shape₂ := shapes₂.trans (follows₁.shape_eq.trans hd)
  have follows₂ := (yes.lays d₂ shape₂).of_run ran₂
  obtain ⟨size₃', last₃', pool₃', shapes₃⟩ := run_jump jumped₂
  obtain ⟨size₄, last₄, pool₄, frames₄⟩ := run_patchHere patched
  have shape₄ : d₄.frames.map Frame.isSwitch = shape := by
    rw [frames₄, shapes₃, follows₂.shape_eq, shape₂]
  have follows₃ := (no.lays d₄ shape₄).of_run ran₃
  -- Where the third piece starts, and behind what.
  have size₃ : d₄.code.size = d₃.code.size + 1 := size₄.trans size₃'
  have last₃ : d₄.code.lastOp? = some .setIndex := last₄.trans last₃'
  have pool₃ : d₄.code.pool = d₃.code.pool := pool₄.trans pool₃'
  have code : Layout.choose l m k d.code.size d.code.lastOp? =
      l d.code.size d.code.lastOp? ++ .jump .ifThen (d₃.code.size + 1) ::
        (m d₂.code.size d₂.code.lastOp? ++ .jump .setIndex d₅.code.size ::
          k d₄.code.size d₄.code.lastOp?) := by
    rw [follows₃.size_eq, last₃, size₃, follows₂.size_eq, last₂, size₂, follows₁.size_eq]
    rfl
  have stop : d₅.code.size = d'.code.size := by
    rw [whole.size_eq, code, follows₃.size_eq, size₃, follows₂.size_eq, size₂, follows₁.size_eq]
    simp only [List.length_append, List.length_cons]
    omega
  unfold Keeps at keeps
  rw [code, stop] at keeps
  obtain ⟨first, rest⟩ := keeps.piece follows₁
  obtain ⟨jumps₁, rest⟩ := rest.jump size₂ pool₂
  obtain ⟨second, rest⟩ := rest.piece follows₂
  obtain ⟨jumps₂, third⟩ := rest.jump size₃ pool₃
  exact ⟨_, _, cond.here hd ran₁ first, jumps₁, size₂ ▸ yes.here shape₂ ran₂ second, jumps₂,
    stop ▸ size₃ ▸ no.here shape₄ ran₃ third⟩

/-- A loop gives the open jumps of its own code their targets. -/
theorem Stands.loop {k : Layout} {f : Gen Unit} {Bt : Nat → Nat → Nat → Nat → Prop} (exit : Opcode)
    (head : a.Stands around shape l f At)
    (body : ∀ stop next, a.Stands (.loop stop next) (false :: shape) m g (Bt stop next))
    (tail : ∀ stop next, a.Stands (.loop stop next) (false :: shape) k h Ct) (toHead : Bool) :
    a.Stands around shape (Layout.loop l exit m k toHead) (do
      let start ← Gen.here
      f
      let out ← jump exit
      Gen.emit .cmdCall
      enter .loop
      g
      let next ← Gen.here
      h
      jumpTo .setIndex start
      endLoop out (if toHead then start else next)) fun lo hi => ∃ test next back, At lo test ∧
        a.JumpAt test exit hi ∧ a.OpAt (test + 1) .cmdCall ∧
        Bt hi (if toHead then lo else next) (test + 2) next ∧ Ct next back ∧
        a.JumpAt back .setIndex lo ∧ hi = back + 1 := by
  have lays := lays_loop exit head.lays (body 0 0).lays (tail 0 0).lays toHead
  refine ⟨lays, fun {d d'} hd run keeps => ?_⟩
  have whole := (lays d hd).of_run run
  obtain ⟨_, _, ⟨⟩, run⟩ := run_bind run
  obtain ⟨⟨⟩, d₁, ran₁, run⟩ := run_bind run
  obtain ⟨out, d₂, jumped, run⟩ := run_bind run
  obtain ⟨⟨⟩, d₃, emitted, run⟩ := run_bind run
  obtain ⟨⟨⟩, d₄, entered, run⟩ := run_bind run
  obtain ⟨⟨⟩, d₅, ran₂, run⟩ := run_bind run
  obtain ⟨_, _, ⟨⟩, run⟩ := run_bind run
  obtain ⟨⟨⟩, d₆, ran₃, run⟩ := run_bind run
  obtain ⟨⟨⟩, d₇, back, -⟩ := run_bind run
  have follows₁ := (head.lays d hd).of_run ran₁
  obtain ⟨size₂, -, pool₂, shapes₂⟩ := run_jump jumped
  have shape₂ := shapes₂.trans (follows₁.shape_eq.trans hd)
  have opened := (lays_emit (P := False) .cmdCall d₂ shape₂).of_run emitted
  obtain ⟨code₄, frames₄⟩ := (ends_enter (P := False) .loop).of_run entered
  have shape₄ : d₄.frames.map Frame.isSwitch = false :: shape := by
    rw [frames₄, List.map_cons, opened.shape_eq, shape₂]
    rfl
  have follows₂ := ((body 0 0).lays d₄ shape₄).of_run ran₂
  have shape₅ := follows₂.shape_eq.trans shape₄
  have follows₃ := ((tail 0 0).lays d₅ shape₅).of_run ran₃
  have returned :=
    (lays_jumpTo (P := False) .setIndex d.code.size d₆ (follows₃.shape_eq.trans shape₅)).of_run back
  -- Where the body starts, and behind what.
  have size₄ : d₄.code.size = d₂.code.size + 1 := code₄ ▸ opened.size_eq
  have last₄ : d₄.code.lastOp? = some .cmdCall := code₄ ▸ opened.lastOp?_eq
  have pool₄ : d₄.code.pool = d₂.code.pool := code₄ ▸ opened.pool_eq
  have size₇ : d₇.code.size = d₆.code.size + 1 := returned.size_eq
  have size₁ := follows₁.size_eq
  have size₅ := follows₂.size_eq
  have size₆ := follows₃.size_eq
  let next := if toHead then d.code.size else d₅.code.size
  let inside :=
    m d₄.code.size d₄.code.lastOp? ++
    (k d₅.code.size d₅.code.lastOp? ++ [Slot.jump .setIndex d.code.size])
  have code : Layout.loop l exit m k toHead d.code.size d.code.lastOp? =
      l d.code.size d.code.lastOp? ++ Slot.jump exit d₇.code.size :: Slot.plain .cmdCall ::
        (inside.map (Slot.settle .breakOut d₇.code.size)).map (Slot.settle .continueLoop next) := by
    have first : d.code.size + (l d.code.size d.code.lastOp?).length + 2 = d₄.code.size := by omega
    have laid : (m ++ k ++ one (.jump .setIndex d.code.size)) d₄.code.size d₄.code.lastOp? =
        inside := by
      rw [append_assoc, follows₂.append_apply, follows₃.append_apply]
      rfl
    have stop : d₄.code.size + inside.length = d₇.code.size := by
      simp only [inside, List.length_append, List.length_cons, List.length_nil]
      omega
    unfold Layout.loop
    simp only [first]
    rw [← last₄, laid, stop, ← size₅]
  have stop : d'.code.size = d₇.code.size := by
    rw [whole.size_eq, code]
    simp only [inside, List.length_append, List.length_cons, List.length_map, List.length_nil]
    omega
  unfold Keeps at keeps
  rw [code] at keeps
  obtain ⟨first, rest⟩ := keeps.piece follows₁
  obtain ⟨jumps, rest⟩ := rest.jump size₂ pool₂
  obtain ⟨calls, rest⟩ := rest.op size₄ pool₄
  rw [around.map_settle_loop] at rest
  obtain ⟨second, rest⟩ := rest.piece follows₂
  obtain ⟨third, rest⟩ := rest.piece follows₃
  obtain ⟨jumpsBack, -⟩ := rest.jump size₇ returned.pool_eq
  rw [stop]
  refine ⟨_, _, _, head.here hd ran₁ first, jumps, size₂ ▸ calls, ?_,
    (tail _ _).here shape₅ ran₃ third, jumpsBack, size₇⟩
  have start : d₁.code.size + 2 = d₄.code.size := by rw [size₄, size₂]
  rw [start]
  exact (body _ _).here shape₄ ran₂ second

theorem Stands.switch {bodies : Gen (List Nat)} {starts : Nat → Option Opcode → List Nat}
    {tests : List Nat → Layout} {labels : List (List (Option Expr))}
    {At : Nat → List Nat → Nat → Nat → Prop} {Ct : List Nat → Nat → Nat → Prop}
    (bodied : Returns (true :: shape) False l starts bodies)
    (there : ∀ stop {d d' found}, d.frames.map Frame.isSwitch = true :: shape →
      bodies.run d = .ok (found, d') → a.Keeps (around.switch stop) d l →
        At stop found d.code.size d'.code.size)
    (value : ∀ stop, a.Stands (around.switch stop) (true :: shape) m g Bt)
    (tested : ∀ stop found,
      a.Stands (around.switch stop) (true :: shape) (tests found) (switchTests (found.zip labels))
      (Ct found)) :
    a.Stands around shape (Layout.switch l starts m tests) (Gen.switch bodies g labels) fun lo hi =>
      ∃ found done test stop, a.JumpAt lo .setIndex (done + 1) ∧ At stop found (lo + 1) done ∧
        a.JumpAt done .setIndex stop ∧ Bt (done + 1) test ∧ Ct found test stop ∧
          a.OpAt stop .indexDec ∧
        hi = stop + 1 := by
  have lays := lays_switch bodied (value 0).lays fun found => (tested 0 found).lays
  refine ⟨lays, fun {d d'} hd run keeps => ?_⟩
  have whole := (lays d hd).of_run run
  obtain ⟨label, d₁, jumped₁, run⟩ := run_bind run
  obtain ⟨⟨⟩, d₂, entered, run⟩ := run_bind run
  obtain ⟨found, d₃, ran₁, run⟩ := run_bind run
  obtain ⟨done, d₄, jumped₂, run⟩ := run_bind run
  obtain ⟨⟨⟩, d₅, patched, run⟩ := run_bind run
  obtain ⟨⟨⟩, d₆, ran₂, run⟩ := run_bind run
  obtain ⟨⟨⟩, d₇, ran₃, -⟩ := run_bind run
  obtain ⟨size₁, last₁, pool₁, shapes₁⟩ := run_jump jumped₁
  obtain ⟨code₂, frames₂⟩ := (ends_enter (P := False) .switch).of_run entered
  have shape₂ : d₂.frames.map Frame.isSwitch = true :: shape := by
    rw [frames₂, List.map_cons, shapes₁, hd]
    rfl
  obtain ⟨starts_eq, follows₁⟩ := (bodied d₂ shape₂).of_run ran₁
  obtain ⟨size₄, last₄, pool₄, shapes₄⟩ := run_jump jumped₂
  obtain ⟨patch_size, patch_last, patch_pool, patch_frames⟩ := run_patchHere patched
  have shape₅ : d₅.frames.map Frame.isSwitch = true :: shape := by
    rw [patch_frames, shapes₄, follows₁.shape_eq, shape₂]
  have follows₂ := ((value 0).lays d₅ shape₅).of_run ran₂
  have shape₆ := follows₂.shape_eq.trans shape₅
  have follows₃ := ((tested 0 found).lays d₆ shape₆).of_run ran₃
  -- Where the bodies and the value start, and behind what.
  have size₂ : d₂.code.size = d.code.size + 1 := code₂ ▸ size₁
  have last₂ : d₂.code.lastOp? = some .setIndex := code₂ ▸ last₁
  have pool₂ : d₂.code.pool = d.code.pool := code₂ ▸ pool₁
  have size₅ : d₅.code.size = d₃.code.size + 1 := patch_size.trans size₄
  have last₅ : d₅.code.lastOp? = some .setIndex := patch_last.trans last₄
  have pool₅ : d₅.code.pool = d₃.code.pool := patch_pool.trans pool₄
  have size₃ := follows₁.size_eq
  have size₆ := follows₂.size_eq
  have size₇ := follows₃.size_eq
  let inside := l d₂.code.size d₂.code.lastOp? ++ Slot.jump .setIndex d₇.code.size ::
    (m d₅.code.size d₅.code.lastOp? ++ tests found d₆.code.size d₆.code.lastOp?)
  have code : Layout.switch l starts m tests d.code.size d.code.lastOp? =
      Slot.jump .setIndex (d₃.code.size + 1) ::
        (inside.map (Slot.settle .breakOut d₇.code.size) ++ [Slot.plain .indexDec]) := by
    have first : d₂.code.size + (l d₂.code.size d₂.code.lastOp?).length + 1 = d₅.code.size := by
      omega
    have laid : (m ++ tests (starts d₂.code.size d₂.code.lastOp?)) d₅.code.size d₂.code.lastOp? =
        m d₅.code.size d₅.code.lastOp? ++ tests found d₆.code.size d₆.code.lastOp? := by
      rw [← starts_eq, last₂.trans last₅.symm, follows₂.append_apply]
    have stop : d₅.code.size +
        (m d₅.code.size d₅.code.lastOp? ++ tests found d₆.code.size d₆.code.lastOp?).length =
          d₇.code.size := by
      rw [List.length_append]
      omega
    unfold Layout.switch
    simp only [← size₂, ← last₂]
    rw [first, laid, stop, ← size₅]
  have stop : d'.code.size = d₇.code.size + 1 := by
    rw [whole.size_eq, code]
    simp only [inside, List.length_append, List.length_cons, List.length_map, List.length_nil]
    omega
  unfold Keeps at keeps
  rw [code] at keeps
  obtain ⟨jumps₁, rest⟩ := keeps.jump size₂ pool₂
  rw [List.map_append, around.map_settle_switch, holds_append, List.length_map] at rest
  obtain ⟨rest, drops⟩ := rest
  have last : d₂.code.size + inside.length = d₇.code.size := by
    simp only [inside, List.length_append, List.length_cons]
    omega
  obtain ⟨first, rest⟩ := rest.piece follows₁
  obtain ⟨jumps₂, rest⟩ := rest.jump size₅ pool₅
  obtain ⟨second, third⟩ := rest.piece follows₂
  refine ⟨found, d₃.code.size, d₆.code.size, d₇.code.size, jumps₁, ?_, jumps₂, ?_, ?_,
    last ▸ drops.2.1, stop⟩
  · rw [← size₂]
    exact there _ shape₂ ran₁ first
  · rw [← size₅]
    exact (value _).here shape₅ ran₂ second
  · exact (tested _ found).here shape₆ ran₃ third

end Assembly

end GraalScript
