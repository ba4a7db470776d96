import GraalScript.Proofs.Generate.Slot
import Mathlib.Data.List.Forall2

/-! What generating a piece of code does, said once: it places slots behind the code that is there,
notes the jumps that wait for the end of a loop or switch in the frames around it, or fails for want
of room. A layout gives the slots from the number of the first one and the operation before it. -/
namespace GraalScript

/-- Failures of programs that are too large, which no program can rule out by its form. -/
def CodeError.isCapacity : CodeError → Bool
  | jumpOutOfRange target => 0x10000 ≤ target
  | imageTooLarge => true
  | _ => false

namespace Frame

open Slot

def noteBreaks (labels : List Label) : List Frame → List Frame
  | [] => []
  | f :: fs => { f with breaks := labels ++ f.breaks } :: fs

def noteContinues (labels : List Label) : List Frame → List Frame
  | [] => []
  | f :: fs =>
    if f.isSwitch then f :: noteContinues labels fs
    else { f with continues := labels ++ f.continues } :: fs

/-- The frames with the jumps of a piece of code at `n` that wait for them. -/
def note (n : Nat) (code : List Slot) (frames : List Frame) : List Frame :=
  noteBreaks (labels .breakOut n code) (noteContinues (labels .continueLoop n code) frames)

@[simp] theorem noteBreaks_nil (frames : List Frame) : noteBreaks [] frames = frames := by
  cases frames <;> rfl

@[simp] theorem noteContinues_nil (frames : List Frame) : noteContinues [] frames = frames := by
  induction frames with
  | nil => rfl
  | cons f fs ih =>
    obtain ⟨isSwitch, breaks, continues⟩ := f
    cases isSwitch <;> simp [noteContinues, ih]

theorem noteBreaks_noteBreaks (a b : List Label) (frames : List Frame) :
    noteBreaks a (noteBreaks b frames) = noteBreaks (a ++ b) frames := by
  cases frames <;> simp [noteBreaks]

theorem noteContinues_noteContinues (a b : List Label) (frames : List Frame) :
    noteContinues a (noteContinues b frames) = noteContinues (a ++ b) frames := by
  induction frames with
  | nil => rfl
  | cons f fs ih => by_cases h : f.isSwitch <;> simp [noteContinues, h, ih]

theorem noteContinues_noteBreaks (a b : List Label) (frames : List Frame) :
    noteContinues a (noteBreaks b frames) = noteBreaks b (noteContinues a frames) := by
  cases frames with
  | nil => rfl
  | cons f fs => by_cases h : f.isSwitch <;> simp [noteBreaks, noteContinues, h]

theorem note_append (n : Nat) (x y : List Slot) (frames : List Frame) :
    note n (x ++ y) frames = note (n + x.length) y (note n x frames) := by
  simp only [note, labels_append, noteContinues_noteBreaks, noteBreaks_noteBreaks,
    noteContinues_noteContinues]

theorem note_eq_self {n : Nat} {code : List Slot} {frames : List Frame}
    (breaks : labels .breakOut n code = []) (continues : labels .continueLoop n code = []) :
    note n code frames = frames := by
  simp [note, breaks, continues]

theorem note_append_eq {n : Nat} {x y : List Slot} {frames : List Frame}
    (breaks : ∀ m, labels .breakOut m y = []) (continues : ∀ m, labels .continueLoop m y = []) :
    note n (x ++ y) frames = note n x frames := by
  rw [note_append, note_eq_self (breaks _) (continues _)]

@[simp] theorem isSwitch_noteBreaks (a : List Label) (frames : List Frame) :
    (noteBreaks a frames).map isSwitch = frames.map isSwitch := by
  cases frames <;> rfl

@[simp] theorem isSwitch_noteContinues (a : List Label) (frames : List Frame) :
    (noteContinues a frames).map isSwitch = frames.map isSwitch := by
  induction frames with
  | nil => rfl
  | cons f fs ih => by_cases h : f.isSwitch <;> simp [noteContinues, h, ih]

@[simp] theorem isSwitch_note (n : Nat) (code : List Slot) (frames : List Frame) :
    (note n code frames).map isSwitch = frames.map isSwitch := by
  simp [note]

theorem note_loop (n : Nat) (code : List Slot) (frames : List Frame) :
    note n code (loop :: frames) =
      ⟨false, labels .breakOut n code, labels .continueLoop n code⟩ :: frames := by
  simp [note, noteBreaks, noteContinues, loop]

theorem note_switch (n : Nat) (code : List Slot) (frames : List Frame) :
    note n code (switch :: frames) =
      ⟨true, labels .breakOut n code, []⟩ :: noteContinues
        (labels .continueLoop n code) frames := by
  simp [note, noteBreaks, noteContinues, switch]

end Frame

/-- The draft `d'` is `d` with more code, whose open jumps stand in the frames and whose targets are
in range. -/
structure Draft.Follows (d : Draft) (code : List Slot) (d' : Draft) : Prop where
  code_eq : d'.code = d.code.placeAll code
  frames_eq : d'.frames = Frame.note d.code.size code d.frames
  range : code.all Slot.inRange = true

namespace Draft.Follows

variable {d d₁ d₂ : Draft} {x y : List Slot}

theorem refl (d : Draft) : d.Follows [] d := ⟨rfl, by simp [Frame.note, Slot.labels], rfl⟩

theorem trans (first : d.Follows x d₁) (second : d₁.Follows y d₂) : d.Follows (x ++ y) d₂ where
  code_eq := by rw [second.code_eq, first.code_eq, Assembly.placeAll_append]
  frames_eq := by
    rw [second.frames_eq, first.frames_eq, Frame.note_append, first.code_eq, Assembly.size_placeAll]
  range := by rw [List.all_append, first.range, second.range, Bool.and_self]

theorem size_eq (h : d.Follows x d₁) : d₁.code.size = d.code.size + x.length := by
  rw [h.code_eq, Assembly.size_placeAll]

theorem lastOp?_eq (h : d.Follows x d₁) : d₁.code.lastOp? = Slot.lastOf x d.code.lastOp? := by
  rw [h.code_eq, Assembly.lastOp?_placeAll]

theorem shape_eq (h : d.Follows x d₁) :
    d₁.frames.map Frame.isSwitch = d.frames.map Frame.isSwitch := by
  rw [h.frames_eq, Frame.isSwitch_note]

end Draft.Follows

namespace Gen

variable {α β : Type} {P R : Prop} {g : Gen α} {f : α → Gen β} {d : Draft}

/-- Generating either ends as `Q` says or fails; under `P` it fails only for want of room. -/
def Ends (P : Prop) (g : Gen α) (d : Draft) (Q : α → Draft → Prop) : Prop :=
  match g.run d with
  | .ok (a, d') => Q a d'
  | .error e => P → e.isCapacity = true

theorem Ends.bind {Q : α → Draft → Prop} {S : β → Draft → Prop} (first : Ends P g d Q)
    (second : ∀ a d', Q a d' → Ends P (f a) d' S) : Ends P (g >>= f) d S := by
  simp only [Ends, StateT.run_bind] at first ⊢
  cases h : g.run d with
  | error e => rw [h] at first; exact first
  | ok r => rw [h] at first; exact second r.1 r.2 first

theorem Ends.mono {Q S : α → Draft → Prop} (h : Ends P g d Q) (imp : ∀ a d', Q a d' → S a d') :
    Ends P g d S := by
  unfold Ends at h ⊢
  split at h
  next a d' _ => exact imp a d' h
  next => exact h

theorem ends_pure {Q : α → Draft → Prop} {a : α} (h : Q a d) : Ends P (pure a) d Q := h

theorem ends_onCode {place : Assembly → Assembly} {s : Slot} (eq : place d.code = d.code.place s)
    (fixed : s.isFixed = true) : Ends P (onCode place) d fun _ d' => d.Follows [s] d' := by
  refine ⟨eq, (Frame.note_eq_self ?_ ?_).symm, ?_⟩ <;>
    cases s <;> simp_all [Slot.labels, Slot.waitsFor, Slot.isFixed, Slot.inRange]

theorem ends_jump (op : Opcode) :
    Ends P (jump op) d fun label d' => label = d.code.size ∧ d.Follows [.waits op .inside] d' :=
  ⟨rfl, rfl, by simp [Frame.note, Slot.labels, Slot.waitsFor], rfl⟩

theorem ends_patch {a : Assembly} {x y : List Slot} {op : Opcode} {w : Wait} {label : Nat}
    (code_eq : d.code = a.placeAll (x ++ .waits op w :: y)) (label_eq : label = a.size + x.length)
    (target : Nat) :
    Ends P (patch label target) d fun _ d' =>
      d'.code = a.placeAll (x ++ .jump op target :: y) ∧ d'.frames = d.frames ∧
        target < 0x10000 := by
  subst label_eq
  by_cases range : target < 0x10000
  · have patched := Assembly.patch_placeAll a x y op w range
    rw [← code_eq] at patched
    simp only [Ends, patch, StateT.run, patched]
    exact ⟨rfl, rfl, range⟩
  · have failed := d.code.patch_of_le (a.size + x.length) (Nat.le_of_not_lt range)
    simp only [Ends, patch, StateT.run, failed]
    exact fun _ => decide_eq_true (Nat.le_of_not_lt range)

theorem ends_patchHere {a : Assembly} {x y : List Slot} {op : Opcode} {w : Wait} {label : Nat}
    (code_eq : d.code = a.placeAll (x ++ .waits op w :: y)) (label_eq : label = a.size + x.length) :
    Ends P (patchHere label) d fun _ d' =>
      d'.code = a.placeAll (x ++ .jump op (a.size + x.length + 1 + y.length) :: y) ∧
      d'.frames = d.frames ∧ a.size + x.length + 1 + y.length < 0x10000 := by
  have size : d.code.size = a.size + x.length + 1 + y.length := by
    rw [code_eq, Assembly.size_placeAll, List.length_append, List.length_cons]
    omega
  rw [← size]
  exact ends_patch code_eq label_eq d.code.size

/-- Whether a jump waits inside its own construct or has a target makes no difference to the
frames. -/
theorem follows_of_patched {d₀ d' : Draft} {x y : List Slot} {op : Opcode} {target : Nat}
    (h : d₀.Follows (x ++ .waits op .inside :: y) d)
    (patched : d'.code = d₀.code.placeAll (x ++ .jump op target :: y) ∧ d'.frames = d.frames ∧
      target < 0x10000) : d₀.Follows (x ++ .jump op target :: y) d' := by
  refine ⟨patched.1, ?_, ?_⟩
  · rw [patched.2.1, h.frames_eq]
    simp [Frame.note, Slot.labels_append, Slot.labels, Slot.waitsFor]
  · simpa [Slot.inRange, patched.2.2] using h.range

theorem ends_patch_inside {d₀ : Draft} {x y : List Slot} {op : Opcode} {label : Nat}
    (h : d₀.Follows (x ++ .waits op .inside :: y) d) (label_eq : label = d₀.code.size + x.length)
    (target : Nat) :
    Ends P (patch label target) d fun _ d' => d₀.Follows (x ++ .jump op target :: y) d' :=
  (ends_patch h.code_eq label_eq target).mono fun _ _ patched => follows_of_patched h patched

theorem ends_patchHere_inside {d₀ : Draft} {x y : List Slot} {op : Opcode} {label : Nat}
    (h : d₀.Follows (x ++ .waits op .inside :: y) d) (label_eq : label = d₀.code.size + x.length) :
    Ends P (patchHere label) d fun _ d' =>
      d₀.Follows (x ++ .jump op (d₀.code.size + x.length + 1 + y.length) :: y) d' :=
  (ends_patchHere h.code_eq label_eq).mono fun _ _ patched => follows_of_patched h patched

theorem ends_jumpTo (op : Opcode) (target : Nat) :
    Ends P (jumpTo op target) d fun _ d' => d.Follows [.jump op target] d' := by
  refine (ends_jump op).bind fun label d' made => ?_
  exact ends_patch_inside (x := []) made.2 (by simpa using made.1) target

end Gen

/-- The slots of a piece of code, from the number of the first one and the operation before it. -/
def Layout := Nat → Option Opcode → List Slot

namespace Layout

def nil : Layout := fun _ _ => []

def one (s : Slot) : Layout := fun _ _ => [s]

def op (o : Opcode) : Layout := one (.plain o)

instance : Append Layout where
  append a b := fun n last => a n last ++ b (n + (a n last).length) (Slot.lastOf (a n last) last)

def behind (a : Option Opcode → Layout) : Layout := fun n last => a last n last

def jumpOver (o : Opcode) (a : Layout) : Layout := fun n _ =>
  let x := a (n + 1) (some o)
  .jump o (n + 1 + x.length) :: x

def all : List Layout → Layout
  | [] => nil
  | a :: as => a ++ all as

theorem append_apply (a b : Layout) (n : Nat) (last : Option Opcode) :
    (a ++ b) n last = a n last ++ b (n + (a n last).length) (Slot.lastOf (a n last) last) := rfl

theorem append_after (a b : Layout) (x : List Slot) (n : Nat) (last : Option Opcode) :
    x ++ a (n + x.length) (Slot.lastOf x last) ++
        b (n + (x ++ a (n + x.length) (Slot.lastOf x last)).length)
          (Slot.lastOf (x ++ a (n + x.length) (Slot.lastOf x last)) last) =
      x ++ (a ++ b) (n + x.length) (Slot.lastOf x last) := by
  simp [append_apply, Nat.add_assoc]

end Layout

namespace Gen

open Layout

variable {shape : List Bool} {P R : Prop} {a b : Layout} {g h : Gen Unit}

/-- Inside frames of the given shape, `g` places the slots of `a`, or fails; under `P` it fails only
for want of room. -/
def Lays (shape : List Bool) (P : Prop) (a : Layout) (g : Gen Unit) : Prop :=
  ∀ d : Draft, d.frames.map Frame.isSwitch = shape →
    Ends P g d fun _ d' => d.Follows (a d.code.size d.code.lastOp?) d'

theorem Lays.after (lays : Lays shape P a g) {d₀ d : Draft} {x : List Slot}
    (follows : d₀.Follows x d) (hd : d₀.frames.map Frame.isSwitch = shape) :
    Ends P g d fun _ d' =>
      d₀.Follows (x ++ a (d₀.code.size + x.length) (Slot.lastOf x d₀.code.lastOp?)) d' := by
  rw [← follows.size_eq, ← follows.lastOp?_eq]
  exact (lays d (follows.shape_eq.trans hd)).mono fun _ d' placed => follows.trans placed

theorem Lays.seq (first : Lays shape P a g) (second : Lays shape P b h) :
    Lays shape P (a ++ b) (do g; h) :=
  fun d hd => (first d hd).bind fun _ _ placed => second.after placed hd

theorem lays_pure : Lays shape P nil (pure ()) := fun d _ => Draft.Follows.refl d

theorem lays_emit (o : Opcode) : Lays shape P (op o) (emit o) := fun _ _ => ends_onCode rfl rfl

theorem lays_number (n : UInt32) : Lays shape P (one (.number n)) (number n) :=
  fun _ _ => ends_onCode rfl rfl

theorem lays_decimal (digits : String) : Lays shape P (one (.decimal digits)) (decimal digits) :=
  fun _ _ => ends_onCode rfl rfl

theorem lays_string (text : String) : Lays shape P (one (.text .typeString text)) (string text) :=
  fun _ _ => ends_onCode rfl rfl

theorem lays_reference (name : String) :
    Lays shape P (one (.text .typeVar name)) (reference name) := fun _ _ => ends_onCode rfl rfl

theorem lays_jumpTo (o : Opcode) (target : Nat) :
    Lays shape P (one (.jump o target)) (jumpTo o target) := fun _ _ => ends_jumpTo o target

theorem lays_behind {f : Option Opcode → Gen Unit} {c : Option Opcode → Layout}
    (lays : ∀ last, Lays shape P (c last) (f last)) :
    Lays shape P (behind c) (do f (← lastOp?)) := fun d hd => lays d.code.lastOp? d hd

theorem lays_ite {p : Prop} [Decidable p] (yes : Lays shape P a g) (no : Lays shape P b h) :
    Lays shape P (if p then a else b) (if p then g else h) := by
  split
  · exact yes
  · exact no

theorem lays_jumpOver (o : Opcode) (lays : Lays shape P a g) :
    Lays shape P (jumpOver o a) (do let label ← jump o; g; patchHere label) := by
  intro d hd
  refine (ends_jump o).bind fun label d₁ made => ?_
  refine (lays.after made.2 hd).bind fun _ d₂ placed => ?_
  exact ends_patchHere_inside (x := []) placed (by simpa using made.1)

theorem lays_all {gs : List (Gen Unit)} {as : List Layout}
    (lays : List.Forall₂ (Lays shape P) as gs) : Lays shape P (Layout.all as) (Gen.all gs) := by
  induction lays with
  | nil => exact lays_pure
  | cons first _ rest => exact first.seq rest

end Gen

end GraalScript
