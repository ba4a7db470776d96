import GraalScript.Generate.Basic

/-! Instructions before texts have numbers and jumps have targets, and code as a list of them.
Placing slots only appends to an assembly, and giving a jump its target is the same as placing it
with its target from the start. Jumps that wait for the end of a loop or switch are found again by
their labels. -/
namespace GraalScript

/-- What a jump without a target waits for. -/
inductive Wait where
  /-- A place inside the construct that made the jump. -/
  | inside
  /-- The end of the innermost loop or switch. -/
  | breakOut
  /-- The next round of the innermost loop. -/
  | continueLoop
  deriving DecidableEq, Repr

inductive Slot where
  | plain (op : Opcode)
  | number (n : UInt32)
  | decimal (digits : String)
  | text (op : Opcode) (text : String)
  | jump (op : Opcode) (target : Nat)
  | waits (op : Opcode) (wait : Wait)
  deriving DecidableEq, Repr

namespace Slot

def op : Slot → Opcode
  | plain op | text op _ | jump op _ | waits op _ => op
  | number _ | decimal _ => .typeNumber

def isWaiting : Slot → Bool
  | waits .. => true
  | _ => false

def isFixed : Slot → Bool
  | jump .. | waits .. => false
  | _ => true

def inRange : Slot → Bool
  | jump _ target => target < 0x10000
  | _ => true

def waitsFor (w : Wait) : Slot → Bool
  | waits _ v => v = w
  | _ => false

/-- Gives a jump that waits for `w` its target. -/
def settle (w : Wait) (target : Nat) : Slot → Slot
  | waits op v => if v = w then jump op target else waits op v
  | s => s

/-- The instruction over a pool, and the pool with its text. A jump that waits has target zero. -/
def instr (pool : Pool) : Slot → Instr × Pool
  | plain op => (⟨op, none⟩, pool)
  | number n => (⟨.typeNumber, some (.int (.narrow n))⟩, pool)
  | decimal digits => (⟨.typeNumber, some (.float digits)⟩, pool)
  | text op t => (⟨op, some (.pool (.narrow (.ofNat (pool.intern t).1)))⟩, (pool.intern t).2)
  | jump op target => (⟨op, some (.int (.w16 (.ofNat target)))⟩, pool)
  | waits op _ => (⟨op, some (.int (.w16 0))⟩, pool)

@[simp] theorem op_instr (s : Slot) (pool : Pool) : (s.instr pool).1.op = s.op := by
  cases s <;> rfl

/-- The labels of the jumps in a piece of code at `n` that wait for `w`, the latest one first. -/
def labels (w : Wait) (n : Nat) : List Slot → List Label
  | [] => []
  | s :: code => labels w (n + 1) code ++ if s.waitsFor w then [n] else []

def lastOf (code : List Slot) (last : Option Opcode) : Option Opcode :=
  code.foldl (fun _ s => some s.op) last

theorem labels_append (w : Wait) (n : Nat) (x y : List Slot) :
    labels w n (x ++ y) = labels w (n + x.length) y ++ labels w n x := by
  induction x generalizing n with
  | nil => simp [labels]
  | cons s x ih =>
    have step : n + 1 + x.length = n + (s :: x).length := by simp only [List.length_cons]; omega
    simp only [List.cons_append, labels, ih, step, List.append_assoc]

theorem labels_eq_nil {w : Wait} {code : List Slot} (h : ∀ s ∈ code, s.waitsFor w = false)
    (n : Nat) : labels w n code = [] := by
  induction code generalizing n with
  | nil => rfl
  | cons s code ih =>
    have first := h s List.mem_cons_self
    have rest := ih (fun t ht => h t (List.mem_cons_of_mem s ht)) (n + 1)
    simp [labels, first, rest]

@[simp] theorem lastOf_nil (last : Option Opcode) : lastOf [] last = last := rfl

@[simp] theorem lastOf_cons (s : Slot) (code : List Slot) (last : Option Opcode) :
    lastOf (s :: code) last = lastOf code (some s.op) := rfl

@[simp] theorem lastOf_append (x y : List Slot) (last : Option Opcode) :
    lastOf (x ++ y) last = lastOf y (lastOf x last) := List.foldl_append

end Slot

namespace Assembly

open Slot

def place (a : Assembly) (s : Slot) : Assembly where
  instrs := a.instrs.push (s.instr a.pool).1
  pool := (s.instr a.pool).2
  functions := a.functions
  waiting := if s.isWaiting then a.size :: a.waiting else a.waiting

def placeAll (a : Assembly) (code : List Slot) : Assembly := code.foldl place a

@[simp] theorem placeAll_nil (a : Assembly) : a.placeAll [] = a := rfl

@[simp] theorem placeAll_cons (a : Assembly) (s : Slot) (code : List Slot) :
    a.placeAll (s :: code) = (a.place s).placeAll code := rfl

theorem placeAll_append (a : Assembly) (x y : List Slot) :
    a.placeAll (x ++ y) = (a.placeAll x).placeAll y := List.foldl_append

@[simp] theorem size_place (a : Assembly) (s : Slot) : (a.place s).size = a.size + 1 := by
  simp [place, size]

@[simp] theorem size_placeAll (a : Assembly) (code : List Slot) :
    (a.placeAll code).size = a.size + code.length := by
  induction code generalizing a with
  | nil => rfl
  | cons s code ih =>
    rw [placeAll_cons, ih, size_place, List.length_cons]
    omega

@[simp] theorem lastOp?_place (a : Assembly) (s : Slot) : (a.place s).lastOp? = some s.op := by
  simp [place, lastOp?]

@[simp] theorem lastOp?_placeAll (a : Assembly) (code : List Slot) :
    (a.placeAll code).lastOp? = lastOf code a.lastOp? := by
  induction code generalizing a with
  | nil => rfl
  | cons s code ih => rw [placeAll_cons, ih, lastOp?_place, lastOf_cons]

@[simp] theorem functions_placeAll (a : Assembly) (code : List Slot) :
    (a.placeAll code).functions = a.functions := by
  induction code generalizing a with
  | nil => rfl
  | cons s code ih => exact ih (a.place s)

theorem patch_place_waits (a : Assembly) (op : Opcode) (w : Wait) {target : Nat}
    (h : target < 0x10000) :
    (a.place (.waits op w)).patch a.size target = .ok (a.place (.jump op target)) := by
  have inside : a.size ∈ (a.place (.waits op w)).waiting := by simp [place, isWaiting]
  have modified : (a.place (.waits op w)).instrs.modify a.size
      (fun i => ⟨i.op, some (.int (.w16 (.ofNat target)))⟩) =
        (a.place (.jump op target)).instrs := by
    apply Array.ext_getElem?
    intro i
    simp only [place, instr, size, Array.getElem?_modify, Array.getElem?_push]
    by_cases last : i = a.instrs.size
    · simp [last]
    · simp [last, Ne.symm last]
  simp only [patch, Nat.not_le.mpr h, inside, if_true, if_false, modified]
  simp [place, isWaiting, instr]

theorem patch_place (a : Assembly) (s : Slot) {label : Nat} (target : Nat) (h : label < a.size) :
    (a.place s).patch label target = (a.patch label target).map (·.place s) := by
  have old : a.instrs.size ≠ label := by simp only [size] at h; omega
  have inside : label ∈ (a.place s).waiting ↔ label ∈ a.waiting := by
    by_cases waiting : s.isWaiting <;> simp [place, waiting, size, Ne.symm old]
  by_cases range : 0x10000 ≤ target
  · simp [patch, range, Except.map]
  · have modified : ∀ f : Instr → Instr, (a.place s).instrs.modify label f =
        (a.instrs.modify label f).push (s.instr a.pool).1 := by
      intro f
      apply Array.ext_getElem?
      intro i
      simp only [place, Array.getElem?_modify, Array.getElem?_push, Array.size_modify]
      by_cases last : i = a.instrs.size
      · simp [last, Ne.symm old]
      · simp [last]
    by_cases known : label ∈ a.waiting
    · simp only [patch, range, inside, known, if_true, if_false, modified, Except.map]
      by_cases waiting : s.isWaiting <;> simp [place, waiting, size, old]
    · simp only [patch, range, inside, known, if_false, Except.map]

theorem patch_placeAll_of_lt (a : Assembly) (code : List Slot) {label : Nat} (target : Nat)
    (h : label < a.size) :
    (a.placeAll code).patch label target = (a.patch label target).map (·.placeAll code) := by
  induction code generalizing a with
  | nil => cases h : a.patch label target <;> simp [h, Except.map]
  | cons s code ih =>
    have inside : label < (a.place s).size := by rw [size_place]; omega
    rw [placeAll_cons, ih _ inside, patch_place a s target h]
    cases a.patch label target <;> rfl

/-- Giving a jump its target is placing it with its target. -/
theorem patch_placeAll (a : Assembly) (x y : List Slot) (op : Opcode) (w : Wait) {target : Nat}
    (h : target < 0x10000) :
    (a.placeAll (x ++ .waits op w :: y)).patch (a.size + x.length) target =
      .ok (a.placeAll (x ++ .jump op target :: y)) := by
  have inside : a.size + x.length < ((a.placeAll x).place (.waits op w)).size := by simp
  have placed := patch_place_waits (a.placeAll x) op w h
  rw [size_placeAll] at placed
  rw [placeAll_append, placeAll_cons, patch_placeAll_of_lt _ _ _ inside, placed, placeAll_append]
  rfl

theorem patch_of_le (a : Assembly) (label : Nat) {target : Nat} (h : 0x10000 ≤ target) :
    a.patch label target = .error (.jumpOutOfRange target) := by
  simp [patch, h]

end Assembly

end GraalScript
