import GraalScript.Proofs.Generate.Fits
import GraalScript.Proofs.Generate.ProgramLayout

/-! The bodies of functions in the layout of a program. Each stands behind a jump over it and ends
with a return, jumps neither enter nor leave it, and the bodies stand one behind the other. -/
namespace GraalScript

namespace Slot

def At (n : Nat) (code : List Slot) (i : Nat) (s : Slot) : Prop := n ≤ i ∧ code[i - n]? = some s

variable {n i : Nat} {s : Slot} {x y : List Slot}

theorem At.lt (h : At n x i s) : i < n + x.length := by
  have inside := (List.getElem?_eq_some_iff.mp h.2).1
  have := h.1
  omega

theorem At.mem (h : At n x i s) : s ∈ x := List.mem_of_getElem? h.2

theorem at_cons {t : Slot} : At n (t :: x) i s ↔ i = n ∧ s = t ∨ At (n + 1) x i s := by
  unfold At
  rcases Nat.lt_trichotomy i n with lt | rfl | gt
  · constructor <;> intro h <;> omega
  · have later : ¬ i + 1 ≤ i := by omega
    simp [later, eq_comm]
  · have step : i - n = i - (n + 1) + 1 := by omega
    have le : n ≤ i ∧ n + 1 ≤ i := by omega
    have ne : i ≠ n := by omega
    simp [step, le, ne]

theorem at_append : At n (x ++ y) i s ↔ At n x i s ∨ At (n + x.length) y i s := by
  induction x generalizing n with
  | nil => simp [At]
  | cons t x ih =>
    rw [List.cons_append, at_cons, at_cons, ih, or_assoc, List.length_cons, Nat.add_right_comm,
      ← Nat.add_assoc]

/-- The slots from `entry` on and before `stop` are the body of a function. -/
structure IsBody (n : Nat) (code : List Slot) (entry stop : Nat) : Prop where
  after : n < entry
  skipped : At n code (entry - 1) (.jump .setIndex stop)
  nonempty : entry < stop
  returns : At n code (stop - 1) (.plain .ret)
  closed : ∀ i op target, At n code i (.jump op target) →
    (entry ≤ i ∧ i < stop ↔ entry ≤ target ∧ target < stop)

theorem IsBody.le {entry stop : Nat} (h : IsBody n x entry stop) : stop ≤ n + x.length := by
  have last := h.returns.lt
  have := h.nonempty
  omega

variable {inLoop canBreak : Bool} {entry stop hi : Nat}

theorem IsBody.append_right (h : IsBody n x entry stop)
    (apart : allFit inLoop canBreak (n + x.length) hi y) : IsBody n (x ++ y) entry stop where
  after := h.after
  skipped := at_append.mpr (.inl h.skipped)
  nonempty := h.nonempty
  returns := at_append.mpr (.inl h.returns)
  closed i op target found := by
    rcases at_append.mp found with inside | behind
    · exact h.closed i op target inside
    · have bounds := fits_jump.mp (apart _ behind.mem)
      have from_there := behind.1
      have ends := h.le
      omega

theorem IsBody.append_left (h : IsBody (n + x.length) y entry stop)
    (apart : allFit inLoop canBreak n (n + x.length) x) : IsBody n (x ++ y) entry stop where
  after := Nat.lt_of_le_of_lt (Nat.le_add_right n x.length) h.after
  skipped := at_append.mpr (.inr h.skipped)
  nonempty := h.nonempty
  returns := at_append.mpr (.inr h.returns)
  closed i op target found := by
    rcases at_append.mp found with before | inside
    · have bounds := fits_jump.mp (apart _ before.mem)
      have starts := before.lt
      have entered := h.after
      omega
    · exact h.closed i op target inside

end Slot

namespace Layout

theorem stmts_append (switches : Nat) (xs ys : List Stmt) :
    stmts switches (xs ++ ys) = stmts switches xs ++ stmts switches ys := by
  induction xs with
  | nil => rw [List.nil_append, stmts, nil_append]
  | cons s xs ih => rw [List.cons_append, stmts, stmts, ih, append_assoc]

theorem stmts_ending (body : List Stmt) (placed : Stmt.allPlaced false false body = true) :
    ∃ front, stmts 0 body ++ ending body = front ++ op .ret ∧
      ∀ lo start, lo ≤ start → front.Fits false false lo start := by
  by_cases returns : Gen.endsWithReturn body = true
  · have last : ∃ before line value, body = before ++ [.ret line value] := by
      unfold Gen.endsWithReturn at returns
      split at returns
      next line value h =>
        obtain ⟨before, eq⟩ := List.getLast?_eq_some_iff.mp h
        exact ⟨before, line, value, eq⟩
      next => cases returns
    obtain ⟨before, line, value, rfl⟩ := last
    refine ⟨stmts 0 before ++ value.elim (one (.number 0)) expr, ?_, fun lo start le => ?_⟩
    · funext n last
      simp [stmts_append, stmts, stmt, append_nil, append_apply, ending, behind, returns, op, one,
        nil, Slot.op]
    · rw [Stmt.allPlaced_eq, List.all_append, Bool.and_eq_true, ← Stmt.allPlaced_eq] at placed
      exact (fits_stmts le 0 before placed.1).append
        (fits_elim (fits_one rfl) fun e _ => fits_expr le e)
  · refine ⟨stmts 0 body ++ one (.number 0), ?_, fun lo start le => ?_⟩
    · have added : ending body = one (.number 0) ++ op .ret := by
        funext n last
        simp [ending, behind, returns]
      rw [added, append_assoc]
    · exact (fits_stmts le 0 body placed).append (fits_one rfl)

/-- The code of a function ends with a return, and no jump of it leads behind that. -/
theorem funcBody_eq (f : Func) (placed : Stmt.allPlaced false false f.body.body = true) :
    ∃ front, funcBody f = front ++ op .ret ∧ ∀ lo start, lo ≤ start →
      front.Fits false false lo start := by
  obtain ⟨front, eq, fits⟩ := stmts_ending f.body.body placed
  let params := op .typeArray ++ all (f.params.reverse.map fun p => one (.text .typeVar p.name)) ++
    op .funcParamsEnd ++ op .jmp ++ (if f.body.hasCall then op .cmdCall else nil)
  refine ⟨params ++ front, ?_, fun lo start le => ?_⟩
  · rw [funcBody, append_assoc, eq]
    exact (append_assoc params front _).symm
  · refine Fits.append ?_ (fits lo start le)
    refine (((Fits.append (fits_op rfl) (fits_all fun a ha => ?_)).append (fits_op rfl)).append
      (fits_op rfl)).append (fits_ite (fits_op rfl) fits_nil)
    obtain ⟨p, _, rfl⟩ := List.mem_map.mp ha
    exact fits_one rfl

theorem isBody_func (f : Func) (placed : (Item.func f).isPlaced = true) (n : Nat)
    (last : Option Opcode) :
    Slot.IsBody n (item (.func f) n last) (n + 1) (n + (item (.func f) n last).length) := by
  obtain ⟨front, eq, fits⟩ := funcBody_eq f placed
  have inside := fits (n + 1) (n + 1) (Nat.le_refl _) (n + 1) (some .setIndex) (Nat.le_refl _)
  have code : item (.func f) n last =
      Slot.jump .setIndex (n + ((front (n + 1) (some .setIndex)).length + 2)) ::
        (front (n + 1) (some .setIndex) ++ [Slot.plain .ret]) := by
    rw [item, jumpOver, eq]
    simp [append_apply, op, one, Nat.add_assoc, Nat.add_comm 1]
  rw [code]
  generalize front (n + 1) (some .setIndex) = x at inside
  have length : (Slot.jump .setIndex (n + (x.length + 2)) :: (x ++ [Slot.plain .ret])).length =
      x.length + 2 := by
    simp
  rw [length]
  refine ⟨by omega, Slot.at_cons.mpr (.inl ⟨rfl, rfl⟩), by omega, ?_, fun i o target found => ?_⟩
  · refine Slot.at_cons.mpr
      (.inr (Slot.at_append.mpr (.inr (Slot.at_cons.mpr (.inl ⟨by omega, rfl⟩)))))
  · rcases Slot.at_cons.mp found with ⟨rfl, same⟩ | found
    · cases same
      omega
    rcases Slot.at_append.mp found with body | ret
    · have bounds := Slot.fits_jump.mp (inside _ body.mem)
      have first := body.1
      have final := body.lt
      omega
    · have same := List.mem_singleton.mp ret.mem
      cases same

theorem fits_item {lo start : Nat} (le : lo ≤ start) (i : Item) (placed : i.isPlaced = true) :
    (item i).Fits false false lo start := by
  cases i with
  | stmt s => exact fits_stmt le 0 s placed
  | func f =>
    obtain ⟨front, eq, fits⟩ := funcBody_eq f placed
    rw [item, eq]
    exact fits_jumpOver le _ ((fits lo start le).append (fits_op rfl))

theorem fits_items {lo start : Nat} (le : lo ≤ start) (is : List Item)
    (placed : ∀ i ∈ is, i.isPlaced = true) : (items is).Fits false false lo start := by
  refine fits_all fun a ha => ?_
  obtain ⟨i, hi, rfl⟩ := List.mem_map.mp ha
  exact fits_item le i (placed i hi)

end Layout

namespace Item

def ownBody (n size : Nat) : Item → List (Nat × Nat)
  | func _ => [(n + 1, n + size)]
  | stmt _ => []

/-- The bodies of the functions among items from `n` on, behind the operation `last`. -/
def bodies : List Item → Nat → Option Opcode → List (Nat × Nat)
  | [], _, _ => []
  | i :: is, n, last =>
    let x := Layout.item i n last
    i.ownBody n x.length ++ bodies is (n + x.length) (Slot.lastOf x last)

theorem map_fst_bodies (is : List Item) (n : Nat) (last : Option Opcode) :
    (bodies is n last).map Prod.fst = (allListed is n last).map Prod.snd := by
  induction is generalizing n last with
  | nil => rfl
  | cons i is ih =>
    rw [bodies, allListed, List.map_append, List.map_append, ih]
    cases i <;> rfl

theorem isBody_bodies (is : List Item) (placed : ∀ i ∈ is, i.isPlaced = true) (n : Nat)
    (last : Option Opcode) :
    ∀ b ∈ bodies is n last, Slot.IsBody n (Layout.items is n last) b.1 b.2 := by
  induction is generalizing n last with
  | nil => exact List.forall_mem_nil _
  | cons i is ih =>
    rw [List.forall_mem_cons] at placed
    have first := Layout.fits_item (Nat.le_refl n) i placed.1 n last (Nat.le_refl n)
    have rest := Layout.fits_items (Nat.le_refl _) is placed.2 (n + (Layout.item i n last).length)
      (Slot.lastOf (Layout.item i n last) last) (Nat.le_refl _)
    intro b hb
    rw [bodies, List.mem_append] at hb
    rcases hb with here | later
    · cases i with
      | stmt _ => cases here
      | func f =>
        cases List.mem_singleton.mp here
        exact (Layout.isBody_func f placed.1 n last).append_right rest
    · exact (ih placed.2 _ _ b later).append_left first

theorem pairwise_bodies (is : List Item) (placed : ∀ i ∈ is, i.isPlaced = true) (n : Nat)
    (last : Option Opcode) : (bodies is n last).Pairwise fun b c => b.2 ≤ c.1 := by
  induction is generalizing n last with
  | nil => exact .nil
  | cons i is ih =>
    rw [List.forall_mem_cons] at placed
    rw [bodies, List.pairwise_append]
    refine ⟨?_, ih placed.2 _ _, fun b hb c hc => ?_⟩
    · cases i <;> simp [ownBody]
    · have starts := (isBody_bodies is placed.2 _ _ c hc).after
      cases i with
      | stmt _ => cases hb
      | func f =>
        cases List.mem_singleton.mp hb
        exact Nat.le_of_lt starts

end Item

end GraalScript
