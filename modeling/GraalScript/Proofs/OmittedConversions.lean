import GraalScript.Proofs.Generate.CodeAt
import GraalScript.Proofs.Tree.Equality

/-! Conversions that are left out. A value is converted for a conditional jump, for the access to a
member or for the call of a method unless the last operation in front says what the value is. On a
way through the code of an expression that operation is the last one before the end, but for the
ways through those arms of a conditional expression that stand before its last. -/
namespace GraalScript

namespace Assembly

variable {a : Assembly} {lo mid hi i j n : Nat} {is : List Nat} {pool : Pool} {code : List Slot}

/-- Control can go on from the instruction `i` at another one. -/
inductive Leads (a : Assembly) (i : Nat) : Nat → Prop
  | next {instr : Instr} (here : a.instrs[i]? = some instr) (jumps : instr.op ≠ .setIndex)
      (returns : instr.op ≠ .ret) : Leads a i (i + 1)
  | jump {op : Opcode} {target : Nat} (here : a.JumpAt i op target) (jumps : op.isJump = true) :
      Leads a i target

/-- The instructions on a way from one place to `hi`. -/
inductive Route (a : Assembly) (hi : Nat) : Nat → List Nat → Prop
  | done : Route a hi hi []
  | step {i j : Nat} {is : List Nat} (inside : i ≠ hi) (leads : a.Leads i j)
      (rest : Route a hi j is) :
      Route a hi i (i :: is)

/-- The last operation on a way that is no jump, or the one in front of the way. -/
def lastOn (a : Assembly) (before : Option Opcode) (is : List Nat) : Option Opcode :=
  is.foldl (fun last i => ((a.instrs[i]?.map Instr.op).filter (!·.isJump)).or last) before

theorem lastOn_append (a : Assembly) (before : Option Opcode) (x y : List Nat) :
    a.lastOn before (x ++ y) = a.lastOn (a.lastOn before x) y := List.foldl_append

theorem lastOn_singleton {instr : Instr} (here : a.instrs[i]? = some instr)
    (plain : instr.op.isJump = false) (before : Option Opcode) :
    a.lastOn before [i] = some instr.op := by
  simp [lastOn, here, plain]

/-- Control that is in a piece of code leaves it at its end. -/
structure Closed (a : Assembly) (lo hi : Nat) : Prop where
  le : lo ≤ hi
  leads : ∀ {i j}, lo ≤ i → i < hi → a.Leads i j → lo ≤ j ∧ j ≤ hi

theorem JumpAt.unique {o o' : Opcode} {target target' : Nat} (h : a.JumpAt i o target)
    (h' : a.JumpAt i o' target') : o = o' ∧ target = target' := by
  obtain ⟨w, found, rfl⟩ := h
  obtain ⟨w', found', rfl⟩ := h'
  rw [found] at found'
  cases found'
  exact ⟨rfl, rfl⟩

theorem Leads.of_setIndex {target : Nat} (leads : a.Leads i j)
    (here : a.JumpAt i .setIndex target) : j = target := by
  cases leads with
  | next found jumps =>
    obtain ⟨w, here, -⟩ := here
    rw [here] at found
    cases found
    exact (jumps rfl).elim
  | jump found => exact (found.unique here).2

theorem Leads.of_jump {o : Opcode} {target : Nat} (leads : a.Leads i j)
    (here : a.JumpAt i o target) : j = i + 1 ∨ j = target := by
  cases leads with
  | next => exact .inl rfl
  | jump found => exact .inr (found.unique here).2

theorem Leads.of_plain {instr : Instr} (leads : a.Leads i j) (here : a.instrs[i]? = some instr)
    (plain : instr.op.isJump = false) : j = i + 1 := by
  cases leads with
  | next => rfl
  | jump found jumps =>
    obtain ⟨w, found, -⟩ := found
    rw [here] at found
    cases found
    rw [jumps] at plain
    cases plain

theorem Route.eq_nil (route : a.Route hi hi is) : is = [] := by
  cases route with
  | done => rfl
  | step inside => exact (inside rfl).elim

theorem Route.exists_step (route : a.Route hi i is) (inside : i ≠ hi) :
    ∃ j rest, is = i :: rest ∧ a.Leads i j ∧ a.Route hi j rest := by
  cases route with
  | done => exact (inside rfl).elim
  | step _ leads rest => exact ⟨_, _, rfl, leads, rest⟩

theorem Route.eq_singleton (route : a.Route hi i is) (inside : i ≠ hi)
    (leads : ∀ j, a.Leads i j → j = hi) : is = [i] := by
  obtain ⟨j, rest, rfl, here, route⟩ := route.exists_step inside
  rw [leads j here] at route
  rw [route.eq_nil]

theorem Route.split (route : a.Route hi i is) (closed : a.Closed lo mid) (first : lo ≤ i)
    (last : i ≤ mid) (le : mid ≤ hi) : ∃ x y, is = x ++ y ∧ a.Route mid i x ∧ a.Route hi mid y := by
  induction route with
  | done =>
    obtain rfl : hi = mid := by omega
    exact ⟨[], [], rfl, .done, .done⟩
  | @step i j is inside leads rest ih =>
    by_cases stop : i = mid
    · subst stop
      exact ⟨[], i :: is, rfl, .done, .step inside leads rest⟩
    · have within := closed.leads first (by omega) leads
      obtain ⟨x, y, rfl, before, behind⟩ := ih within.1 within.2
      exact ⟨i :: x, y, rfl, .step stop leads before, behind⟩

theorem Route.choose {test done : Nat} (route : a.Route hi lo is) (tested : a.Closed lo test)
    (jumps : a.JumpAt test .ifThen (done + 1)) (first : a.Closed (test + 1) done)
    (leaves : a.JumpAt done .setIndex hi) (le : done < hi) :
    ∃ front x, a.Route done (test + 1) x ∧ is = front ++ (x ++ [done]) ∨ a.Route hi (done + 1) x ∧
      is = front ++ x := by
  have within := first.le
  obtain ⟨x, y, rfl, -, behind⟩ := route.split tested (Nat.le_refl _) tested.le (by omega)
  obtain ⟨j, z, rfl, leads, rest⟩ := behind.exists_step (by omega)
  rcases leads.of_jump jumps with rfl | rfl
  · obtain ⟨y, out, rfl, through, last⟩ := rest.split first (Nat.le_refl _) within (by omega)
    rw [last.eq_singleton (by omega) fun j leads => leads.of_setIndex leaves]
    exact ⟨x ++ [test], y, .inl ⟨through, by simp⟩⟩
  · exact ⟨x ++ [test], z, .inr ⟨rest, by simp⟩⟩

theorem Holds.slot (holds : a.Holds n pool code) (first : n ≤ i) (last : i < n + code.length) :
    ∃ s ∈ code, ∃ p, s.inRange = true ∧ a.instrs[i]? = some (s.instr p).1 := by
  induction code generalizing n pool with
  | nil => exact absurd last (by simpa using first)
  | cons s code ih =>
    obtain ⟨range, here, rest⟩ := holds
    rcases Nat.eq_or_lt_of_le first with rfl | later
    · exact ⟨s, List.mem_cons_self, pool, range, here⟩
    · rw [List.length_cons] at last
      obtain ⟨t, inside, found⟩ := ih rest later (by omega)
      exact ⟨t, List.mem_cons_of_mem s inside, found⟩

theorem JumpAt.of_fits {s : Slot} {o : Opcode} {target : Nat} (jump : a.JumpAt i o target)
    (jumps : o.isJump = true) (here : a.instrs[i]? = some (s.instr pool).1)
    (range : s.inRange = true) (fits : s.fits false false lo hi = true) :
    lo ≤ target ∧ target ≤ hi := by
  obtain ⟨w, found, rfl⟩ := jump
  rw [here, Option.some.injEq] at found
  cases s with
  | jump =>
    cases found
    rw [Word.toNat_target (of_decide_eq_true range)]
    exact Slot.fits_jump.mp fits
  | number =>
    cases found
    cases jumps
  | waits _ w => cases w <;> cases fits
  | plain | decimal | text => cases found

theorem Holds.closed (holds : a.Holds n pool code)
    (fits : Slot.allFit false false n (n + code.length) code) : a.Closed n (n + code.length) := by
  refine ⟨Nat.le_add_right _ _, fun first last leads => ?_⟩
  cases leads with
  | next => omega
  | jump here jumps =>
    obtain ⟨s, inside, p, range, found⟩ := holds.slot first last
    exact here.of_fits jumps found range (fits s inside)

end Assembly

/-- The expressions that can give an expression its value. -/
def Expr.arms : Expr → List Expr
  | ternary _ _ yes no => yes.arms ++ no.arms
  | assign _ _ target _ => target.arms
  | e => [e]

theorem Expr.arms_ne_nil (e : Expr) : e.arms ≠ [] := by
  fun_induction Expr.arms e with
  | case1 _ _ yes no first => exact List.append_ne_nil_of_left_ne_nil first _
  | case2 _ _ _ _ ih => exact ih
  | case3 => exact List.cons_ne_nil _ _

namespace Layout

variable {l m : Layout} {o : Opcode}

def StaysInside (l : Layout) : Prop := ∀ start, l.Fits false false start start

/-- Every way through the layout ends with its last slot. -/
def Closes (l : Layout) : Prop :=
  ∃ front s, l = front ++ one s ∧ front.StaysInside ∧ s.op.isJump = false

theorem StaysInside.append (first : l.StaysInside) (second : m.StaysInside) :
    (l ++ m).StaysInside :=
  fun start => (first start).append (second start)

theorem staysInside_op (h : o.isJump = false) : (op o).StaysInside := fun _ => fits_op h

theorem staysInside_expr (e : Expr) : (expr e).StaysInside := fun _ => fits_expr (Nat.le_refl _) e

theorem staysInside_convert (want given : ValueType) : (convert want given).StaysInside :=
  fun _ => fits_convert _ _

theorem closes_one {s : Slot} (h : s.op.isJump = false) : (one s).Closes :=
  ⟨nil, s, (nil_append _).symm, fun _ => fits_nil, h⟩

theorem Closes.after (last : m.Closes) (front : l.StaysInside) : (l ++ m).Closes := by
  obtain ⟨x, s, rfl, inside, plain⟩ := last
  exact ⟨l ++ x, s, (append_assoc l x (one s)).symm, front.append inside, plain⟩

theorem closes_op (front : l.StaysInside) (h : o.isJump = false) : (l ++ op o).Closes :=
  (closes_one (s := .plain o) h).after front

theorem closes_literal (value : Literal) : (literal value).Closes := by
  unfold literal
  split <;> exact closes_one rfl

theorem closes_memberOf (name : String) : (memberOf name).Closes :=
  closes_op (fun _ => fits_one rfl) rfl

theorem closes_bound {name : String} {binding : Binding} (h : binding.isBound = true) :
    (bound name binding).Closes := by
  cases binding with
  | unresolved => cases h
  | constant value => exact closes_literal value.literal
  | localVar => exact (closes_memberOf name).after (staysInside_op rfl)
  | builtin =>
    unfold bound
    cases found : Opcode.ofRoot? name with
    | none => exact closes_one rfl
    | some o => exact closes_one (Opcode.isJump_ofRoot? found)
  | objectVar | param | func => exact closes_one rfl

theorem closes_step (o : StepOp) (before : Bool) (target : l.StaysInside) :
    (step o before l).Closes := by
  have stepped : o.opcode.isJump = false := by cases o <;> rfl
  cases before with
  | true => exact closes_op target stepped
  | false =>
    have old : (op .copyLastOp ++ op .convToFloat ++ op .swapLastOps).StaysInside :=
      ((staysInside_op rfl).append (staysInside_op rfl)).append (staysInside_op rfl)
    exact (closes_op (old.append (staysInside_op stepped)) rfl).after target

theorem closes_dims (front : l.StaysInside) (last : l.Closes) (dims : List UInt32) :
    (l ++ all (dims.map fun dim => one (.number dim) ++ op .arrayNewMultidim)).Closes := by
  induction dims generalizing l with
  | nil =>
    rw [List.map_nil, all, append_nil]
    exact last
  | cons dim dims ih =>
    have number : (one (.number dim)).StaysInside := fun _ => fits_one rfl
    rw [List.map_cons, all, ← append_assoc]
    exact ih (front.append (number.append (staysInside_op rfl)))
      ((closes_op number rfl).after front)

theorem closes_newArray (dim : UInt32) (dims : List UInt32) : (newArray (dim :: dims)).Closes := by
  have number : (one (.number dim)).StaysInside := fun _ => fits_one rfl
  exact closes_dims (number.append (staysInside_op rfl)) (closes_op number rfl) dims

theorem staysInside_args (es : List Expr) : ∀ l ∈ codesOnto [] es, l.StaysInside :=
  fun l inside _ => fits_codesOnto (Nat.le_refl _) es (List.forall_mem_nil _) l inside

theorem closes_call (line : Nat) (callee : Expr) (args : List Expr) :
    (expr (.call line callee args)).Closes := by
  refine closes_op (fun start => ?_) (Command.isJump_op callee.runsOn_command)
  have function : (callee.memberName?.elim (expr callee) memberOf).Fits false false start start :=
    fits_elim (staysInside_expr callee start) fun name _ => fits_memberOf name
  exact fits_beforeCall callee.runsOn_command (fits_object? (Nat.le_refl _) callee) function
    fun l inside => staysInside_args args l inside start

theorem closes_assign (o : Option BinaryOp) (target value : Expr) :
    (assign o (element? target) (expr target)
      (expr value) target.valueType value.valueType).Closes := by
  refine closes_op (fun start => ?_) (by split <;> rfl)
  exact fits_beforeAssign o (fits_element? (Nat.le_refl _) target) (staysInside_expr target start)
    (staysInside_expr value start) _ _

end Layout

namespace Opcode

/-- Some conversion is left out behind the operation. -/
def sparesConversion (o : Opcode) : Bool :=
  o.leavesBool || o.leavesObject || Command.known.any fun c => c.convert = some o

variable {o : Opcode}

theorem sparesConversion_of_leavesBool (h : o.leavesBool = true) : o.sparesConversion = true := by
  simp [sparesConversion, h]

theorem sparesConversion_of_leavesObject (h : o.leavesObject = true) :
    o.sparesConversion = true := by
  simp [sparesConversion, h]

theorem sparesConversion_of_convert {e : Expr} (h : e.command.convert = some o) :
    o.sparesConversion = true := by
  have known : Command.known.any (fun c => c.convert = some o) = true :=
    List.any_eq_true.mpr ⟨_, e.command_mem_known, decide_eq_true h⟩
  simp [sparesConversion, known]

end Opcode

namespace Assembly

open Gen Layout

variable {a : Assembly} {around : Around} {shape : List Bool} {l : Layout} {g : Gen Unit}
  {d d' : Draft}
  {lo mid hi : Nat} {is x y : List Nat} {code : List Slot} {s : Slot}

theorem Stands.and {At Bt : Nat → Nat → Prop} (first : a.Stands around shape l g At)
    (second : a.Stands around shape l g Bt) :
    a.Stands around shape l g fun lo hi => At lo hi ∧ Bt lo hi :=
  ⟨first.lays, fun hd run keeps => ⟨first.here hd run keeps, second.here hd run keeps⟩⟩

/-- The operation that stands last in a piece of code, or the one in front of it. -/
def lastBetween (a : Assembly) (before : Option Opcode) (lo hi : Nat) : Option Opcode :=
  if lo = hi then before else a.instrs[hi - 1]?.map Instr.op

/-- On the way through a piece of code the operation that stands last is the last, where that
matters. -/
def Tells (a : Assembly) (lo hi : Nat) (is : List Nat) : Prop :=
  ∀ before o, a.lastBetween before lo hi = some o → o.sparesConversion = true →
    a.lastOn before is = some o

theorem Tells.seq (first : a.Tells lo mid x) (second : a.Tells mid hi y) (before : lo ≤ mid)
    (behind : mid ≤ hi) (empty : mid = hi → y = []) : a.Tells lo hi (x ++ y) := by
  intro front o last spares
  rw [lastOn_append]
  by_cases stop : mid = hi
  · rw [empty stop]
    exact first front o (stop ▸ last) spares
  · have proper : lo ≠ hi := by omega
    rw [lastBetween, if_neg proper] at last
    exact second _ o (by rw [lastBetween, if_neg stop, last]) spares

theorem tells_of_jump {target : Nat} (jumps : a.JumpAt mid .setIndex target) (le : lo ≤ mid)
    (x : List Nat) : a.Tells lo (mid + 1) x := by
  intro before o last spares
  obtain ⟨w, here, -⟩ := jumps
  have proper : lo ≠ mid + 1 := by omega
  rw [lastBetween, if_neg proper, Nat.add_sub_cancel, here] at last
  cases last
  exact absurd spares (show ¬Opcode.sparesConversion .setIndex = true by decide)

/-- The way ends with a way through the code of `g` and jumps. -/
def EndsIn (a : Assembly) (is : List Nat) (g : Gen Unit) (jumps : List Nat) : Prop :=
  (∀ j ∈ jumps, ∃ target, a.JumpAt j .setIndex target) ∧
    ∃ lo hi front inside, a.Emits g lo hi ∧ a.Route hi lo inside ∧ is = front ++ inside ++ jumps

/-- The way comes to the end of the expression by a jump behind an arm that is not the last. -/
def Skips (a : Assembly) (e : Expr) (is : List Nat) : Prop :=
  ∃ arm ∈ e.arms.dropLast, ∃ jumps, jumps ≠ [] ∧ a.EndsIn is (Gen.expr arm) jumps

/-- Every way through the code of an expression ends in one of its arms, and either skips what
stands behind the arm or has the operation that stands last as its last. -/
structure Settles (a : Assembly) (e : Expr) (lo hi : Nat) : Prop where
  closed : a.Closed lo hi
  ends : ∀ {is}, a.Route hi lo is → ∃ arm ∈ e.arms, ∃ jumps, a.EndsIn is (Gen.expr arm) jumps ∧
    (arm ∈ e.arms.dropLast ∧ jumps ≠ [] ∨ a.Tells lo hi is)

theorem EndsIn.append {jumps : List Nat} (h : a.EndsIn is g jumps) (front : List Nat) :
    a.EndsIn (front ++ is) g jumps := by
  obtain ⟨jump, lo, hi, x, inside, emits, route, rfl⟩ := h
  exact ⟨jump, lo, hi, front ++ x, inside, emits, route, by simp only [List.append_assoc]⟩

theorem EndsIn.jump {jumps : List Nat} {j target : Nat} (h : a.EndsIn is g jumps)
    (here : a.JumpAt j .setIndex target) : a.EndsIn (is ++ [j]) g (jumps ++ [j]) := by
  obtain ⟨jump, lo, hi, x, inside, emits, route, rfl⟩ := h
  refine ⟨?_, lo, hi, x, inside, emits, route, List.append_assoc _ _ _⟩
  rw [List.forall_mem_append, List.forall_mem_singleton]
  exact ⟨jump, target, here⟩

theorem not_skips {e : Expr} {i : Nat} {instr : Instr} (here : a.instrs[i]? = some instr)
    (plain : instr.op ≠ .setIndex) (front : List Nat) : ¬a.Skips e (front ++ [i]) := by
  rintro ⟨arm, -, jumps, nonempty, jump, lo, hi, x, inside, -, -, is_eq⟩
  obtain ⟨js, j, rfl⟩ := (List.eq_nil_or_concat jumps).resolve_left nonempty
  obtain rfl : i = j := by simpa using congrArg List.getLast? is_eq
  obtain ⟨target, w, found, -⟩ := jump i (by simp)
  rw [here] at found
  cases found
  exact plain rfl

theorem Keeps.holds (keeps : a.Keeps around d l) (inside : l.StaysInside) :
    a.Holds d.code.size d.code.pool (l d.code.size d.code.lastOp?) := by
  unfold Keeps at keeps
  rwa [around.map_settle_of_allFit (inside _ _ _ (Nat.le_refl _))] at keeps

theorem stands_closed (lays : Lays shape False l g) (inside : l.StaysInside) :
    a.Stands around shape l g a.Closed := by
  refine ⟨lays, fun {d d'} hd run keeps => ?_⟩
  rw [((lays d hd).of_run run).size_eq]
  exact (keeps.holds inside).closed (inside _ _ _ (Nat.le_refl _))

theorem Holds.last {n : Nat} {pool : Pool} (holds : a.Holds n pool (code ++ [s])) :
    ∃ instr, a.instrs[n + code.length]? = some instr ∧ instr.op = s.op := by
  obtain ⟨-, -, here, -⟩ := holds_append.mp holds
  exact ⟨_, here, s.op_instr _⟩

theorem stands_tells (lays : Lays shape False l g) (inside : l.StaysInside) (closes : l.Closes) :
    a.Stands around shape l g fun lo hi => ∀ is, a.Route hi lo is → a.Tells lo hi is := by
  refine ⟨lays, fun {d d'} hd run keeps is route before o last _ => ?_⟩
  obtain ⟨front, s, rfl, stays, plain⟩ := closes
  have holds := keeps.holds inside
  have size := ((lays d hd).of_run run).size_eq
  rw [append_apply] at holds size
  have closed := (holds_append.mp holds).1.closed (stays _ _ _ (Nat.le_refl _))
  obtain ⟨instr, here, op_eq⟩ := holds.last
  rw [List.length_append, ← Nat.add_assoc] at size
  change _ = d.code.size + (front d.code.size d.code.lastOp?).length + 1 at size
  rw [size] at route last
  -- The way comes to the last slot from the slots in front of it, and no jump among them leads past
  -- it.
  obtain ⟨x, y, rfl, -, final⟩ := route.split closed (Nat.le_refl _) closed.le (Nat.le_succ _)
  have only := final.eq_singleton (by omega) fun j leads => leads.of_plain here (op_eq ▸ plain)
  rw [only, lastOn_append, lastOn_singleton here (op_eq ▸ plain)]
  rwa [lastBetween, if_neg (by omega), Nat.add_sub_cancel, here] at last

theorem stands_settles_of_tells {e : Expr} (plain : e.arms = [e])
    (tells : a.Stands around shape (Layout.expr e) (Gen.expr e)
      fun lo hi => ∀ is, a.Route hi lo is → a.Tells lo hi is) :
    a.Stands around shape (Layout.expr e) (Gen.expr e) (a.Settles e) := by
  have inside := staysInside_expr e
  have emits : a.Stands around shape _ _ (a.Emits _) := stands_emits tells.lays (inside 0)
  have closed : a.Stands around shape _ _ a.Closed := stands_closed tells.lays inside
  have self : e ∈ e.arms := by
    rw [plain]
    exact List.mem_singleton_self e
  refine ⟨tells.lays, fun {d d'} hd run keeps => ⟨closed.here hd run keeps, fun {is} route => ?_⟩⟩
  have whole : a.EndsIn is (Gen.expr e) [] :=
    ⟨List.forall_mem_nil _, _, _, [], is, emits.here hd run keeps, route, (List.append_nil _).symm⟩
  exact ⟨e, self, [], whole, .inr (tells.here hd run keeps is route)⟩

theorem stands_settles_of_closes {e : Expr} (plain : e.arms = [e])
    (closes : (Layout.expr e).Closes) :
    a.Stands around shape (Layout.expr e) (Gen.expr e) (a.Settles e) :=
  stands_settles_of_tells plain (stands_tells (lays_expr e False.elim) (staysInside_expr e) closes)

theorem stands_settles_of_nil {e : Expr} (plain : e.arms = [e]) (empty : Layout.expr e = nil) :
    a.Stands around shape (Layout.expr e) (Gen.expr e) (a.Settles e) := by
  have lays : Lays shape False (Layout.expr e) (Gen.expr e) := lays_expr e False.elim
  refine stands_settles_of_tells plain
    ⟨lays, fun {d d'} hd run keeps is route before o last _ => ?_⟩
  have size : d'.code.size = d.code.size := by
    rw [((lays d hd).of_run run).size_eq, empty]
    rfl
  rw [size] at route last
  rw [route.eq_nil]
  rwa [lastBetween, if_pos rfl] at last

/-- An operator that looks at its second operand only sometimes ends with the value for the other
case, behind which nothing is left out. -/
theorem stands_settles_logical (line : Nat) (o : LogicalOp) (lhs rhs : Expr) :
    a.Stands around shape (Layout.expr (.logical line o lhs rhs))
      (Gen.expr (.logical line o lhs rhs))
      (a.Settles (.logical line o lhs rhs)) := by
  have lays : Lays shape False _ (Gen.expr (.logical line o lhs rhs)) := lays_expr _ False.elim
  refine stands_settles_of_tells rfl
    ⟨lays, fun {d d'} hd run keeps is route before p last spares => ?_⟩
  have ends : (Layout.expr (.logical line o lhs rhs) d.code.size d.code.lastOp?).getLast? =
      some (.plain o.short) := by
    simp [Layout.expr, Layout.logical, branch, op, one, List.getLast?_cons]
  obtain ⟨code, code_eq⟩ := List.getLast?_eq_some_iff.mp ends
  have holds := keeps.holds (staysInside_expr _)
  have size := ((lays d hd).of_run run).size_eq
  rw [code_eq] at holds size
  obtain ⟨instr, here, op_eq⟩ := holds.last
  rw [List.length_append, List.length_singleton, ← Nat.add_assoc] at size
  rw [size, lastBetween, if_neg (by omega), Nat.add_sub_cancel, here, Option.map_some, op_eq,
    Option.some.injEq] at last
  have kept : o.short.sparesConversion = false := by cases o <;> decide
  rw [← last] at spares
  exact absurd spares (by simp [Slot.op, kept])

theorem Settles.assign {line : Nat} {o : Option BinaryOp} {target value : Expr}
    (closed : a.Closed lo hi) (stored : a.Closed lo mid)
    (tells : ∀ is, a.Route mid lo is → a.Tells lo mid is) (read : a.Settles target mid hi) :
    a.Settles (.assign line o target value) lo hi := by
  refine ⟨closed, fun {is} route => ?_⟩
  obtain ⟨x, y, rfl, before, behind⟩ := route.split stored (Nat.le_refl _) stored.le read.closed.le
  obtain ⟨arm, inside, jumps, ends, last⟩ := read.ends behind
  refine ⟨arm, inside, jumps, ends.append x, last.imp_right fun known => ?_⟩
  refine (tells x before).seq known stored.le read.closed.le ?_
  rintro rfl
  exact behind.eq_nil

/-- A conditional expression ends with one of its arms, and behind the first there is a jump over
the second. -/
theorem Settles.ternary {line test done : Nat} {cond yes no : Expr} (closed : a.Closed lo hi)
    (tested : a.Closed lo test) (jumps : a.JumpAt test .ifThen (done + 1))
    (first : a.Settles yes (test + 1) done) (leaves : a.JumpAt done .setIndex hi)
    (second : a.Settles no (done + 1) hi) : a.Settles (.ternary line cond yes no) lo hi := by
  have le := second.closed.le
  have arms : (Expr.ternary line cond yes no).arms.dropLast = yes.arms ++ no.arms.dropLast := by
    rw [Expr.arms, List.dropLast_append_of_ne_nil no.arms_ne_nil]
  refine ⟨closed, fun {is} route => ?_⟩
  obtain ⟨front, x, ⟨through, rfl⟩ | ⟨through, rfl⟩⟩ :=
    route.choose tested jumps first.closed leaves le
  · obtain ⟨arm, inside, jumps, ends, -⟩ := first.ends through
    refine ⟨arm, List.mem_append_left _ inside, jumps ++ [done], (ends.jump leaves).append front,
      .inl ⟨?_, by simp⟩⟩
    rw [arms]
    exact List.mem_append_left _ inside
  · obtain ⟨arm, inside, jumps, ends, last⟩ := second.ends through
    refine ⟨arm, List.mem_append_right _ inside, jumps, ends.append front,
      last.imp (fun early => ?_) fun tells => ?_⟩
    · rw [arms]
      exact ⟨List.mem_append_right _ early.1, early.2⟩
    · -- Without code of its own the second arm leaves the jump as what stands last, behind which
      -- nothing is left out.
      have within : lo ≤ done := Nat.le_trans tested.le (Nat.le_of_succ_le first.closed.le)
      refine (tells_of_jump leaves within front).seq tells (Nat.le_succ_of_le within) le ?_
      rintro rfl
      exact through.eq_nil

theorem stands_settles (e : Expr) :
    a.Stands around shape (Layout.expr e) (Gen.expr e) (a.Settles e) := by
  have closed : ∀ e, a.Stands around shape (Layout.expr e) (Gen.expr e) a.Closed := fun e =>
    stands_closed (lays_expr e False.elim) (staysInside_expr e)
  cases e with
  | literal line value => exact stands_settles_of_closes rfl (closes_literal value)
  | name line name binding =>
    cases binding with
    | unresolved => exact stands_settles_of_nil rfl rfl
    | _ => exact stands_settles_of_closes rfl (closes_bound rfl)
  | member line object member =>
    have front := (staysInside_expr object).append fun _ => fits_toObject
    exact stands_settles_of_closes rfl ((closes_memberOf _).after front)
  | index line object index =>
    have place := fun start =>
      fits_element (staysInside_expr object start) (staysInside_expr index start) index.valueType
    exact stands_settles_of_closes rfl (closes_op place rfl)
  | call line callee args => exact stands_settles_of_closes rfl (closes_call line callee args)
  | array line items =>
    have front := (staysInside_op (o := .typeArray) rfl).append fun start =>
      fits_all fun l inside => staysInside_args items l inside start
    exact stands_settles_of_closes rfl (closes_op front rfl)
  | unary line o operand =>
    have front := (staysInside_expr operand).append (staysInside_op (o := .convToFloat) rfl)
    exact stands_settles_of_closes rfl (closes_op front (by cases o <;> rfl))
  | step line o before target =>
    exact stands_settles_of_closes rfl (closes_step o before (staysInside_expr target))
  | binary line o lhs rhs =>
    have left := (staysInside_expr lhs).append (staysInside_convert o.operandType lhs.valueType)
    have front :=
      (left.append (staysInside_expr rhs)).append (staysInside_convert o.operandType rhs.valueType)
    exact stands_settles_of_closes rfl (closes_op front (by cases o <;> rfl))
  | logical line o lhs rhs => exact stands_settles_logical line o lhs rhs
  | assign line o target value =>
    have read : Lays shape False (Layout.expr target) (Gen.expr target) :=
      lays_expr target False.elim
    have lays :=
      lays_assign o (lays_element? target False.elim) read
        (lays_expr value False.elim) target.valueType
      value.valueType
    have inside : (Layout.assign o (Layout.element? target) (Layout.expr target)
        (Layout.expr value) target.valueType value.valueType).StaysInside := fun start =>
      fits_assign o (fits_element? (Nat.le_refl _) target) (staysInside_expr target start)
        (staysInside_expr value start) _ _
    have stored : a.Stands around shape _ _ _ :=
      (stands_closed lays inside).and (stands_tells lays inside (closes_assign o target value))
    refine ((closed (.assign line o target value)).and (stored.seq (stands_settles target))).mono ?_
    rintro lo hi ⟨closed, mid, ⟨stored, tells⟩, read⟩
    exact .assign closed stored tells read
  | ternary line cond yes no =>
    have tested : a.Stands around shape (Layout.condition cond) (Gen.condition cond) a.Closed :=
      stands_closed (lays_condition cond False.elim) fun _ => fits_condition (Nat.le_refl _) cond
    refine ((closed (.ternary line cond yes no)).and
      (tested.choose (stands_settles yes) (stands_settles no))).mono ?_
    rintro lo hi ⟨closed, test, done, tested, jumps, first, leaves, second⟩
    exact .ternary closed tested jumps first leaves second
  | cast line kind operand =>
    exact stands_settles_of_closes rfl
      (closes_op (staysInside_expr operand) (by cases kind <;> rfl))
  | inRange line value lower upper =>
    have left := ((staysInside_expr value).append (staysInside_expr lower)).append
      (staysInside_convert .number lower.valueType)
    have front :=
      (left.append (staysInside_expr upper)).append (staysInside_convert .number upper.valueType)
    exact stands_settles_of_closes rfl (closes_op front rfl)
  | inObject line value object =>
    have front := ((staysInside_expr value).append (staysInside_expr object)).append fun _ =>
      fits_toObject
    exact stands_settles_of_closes rfl (closes_op front rfl)
  | new line cls args =>
    have front := fun start => fits_beforeNew cls.name fun l inside =>
      staysInside_args args l inside start
    exact stands_settles_of_closes rfl (closes_op front rfl)
  | newArray line dims =>
    cases dims with
    | nil => exact stands_settles_of_nil rfl rfl
    | cons dim dims => exact stands_settles_of_closes rfl (closes_newArray dim dims)

end Assembly

namespace Gen

open Layout

variable {e : Expr} {d m d' : Draft} {is : List Nat}

/-- On a way that skips nothing the last operation is the one that stands last, where that
matters. -/
theorem lastOn_of_run (ran : (expr e).run d = .ok ((), m))
    (route : m.code.Route m.code.size d.code.size is) (last : ¬m.code.Skips e is) {o : Opcode}
    (ends : m.code.lastOp? = some o) (spares : o.sparesConversion = true) :
    m.code.lastOn d.code.lastOp? is = some o := by
  have follows := (lays_expr e False.elim d rfl).of_run ran
  have keeps : m.code.Keeps .top d (Layout.expr e) := by
    unfold Assembly.Keeps
    rw [Around.map_settle_of_allFit _ (staysInside_expr e _ _ _ (Nat.le_refl _)), follows.code_eq]
    exact Assembly.holds_placeAll _ follows.range
  obtain ⟨arm, -, jumps, inside, early | tells⟩ :=
    ((Assembly.stands_settles e).here rfl ran keeps).ends route
  · exact (last ⟨arm, early.1, jumps, early.2, inside⟩).elim
  refine tells _ o ?_ spares
  unfold Assembly.lastBetween
  split
  case isTrue same =>
    rw [follows.size_eq, Nat.left_eq_add, List.length_eq_zero_iff] at same
    rwa [follows.lastOp?_eq, same] at ends
  case isFalse => rwa [Assembly.lastOp?, Array.back?_eq_getElem?] at ends

theorem any_lastOn_of_run (ran : (expr e).run d = .ok ((), m))
    (route : m.code.Route m.code.size d.code.size is) (last : ¬m.code.Skips e is)
    {p : Opcode → Bool} (spares : ∀ o, p o = true → o.sparesConversion = true)
    (found : m.code.lastOp?.any p = true) : (m.code.lastOn d.code.lastOp? is).any p = true := by
  obtain ⟨o, ends, holds⟩ := Option.any_eq_true _ _ |>.mp found
  rw [lastOn_of_run ran route last ends (spares o holds)]
  exact holds

theorem rest_eq_nil {l : Layout} {g : Gen Unit}
    (lays : Lays (d.frames.map Frame.isSwitch) False (Layout.expr e ++ l) g)
    (ran : (expr e).run d = .ok ((), m)) (run : g.run d = .ok ((), d'))
    (same : d'.code.size = m.code.size) : l m.code.size m.code.lastOp? = [] := by
  have first := (lays_expr e False.elim d rfl).of_run ran
  have whole := ((lays d rfl).of_run run).size_eq
  rw [append_apply, List.length_append, ← Nat.add_assoc, ← first.size_eq, ← first.lastOp?_eq,
    same] at whole
  exact List.length_eq_zero_iff.mp (Nat.left_eq_add.mp whole)

/-- Conversions are left out only where they do nothing, but for the arms of conditional expressions
before the last: on every other way through the code of an expression, a condition that is not
converted has a number or a truth value as its type or comes from an operation that leaves one, an
object that is not converted comes from an operation that leaves one, and the object of a method
that is not converted comes from the conversion or leaves an object for one to objects. -/
theorem omitted_conversion (ran : (expr e).run d = .ok ((), m))
    (route : m.code.Route m.code.size d.code.size is) (last : ¬m.code.Skips e is) :
    (∀ d', (condition e).run d = .ok ((), d') → d'.code.size = m.code.size →
      e.valueType = .number ∨ e.valueType = .bool ∨
        (m.code.lastOn d.code.lastOp? is).any Opcode.leavesBool = true) ∧
    (∀ d', (do expr e; toObject).run d = .ok ((), d') → d'.code.size = m.code.size →
      (m.code.lastOn d.code.lastOp? is).any Opcode.leavesObject = true) ∧
    ∀ line field o d', (Expr.member line e field).command.convert = some o →
      (receiver (Expr.member line e field).command (object? (.member line e field))).run d =
        .ok ((), d') →
      d'.code.size = m.code.size → m.code.lastOn d.code.lastOp? is = some o ∨
        o = .convToObject ∧ (m.code.lastOn d.code.lastOp? is).any Opcode.leavesObject = true := by
  refine ⟨fun d' run same => ?_, fun d' run same => ?_, fun line field o d' known run same => ?_⟩
  · have rest := rest_eq_nil (lays_condition e False.elim) ran run same
    by_cases found : m.code.lastOp?.any Opcode.leavesBool = true
    · exact .inr
        (.inr (any_lastOn_of_run ran route last
          (fun _ => Opcode.sparesConversion_of_leavesBool) found))
    · rw [behind, if_neg found] at rest
      cases type : e.valueType <;> simp [type, Layout.convert, op, one] at rest ⊢
  · have rest := rest_eq_nil ((lays_expr e False.elim).seq lays_toObject) ran run same
    by_cases found : m.code.lastOp?.any Opcode.leavesObject = true
    · exact any_lastOn_of_run ran route last
        (fun _ => Opcode.sparesConversion_of_leavesObject) found
    · rw [Layout.toObject, behind, if_neg found] at rest
      cases rest
  · have rest := rest_eq_nil (lays_receiver _ (.some (lays_expr e False.elim))) ran run same
    simp only [known, behind] at rest
    by_cases found : m.code.lastOp? = some o
    · exact .inl (lastOn_of_run ran route last found (Opcode.sparesConversion_of_convert known))
    · by_cases object : o = .convToObject ∧ m.code.lastOp?.any Opcode.leavesObject = true
      · exact .inr ⟨object.1,
          any_lastOn_of_run ran route last
            (fun _ => Opcode.sparesConversion_of_leavesObject) object.2⟩
      · rw [if_neg (by simpa [found] using object)] at rest
        cases rest

end Gen

/-- `c ? c : c == 1`. -/
def Expr.choice (binding : Binding) : Expr :=
  .ternary 1 (.name 1 "c" binding) (.name 1 "c" binding)
    (.binary 1 .eq (.name 1 "c" binding) (.literal 1 (.int 1)))

/-- `if (c ? c : c == 1) c = 2;`. -/
def Program.choosing (binding : Binding) : Program :=
  ⟨[.stmt (.ifThen 1 (.choice binding)
      (.expr (.assign 1 none (.name 1 "c" binding) (.literal 1 (.int 2)))))], none⟩

theorem Program.parse_choosing : parse "if(c?c:c==1)c=2;" 8 = .ok (.choosing .unresolved) := by
  exact eq_ok_of_toOption (by decide +kernel)

namespace Gen

open Assembly

def choiceCode : Array Instr :=
  #[⟨.typeVar, some (.pool (.narrow 0))⟩, ⟨.convToFloat, none⟩, ⟨.ifThen, some (.int (.w16 5))⟩,
    ⟨.typeVar, some (.pool (.narrow 0))⟩, ⟨.setIndex, some (.int (.w16 8))⟩,
    ⟨.typeVar, some (.pool (.narrow 0))⟩, ⟨.typeNumber, some (.int (.narrow 1))⟩, ⟨.eq, none⟩]

theorem run_choice : ∃ m d', (expr (.choice .objectVar)).run .empty = .ok ((), m) ∧
    (condition (.choice .objectVar)).run .empty = .ok ((), d') ∧ d'.code.size = m.code.size ∧
    m.code.instrs = choiceCode := by
  have made : ((expr (.choice .objectVar)).run .empty).toOption.map (·.2.code.instrs) =
      some choiceCode := rfl
  have tested : ((condition (.choice .objectVar)).run .empty).toOption.map (·.2.code.size) =
      some choiceCode.size := rfl
  obtain ⟨⟨⟨⟩, m⟩, ran, instrs⟩ := Option.map_eq_some_iff.mp made
  obtain ⟨⟨⟨⟩, d'⟩, run, size⟩ := Option.map_eq_some_iff.mp tested
  exact ⟨m, d', eq_ok_of_toOption ran, eq_ok_of_toOption run,
    by rw [size, Assembly.size, instrs], instrs⟩

theorem route_choice {a : Assembly} (code : a.instrs = choiceCode) :
    a.Route 8 0 [0, 1, 2, 3, 4] ∧ a.Route 8 0 [0, 1, 2, 5, 6, 7] := by
  have next : ∀ i, (choiceCode[i]?.any fun instr => instr.op ≠ .setIndex ∧ instr.op ≠ .ret) = true →
      a.Leads i (i + 1) := by
    intro i h
    obtain ⟨instr, here, falls⟩ := (Option.any_eq_true _ _).mp h
    exact .next (code ▸ here) (of_decide_eq_true falls).1 (of_decide_eq_true falls).2
  have tests : a.JumpAt 2 .ifThen 5 := ⟨.w16 5, by rw [code]; rfl, rfl⟩
  have leaves : a.JumpAt 4 .setIndex 8 := ⟨.w16 8, by rw [code]; rfl, rfl⟩
  constructor
  · exact .step (by decide) (next 0 rfl)
      (.step (by decide) (next 1 rfl)
        (.step (by decide) (next 2 rfl)
          (.step (by decide) (next 3 rfl) (.step (by decide) (.jump leaves rfl) .done))))
  · exact .step (by decide) (next 0 rfl)
      (.step (by decide) (next 1 rfl)
        (.step (by decide) (.jump tests rfl)
          (.step (by decide) (next 5 rfl)
            (.step (by decide) (next 6 rfl) (.step (by decide) (next 7 rfl) .done)))))

/-- The second arm of the condition ends with a comparison. -/
theorem omitted_conversion_second_arm :
    ∃ m d', (expr (.choice .objectVar)).run .empty = .ok ((), m) ∧
    (condition (.choice .objectVar)).run .empty = .ok ((), d') ∧ d'.code.size = m.code.size ∧
    m.code.Route m.code.size Draft.empty.code.size [0, 1, 2, 5, 6, 7] ∧
    ¬m.code.Skips (.choice .objectVar) [0, 1, 2, 5, 6, 7] ∧
    ((Expr.choice .objectVar).valueType = .number ∨ (Expr.choice .objectVar).valueType = .bool ∨
      (m.code.lastOn Draft.empty.code.lastOp? [0, 1, 2, 5, 6, 7]).any Opcode.leavesBool =
        true) := by
  obtain ⟨m, d', ran, run, same, code⟩ := run_choice
  have size : m.code.size = 8 := by rw [Assembly.size, code]; rfl
  have route : m.code.Route m.code.size 0 [0, 1, 2, 5, 6, 7] := size ▸ (route_choice code).2
  have final : m.code.instrs[7]? = some ⟨.eq, none⟩ := by rw [code]; rfl
  have last := not_skips (e := .choice .objectVar) final (by decide) [0, 1, 2, 5, 6]
  exact ⟨m, d', ran, run, same, route, last, (omitted_conversion ran route last).1 d' run same⟩

/-- The first arm of the condition ends with a variable, and its value is neither of a known type
nor converted. -/
theorem unconverted_first_arm :
    ∃ symbols m d', Program.parse "if(c?c:c==1)c=2;" 8 = .ok (.choosing .unresolved) ∧
    (Program.choosing .unresolved).resolve .empty = .ok (.choosing .objectVar, symbols) ∧
    (expr (.choice .objectVar)).run .empty = .ok ((), m) ∧
    (condition (.choice .objectVar)).run .empty = .ok ((), d') ∧ d'.code.size = m.code.size ∧
    m.code.Route m.code.size Draft.empty.code.size [0, 1, 2, 3, 4] ∧
    (Expr.choice .objectVar).valueType ≠ .number ∧ (Expr.choice .objectVar).valueType ≠ .bool ∧
    m.code.lastOn Draft.empty.code.lastOp? [0, 1, 2, 3, 4] = some .typeVar ∧
      Opcode.leavesBool .typeVar = false := by
  obtain ⟨m, d', ran, run, same, code⟩ := run_choice
  have size : m.code.size = 8 := by rw [Assembly.size, code]; rfl
  have ends : m.code.lastOn Draft.empty.code.lastOp? [0, 1, 2, 3, 4] = some .typeVar := by
    rw [lastOn, code]
    rfl
  exact ⟨_, m, d', Program.parse_choosing, rfl, ran, run, same, size ▸ (route_choice code).1,
    by decide, by decide, ends, rfl⟩

end Gen

end GraalScript
