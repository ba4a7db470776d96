import GraalScript.Proofs.Generate.StmtLayout

/-! Where the jumps of a layout lead: never behind its end, and never before the place where the
code around it starts. Everything else has the opcode of no jump, and a jump is left waiting only
where something can settle it. -/
namespace GraalScript

namespace Slot

/-- The slot may stand in code from `lo` to `hi`, inside a loop or not and with something to leave
or not. -/
def fits (inLoop canBreak : Bool) (lo hi : Nat) : Slot → Bool
  | plain op | text op _ => !op.isJump
  | number _ | decimal _ => true
  | jump _ target => lo ≤ target && target ≤ hi
  | waits _ .inside => false
  | waits _ .breakOut => canBreak
  | waits _ .continueLoop => inLoop

variable {inLoop canBreak : Bool} {lo hi target : Nat} {s : Slot}

theorem fits_jump {op : Opcode} :
    (jump op target).fits inLoop canBreak lo hi = true ↔ lo ≤ target ∧ target ≤ hi := by
  simp [fits]

theorem fits_mono {lo' hi' : Nat} (low : lo' ≤ lo) (high : hi ≤ hi')
    (h : s.fits inLoop canBreak lo hi = true) : s.fits inLoop canBreak lo' hi' = true := by
  cases s with
  | jump op target =>
    rw [fits_jump] at h ⊢
    omega
  | waits op w => cases w <;> exact h
  | _ => exact h

theorem fits_settle_breakOut (low : lo ≤ target) (high : target ≤ hi)
    (h : s.fits inLoop true lo hi = true) :
    (s.settle .breakOut target).fits inLoop canBreak lo hi = true := by
  cases s with
  | waits op w =>
    cases w with
    | inside => cases h
    | breakOut => exact fits_jump.mpr ⟨low, high⟩
    | continueLoop => exact h
  | _ => exact h

theorem fits_settle_continueLoop (low : lo ≤ target) (high : target ≤ hi)
    (h : s.fits true canBreak lo hi = true) :
    (s.settle .continueLoop target).fits inLoop canBreak lo hi = true := by
  cases s with
  | waits op w =>
    cases w with
    | inside => cases h
    | breakOut => exact h
    | continueLoop => exact fits_jump.mpr ⟨low, high⟩
  | _ => exact h

def allFit (inLoop canBreak : Bool) (lo hi : Nat) (code : List Slot) : Prop :=
  ∀ s ∈ code, s.fits inLoop canBreak lo hi = true

theorem allFit_append {x y : List Slot} :
    allFit inLoop canBreak lo hi (x ++ y) ↔
      allFit inLoop canBreak lo hi x ∧ allFit inLoop canBreak lo hi y := by
  simp only [allFit, List.forall_mem_append]

theorem allFit_cons {x : List Slot} :
    allFit inLoop canBreak lo hi (s :: x) ↔
      s.fits inLoop canBreak lo hi = true ∧ allFit inLoop canBreak lo hi x := by
  simp only [allFit, List.forall_mem_cons]

theorem allFit.widen {hi' : Nat} {x : List Slot} (h : allFit inLoop canBreak lo hi x)
    (high : hi ≤ hi') : allFit inLoop canBreak lo hi' x :=
  fun s hs => fits_mono (Nat.le_refl lo) high (h s hs)

theorem allFit.settle_breakOut {x : List Slot} (h : allFit inLoop true lo hi x) (low : lo ≤ target)
    (high : target ≤ hi) : allFit inLoop canBreak lo hi (x.map (settle .breakOut target)) := by
  intro s hs
  obtain ⟨t, ht, rfl⟩ := List.mem_map.mp hs
  exact fits_settle_breakOut low high (h t ht)

theorem allFit.settle_continueLoop {x : List Slot} (h : allFit true canBreak lo hi x)
    (low : lo ≤ target) (high : target ≤ hi) :
    allFit inLoop canBreak lo hi (x.map (settle .continueLoop target)) := by
  intro s hs
  obtain ⟨t, ht, rfl⟩ := List.mem_map.mp hs
  exact fits_settle_continueLoop low high (h t ht)

end Slot

namespace Opcode

theorem isJump_ofRoot? {name : String} {o : Opcode} (h : ofRoot? name = some o) :
    o.isJump = false := by
  unfold ofRoot? at h
  split at h <;> cases h <;> rfl

end Opcode

namespace Command

def known : List Command := scriptCall :: methodCall :: (functions ++ methods).map Prod.snd

theorem getD_lookup_mem_known {table : List (String × Command)}
    (within : table ⊆ functions ++ methods) {default : Command} (hd : default ∈ known)
    (name : String) : (table.lookup name).getD default ∈ known := by
  cases found : table.lookup name with
  | none => exact hd
  | some c =>
    obtain ⟨before, after, rfl, _⟩ := List.lookup_eq_some_iff.mp found
    have entry : (name, c) ∈ functions ++ methods := within (by simp)
    exact List.mem_cons_of_mem _ (List.mem_cons_of_mem _ (List.mem_map_of_mem entry))

def runsOn (c : Command) : Bool := !c.op.isJump && c.convert.all fun o => !o.isJump

theorem isJump_op {c : Command} (runs : c.runsOn = true) : c.op.isJump = false := by
  simp only [runsOn, Bool.and_eq_true, Bool.not_eq_true'] at runs
  exact runs.1

end Command

theorem Expr.command_mem_known (e : Expr) : e.command ∈ Command.known := by
  unfold Expr.command
  split
  · exact Command.getD_lookup_mem_known (List.subset_append_right _ _) (by decide) _
  · exact Command.getD_lookup_mem_known (List.subset_append_left _ _) (by decide) _
  · decide

theorem Expr.runsOn_command (e : Expr) : e.command.runsOn = true := by
  have all : ∀ c ∈ Command.known, c.runsOn = true := by decide
  exact all _ e.command_mem_known

namespace Layout

variable {inLoop canBreak : Bool} {lo start : Nat} {a b c : Layout}

/-- Placed at `start` or later, every slot of the layout fits between `lo` and the end of the
layout. -/
def Fits (inLoop canBreak : Bool) (lo start : Nat) (a : Layout) : Prop :=
  ∀ n last, start ≤ n → Slot.allFit inLoop canBreak lo (n + (a n last).length) (a n last)

theorem Fits.later {later : Nat} (h : a.Fits inLoop canBreak lo start) (le : start ≤ later) :
    a.Fits inLoop canBreak lo later :=
  fun n last hn => h n last (Nat.le_trans le hn)

theorem fits_nil : nil.Fits inLoop canBreak lo start := fun _ _ _ _ hs => nomatch hs

theorem fits_one {s : Slot} (h : s.fits inLoop canBreak lo start = true) :
    (one s).Fits inLoop canBreak lo start := by
  intro n last hn
  simpa [one, Slot.allFit] using Slot.fits_mono (Nat.le_refl lo) (Nat.le_succ_of_le hn) h

theorem fits_op {o : Opcode} (h : o.isJump = false) : (op o).Fits inLoop canBreak lo start :=
  fits_one (by simp [Slot.fits, h])

theorem Fits.append (first : a.Fits inLoop canBreak lo start)
    (second : b.Fits inLoop canBreak lo start) : (a ++ b).Fits inLoop canBreak lo start := by
  intro n last hn
  have before := first n last hn
  have after := second (n + (a n last).length) (Slot.lastOf (a n last) last) (by omega)
  rw [append_apply, List.length_append, Slot.allFit_append]
  exact ⟨before.widen (by omega), after.widen (by omega)⟩

theorem fits_all {as : List Layout} (h : ∀ a ∈ as, a.Fits inLoop canBreak lo start) :
    (all as).Fits inLoop canBreak lo start := by
  induction as with
  | nil => exact fits_nil
  | cons a as ih =>
    rw [List.forall_mem_cons] at h
    exact h.1.append (ih h.2)

theorem fits_behind {c : Option Opcode → Layout}
    (h : ∀ last, (c last).Fits inLoop canBreak lo start) :
    (behind c).Fits inLoop canBreak lo start := fun n last => h last n last

theorem fits_ite {p : Prop} [Decidable p] (yes : a.Fits inLoop canBreak lo start)
    (no : b.Fits inLoop canBreak lo start) :
    (if p then a else b).Fits inLoop canBreak lo start := by
  split
  · exact yes
  · exact no

theorem fits_elim {α : Type} {x : Option α} {c : α → Layout}
    (none : a.Fits inLoop canBreak lo start) (some : ∀ y ∈ x, (c y).Fits inLoop canBreak lo start) :
    (x.elim a c).Fits inLoop canBreak lo start := by
  cases x with
  | none => exact none
  | some y => exact some y rfl

theorem fits_getD {x : Option Layout} (given : ∀ y ∈ x, y.Fits inLoop canBreak lo start)
    (default : a.Fits inLoop canBreak lo start) : (x.getD a).Fits inLoop canBreak lo start := by
  cases x with
  | none => exact default
  | some y => exact given y rfl

theorem fits_memberOf (name : String) : (memberOf name).Fits inLoop canBreak lo start :=
  (fits_one rfl).append (fits_op rfl)

theorem fits_localVar (name : String) : (localVar name).Fits inLoop canBreak lo start :=
  (fits_op rfl).append (fits_memberOf name)

theorem fits_convert (want given : ValueType) :
    (convert want given).Fits inLoop canBreak lo start := by
  unfold convert
  split <;> first | exact fits_nil | exact fits_op rfl

theorem fits_toObject : toObject.Fits inLoop canBreak lo start :=
  fits_behind fun _ => fits_ite fits_nil (fits_op rfl)

theorem fits_literal (value : Literal) : (literal value).Fits inLoop canBreak lo start := by
  unfold literal
  split <;> exact fits_one rfl

theorem fits_bound (name : String) (binding : Binding) :
    (bound name binding).Fits inLoop canBreak lo start := by
  cases binding with
  | unresolved => exact fits_nil
  | constant value => exact fits_literal value.literal
  | localVar => exact fits_localVar name
  | builtin => exact fits_elim (fits_one rfl) fun o h => fits_op (Opcode.isJump_ofRoot? h)
  | objectVar | param | func => exact fits_one rfl

theorem fits_element (object : a.Fits inLoop canBreak lo start)
    (index : b.Fits inLoop canBreak lo start) (type : ValueType) :
    (element a b type).Fits inLoop canBreak lo start :=
  (object.append index).append (fits_ite fits_nil (fits_op rfl))

theorem fits_binary (type : ValueType) (o : BinaryOp) (lhs : a.Fits inLoop canBreak lo start)
    (rhs : b.Fits inLoop canBreak lo start) (left right : ValueType) :
    (binary type o a b left right).Fits inLoop canBreak lo start := by
  have last : (op o.opcode).Fits inLoop canBreak lo start := fits_op (by cases o <;> rfl)
  exact (((lhs.append (fits_convert _ _)).append rhs).append (fits_convert _ _)).append last

theorem fits_test (value : a.Fits inLoop canBreak lo start) (type : ValueType) :
    (test a type).Fits inLoop canBreak lo start :=
  value.append (fits_behind fun _ => fits_ite fits_nil (fits_convert _ _))

theorem fits_step (o : StepOp) (before : Bool) (target : a.Fits inLoop canBreak lo start) :
    (step o before a).Fits inLoop canBreak lo start := by
  have stepped : (op o.opcode).Fits inLoop canBreak lo start := fits_op (by cases o <;> rfl)
  have old : (op .copyLastOp ++ op .convToFloat ++ op .swapLastOps).Fits inLoop canBreak lo start :=
    ((fits_op rfl).append (fits_op rfl)).append (fits_op rfl)
  exact target.append (fits_ite stepped ((old.append stepped).append (fits_op rfl)))

theorem fits_beforeAssign (o : Option BinaryOp) {x : Option Layout}
    (place : ∀ y ∈ x, y.Fits inLoop canBreak lo start) (target : a.Fits inLoop canBreak lo start)
    (value : b.Fits inLoop canBreak lo start) (targetType valueType : ValueType) :
    (x.getD a ++ match o with
      | none => b
      | some o =>
        binary o.compoundType o (if x.isSome then a
          else op .copyLastOp) b targetType valueType).Fits
        inLoop canBreak lo start := by
  refine (fits_getD place target).append ?_
  cases o with
  | none => exact value
  | some o => exact fits_binary _ o (fits_ite target (fits_op rfl)) value _ _

theorem fits_assign (o : Option BinaryOp) {x : Option Layout}
    (place : ∀ y ∈ x, y.Fits inLoop canBreak lo start) (target : a.Fits inLoop canBreak lo start)
    (value : b.Fits inLoop canBreak lo start) (targetType valueType : ValueType) :
    (assign o x a b targetType valueType).Fits inLoop canBreak lo start :=
  (fits_beforeAssign o place target value _ _).append (fits_op (by split <;> rfl))

theorem fits_receiver {o : Command} (runs : o.runsOn = true) {x : Option Layout}
    (object : ∀ y ∈ x, y.Fits inLoop canBreak lo start) :
    (receiver o x).Fits inLoop canBreak lo start := by
  refine (fits_getD object fits_nil).append ?_
  cases h : o.convert with
  | none => exact fits_nil
  | some convert =>
    simp only [Command.runsOn, h, Option.all_some, Bool.and_eq_true, Bool.not_eq_true'] at runs
    exact fits_behind fun _ => fits_ite fits_nil (fits_op runs.2)

theorem fits_arguments (o : Command) {as : List Layout}
    (args : ∀ a ∈ as, a.Fits inLoop canBreak lo start) :
    (arguments o as).Fits inLoop canBreak lo start := by
  have reversed : ∀ a ∈ as.reverse, a.Fits inLoop canBreak lo start :=
    fun a ha => args a (List.mem_reverse.mp ha)
  exact fits_ite (fits_all args) (fits_ite (fits_one rfl) (fits_all reversed))

theorem fits_beforeCall {o : Command} (runs : o.runsOn = true) {x : Option Layout}
    {as : List Layout} (object : ∀ y ∈ x, y.Fits inLoop canBreak lo start)
    (function : a.Fits inLoop canBreak lo start)
    (args : ∀ a ∈ as, a.Fits inLoop canBreak lo start) :
    ((if o.style.objectFirst then receiver o x else nil) ++
      (if o.style.useArray then op .typeArray else nil) ++ arguments o as ++
      (if o.style.objectFirst then nil else receiver o x) ++
      (if o.op = .call then a else nil)).Fits inLoop canBreak lo start := by
  have received := fits_receiver runs object
  have front := (fits_ite (p := o.style.objectFirst = true) received fits_nil).append
    (fits_ite (p := o.style.useArray = true) (fits_op (o := .typeArray) rfl) fits_nil)
  have middle := (front.append (fits_arguments o args)).append
    (fits_ite (p := o.style.objectFirst = true) fits_nil received)
  exact middle.append (fits_ite function fits_nil)

theorem fits_call {o : Command} (runs : o.runsOn = true) {x : Option Layout} {as : List Layout}
    (object : ∀ y ∈ x, y.Fits inLoop canBreak lo start) (function : a.Fits inLoop canBreak lo start)
    (args : ∀ a ∈ as, a.Fits inLoop canBreak lo start) :
    (call o x a as).Fits inLoop canBreak lo start :=
  (fits_beforeCall runs object function args).append (fits_op (Command.isJump_op runs))

theorem fits_beforeNew (cls : String) {as : List Layout} :
    (∀ a ∈ as, a.Fits inLoop canBreak lo start) →
    ((match as with
      | [name] => name ++ op .inlineNew
      | _ => one (.text .typeVar "unknown_object")) ++ one (.text .typeString cls)).Fits
        inLoop canBreak lo start := by
  intro args
  refine Fits.append ?_ (fits_one rfl)
  split
  · exact (args _ List.mem_cons_self).append (fits_op rfl)
  · exact fits_one rfl

theorem fits_newObject (cls : String) {as : List Layout}
    (args : ∀ a ∈ as, a.Fits inLoop canBreak lo start) :
    (newObject cls as).Fits inLoop canBreak lo start :=
  (fits_beforeNew cls args).append (fits_op rfl)

theorem fits_newArray (dims : List UInt32) : (newArray dims).Fits inLoop canBreak lo start := by
  cases dims with
  | nil => exact fits_nil
  | cons dim dims =>
    refine ((fits_one rfl).append (fits_op rfl)).append (fits_all fun a ha => ?_)
    obtain ⟨dim, _, rfl⟩ := List.mem_map.mp ha
    exact (fits_one rfl).append (fits_op rfl)

theorem fits_jumpOver (le : lo ≤ start) (o : Opcode) (h : a.Fits inLoop canBreak lo start) :
    (jumpOver o a).Fits inLoop canBreak lo start := by
  intro n last hn
  have inside := h (n + 1) (some o) (by omega)
  simp only [jumpOver, List.length_cons, Slot.allFit_cons, Slot.fits_jump]
  exact ⟨by omega, inside.widen (by omega)⟩

theorem fits_branch (le : lo ≤ start) (o : Opcode) (first : a.Fits inLoop canBreak lo start)
    (second : b.Fits inLoop canBreak lo start) (third : c.Fits inLoop canBreak lo start) :
    (branch o a b c).Fits inLoop canBreak lo start := by
  intro n last hn
  have x := first n last hn
  have y := second (n + (a n last).length + 1) (some o) (by omega)
  have z := third (n + (a n last).length + 1 + (b (n + (a n last).length + 1) (some o)).length + 1)
    (some .setIndex) (by omega)
  simp only [branch, List.length_append, List.length_cons, Slot.allFit_append, Slot.allFit_cons,
    Slot.fits_jump]
  exact ⟨x.widen (by omega), by omega, y.widen (by omega), by omega, z.widen (by omega)⟩

mutual

theorem fits_expr (le : lo ≤ start) (e : Expr) : (expr e).Fits inLoop canBreak lo start := by
  cases e with
  | literal _ value => exact fits_literal value
  | name _ name binding => exact fits_bound name binding
  | member _ object member =>
    exact ((fits_expr le object).append fits_toObject).append (fits_memberOf _)
  | index _ object index =>
    exact (fits_element (fits_expr le object) (fits_expr le index) _).append (fits_op rfl)
  | call _ callee args =>
    have function := fits_elim (x := callee.memberName?) (fits_expr le callee) fun name _ =>
      fits_memberOf name
    exact fits_call callee.runsOn_command (fits_object? le callee) function
      (fits_codesOnto le args (List.forall_mem_nil _))
  | array _ items =>
    exact ((fits_op rfl).append (fits_all (fits_codesOnto le items (List.forall_mem_nil _)))).append
      (fits_op rfl)
  | unary _ o operand =>
    exact ((fits_expr le operand).append (fits_op rfl)).append (fits_op (by cases o <;> rfl))
  | step _ o before target => exact fits_step o before (fits_expr le target)
  | binary _ o lhs rhs => exact fits_binary _ o (fits_expr le lhs) (fits_expr le rhs) _ _
  | logical _ o lhs rhs =>
    exact fits_branch le o.jump (fits_test (fits_expr le lhs) _) (fits_test (fits_expr le rhs) _)
      (fits_op (by cases o <;> rfl))
  | assign _ o target value =>
    exact (fits_assign o (fits_element? le target) (fits_expr le target)
      (fits_expr le value) _ _).append
      (fits_expr le target)
  | ternary _ cond yes no =>
    exact fits_branch le .ifThen (fits_test (fits_expr le cond) _) (fits_expr le yes)
      (fits_expr le no)
  | cast _ kind operand => exact (fits_expr le operand).append (fits_op (by cases kind <;> rfl))
  | inRange _ value lower upper =>
    exact (((((fits_expr le value).append (fits_expr le lower)).append (fits_convert _ _)).append
      (fits_expr le upper)).append (fits_convert _ _)).append (fits_op rfl)
  | inObject _ value object =>
    exact (((fits_expr le value).append (fits_expr le object)).append fits_toObject).append
      (fits_op rfl)
  | new _ cls args => exact fits_newObject cls.name (fits_codesOnto le args (List.forall_mem_nil _))
  | newArray _ dims => exact fits_newArray dims

theorem fits_codesOnto (le : lo ≤ start) {done : List Layout} (es : List Expr)
    (h : ∀ a ∈ done, a.Fits inLoop canBreak lo start) :
    ∀ a ∈ codesOnto done es, a.Fits inLoop canBreak lo start := by
  cases es with
  | nil => exact h
  | cons e es => exact fits_codesOnto le es (List.forall_mem_cons.mpr ⟨fits_expr le e, h⟩)

theorem fits_object? (le : lo ≤ start) (e : Expr) :
    ∀ a ∈ object? e, a.Fits inLoop canBreak lo start := by
  cases e with
  | member _ object _ =>
    rintro _ ⟨⟩
    exact fits_expr le object
  | _ => exact fun _ h => nomatch h

theorem fits_element? (le : lo ≤ start) (e : Expr) :
    ∀ a ∈ element? e, a.Fits inLoop canBreak lo start := by
  cases e with
  | index _ object index =>
    rintro _ ⟨⟩
    exact fits_element (fits_expr le object) (fits_expr le index) _
  | _ => exact fun _ h => nomatch h

end

theorem fits_condition (le : lo ≤ start) (e : Expr) : (condition e).Fits inLoop canBreak lo start :=
  fits_test (fits_expr le e) _

theorem fits_effect (le : lo ≤ start) (e : Expr) : (effect e).Fits inLoop canBreak lo start := by
  have dropped : (expr e ++ op .indexDec).Fits inLoop canBreak lo start :=
    (fits_expr le e).append (fits_op rfl)
  cases e with
  | assign _ o target value =>
    exact fits_assign o (fits_element? le target) (fits_expr le target) (fits_expr le value) _ _
  | step _ o _ target =>
    exact ((fits_expr le target).append (fits_op (by cases o <;> rfl))).append (fits_op rfl)
  | call line callee args => exact (fits_expr le _).append (fits_ite (fits_op rfl) fits_nil)
  | _ => exact dropped

theorem fits_loop (le : lo ≤ start) (exit : Opcode) (toHead : Bool)
    (head : a.Fits inLoop canBreak lo start) (body : b.Fits true true lo start)
    (tail : c.Fits true true lo start) :
    (loop a exit b c toHead).Fits inLoop canBreak lo start := by
  intro n last hn
  have back : (one (.jump .setIndex n)).Fits true true lo n :=
    fits_one (Slot.fits_jump.mpr (by omega))
  have x := head n last hn
  have y := (((body.later hn).append (tail.later hn)).append back) (n + (a n last).length + 2)
    (some .cmdCall)
    (by omega)
  have round : (b (n + (a n last).length + 2) (some .cmdCall)).length ≤
      ((b ++ c ++ one (.jump .setIndex n)) (n + (a n last).length + 2) (some .cmdCall)).length := by
    simp only [append_apply, List.length_append]
    omega
  simp only [loop, List.length_append, List.length_cons, List.length_map, Slot.allFit_append,
    Slot.allFit_cons, Slot.fits_jump]
  refine ⟨x.widen (by omega), by omega, rfl, ?_⟩
  refine ((y.widen ?_).settle_breakOut ?_ ?_).settle_continueLoop ?_ ?_ <;>
    first | omega | split <;> omega

theorem fits_onObject (le : lo ≤ start) (body : a.Fits inLoop canBreak lo start) :
    (onObject a).Fits inLoop canBreak lo start :=
  (fits_op rfl).append (fits_jumpOver le _ (body.append (fits_op rfl)))

theorem fits_varDecl (le : lo ≤ start) (decl : VarDecl) :
    (varDecl decl).Fits inLoop canBreak lo start := by
  refine fits_all fun a ha => ?_
  obtain ⟨d, _, rfl⟩ := List.mem_map.mp ha
  exact ((fits_localVar _).append (fits_elim (fits_op rfl) fun e _ => fits_expr le e)).append
    (fits_op rfl)

theorem fits_forInit (le : lo ≤ start) (init : ForInit) :
    (forInit init).Fits inLoop canBreak lo start := by
  cases init with
  | vars decl => exact fits_varDecl le decl
  | expr e => exact fits_effect le e

theorem fits_continueLoop (switches : Nat) :
    (continueLoop switches).Fits true canBreak lo start := by
  refine (fits_all fun a ha => ?_).append (fits_one rfl)
  rw [List.eq_of_mem_replicate ha]
  exact fits_op rfl

theorem fits_newControl (le : lo ≤ start) (cls : String) (name : a.Fits inLoop canBreak lo start)
    (body : b.Fits inLoop canBreak lo start) :
    (newControl a cls b).Fits inLoop canBreak lo start := by
  simp only [newControl, append_assoc]
  exact name.append
    ((fits_op rfl).append
      ((fits_op rfl).append
        ((fits_op rfl).append
          ((fits_op rfl).append
            ((fits_one rfl).append ((fits_op rfl).append ((fits_op rfl).append ((fits_op rfl).append
    ((fits_onObject le body).append
      ((fits_op rfl).append ((fits_op rfl).append ((fits_one rfl).append
    ((fits_op rfl).append (fits_op rfl))))))))))))))

theorem fits_labelTest (le : lo ≤ start) {target : Nat} (low : lo ≤ target) (high : target ≤ start)
    (label : Option Expr) : (labelTest target label).Fits inLoop canBreak lo start := by
  cases label with
  | none => exact fits_nil
  | some e =>
    exact (((fits_op rfl).append (fits_expr le e)).append (fits_op rfl)).append
      (fits_one (Slot.fits_jump.mpr ⟨low, high⟩))

theorem mem_of_fallback {tests : List (Nat × List (Option Expr))} {found : Nat}
    (h : fallback tests = some found) : found ∈ tests.map Prod.fst := by
  have known : ∀ n ∈ fallback tests, n ∈ tests.map Prod.fst := by
    refine List.foldlRecOn tests _ (motive := fun r => ∀ n ∈ r, n ∈ tests.map Prod.fst) nofun ?_
    rintro r known ⟨start, labels⟩ ht
    refine List.foldlRecOn labels _ (motive := fun r => ∀ n ∈ r, n ∈ tests.map Prod.fst) known ?_
    intro r known label _
    split
    · rintro _ ⟨⟩
      exact List.mem_map_of_mem ht
    · exact known
  exact known found h

theorem fits_switchTests (le : lo ≤ start) {tests : List (Nat × List (Option Expr))}
    (h : ∀ t ∈ tests, lo ≤ t.1 ∧ t.1 ≤ start) :
    (switchTests tests).Fits inLoop canBreak lo start := by
  refine (fits_all fun a ha => ?_).append (fits_elim fits_nil fun found hf => ?_)
  · obtain ⟨t, ht, rfl⟩ := List.mem_map.mp ha
    refine fits_all fun b hb => ?_
    obtain ⟨label, _, rfl⟩ := List.mem_map.mp hb
    exact fits_labelTest le (h t ht).1 (h t ht).2 label
  · obtain ⟨t, ht, rfl⟩ := List.mem_map.mp (mem_of_fallback hf)
    exact fits_one (Slot.fits_jump.mpr (h t ht))

theorem mem_caseStarts {switches n m : Nat} {last : Option Opcode} {cs : List Case}
    (h : m ∈ caseStarts switches cs n last) :
    n ≤ m ∧ m ≤ n + (caseBodies switches cs n last).length := by
  induction cs generalizing n last with
  | nil => cases h
  | cons c cs ih =>
    rw [caseBodies, append_apply, List.length_append]
    rw [caseStarts, List.mem_cons] at h
    rcases h with rfl | later
    · omega
    · have within := ih later
      omega

theorem fits_switch (le : lo ≤ start) {starts : Nat → Option Opcode → List Nat}
    {tests : List Nat → Layout} (bodies : a.Fits inLoop true lo start)
    (value : b.Fits inLoop true lo start)
    (within : ∀ n last, ∀ m ∈ starts n last, n ≤ m ∧ m ≤ n + (a n last).length)
    (tested : ∀ targets later, start ≤ later → (∀ m ∈ targets, lo ≤ m ∧ m ≤ later) →
      (tests targets).Fits inLoop true lo later) :
    (switch a starts b tests).Fits inLoop canBreak lo start := by
  intro n last hn
  have x := bodies (n + 1) (some .setIndex) (by omega)
  have targets : ∀ m ∈ starts (n + 1) (some .setIndex),
      lo ≤ m ∧ m ≤ n + 1 + (a (n + 1) (some .setIndex)).length + 1 := by
    intro m hm
    have inside := within (n + 1) (some .setIndex) m hm
    omega
  have test := tested _ _ (by omega) targets
  have y := ((value.later (by omega)).append test) _ (some .setIndex) (Nat.le_refl _)
  simp only [switch, List.length_append, List.length_cons, List.length_map, List.length_nil,
    Slot.allFit_append, Slot.allFit_cons, Slot.fits_jump]
  refine ⟨by omega, ?_, rfl, List.forall_mem_nil _⟩
  refine Slot.allFit.settle_breakOut (Slot.allFit_append.mpr ⟨x.widen ?_, ?_⟩) ?_ ?_
  · omega
  · exact Slot.allFit_cons.mpr ⟨Slot.fits_jump.mpr (by omega), y.widen (by omega)⟩
  · omega
  · omega

mutual

theorem fits_stmt {inLoop canBreak : Bool} (le : lo ≤ start) (switches : Nat) (s : Stmt)
    (h : s.isPlaced inLoop canBreak = true) : (stmt switches s).Fits inLoop canBreak lo start := by
  cases s with
  | block _ body => exact fits_stmts le switches body h
  | ifThen _ cond yes =>
    exact (fits_condition le cond).append (fits_jumpOver le _ (fits_stmt le _ yes h))
  | ifElse _ cond yes no =>
    rw [Stmt.isPlaced, Bool.and_eq_true] at h
    exact fits_branch le _ (fits_condition le cond) (fits_stmt le _ yes h.1) (fits_stmt le _ no h.2)
  | whileLoop _ cond body =>
    exact fits_loop le _ _ (fits_condition le cond) (fits_stmt le 0 body h) fits_nil
  | forLoop _ init cond step body =>
    refine (fits_elim fits_nil fun i _ => fits_forInit le i).append ?_
    exact fits_loop le _ _ (fits_elim (fits_op rfl) fun e _ => fits_condition le e)
      (fits_stmt le 0 body h)
      (fits_elim fits_nil fun e _ => fits_effect le e)
  | forEach _ _ item binding iterable body =>
    refine Fits.append (Fits.append ?_ ?_) (fits_op rfl)
    · exact (((fits_bound item binding).append (fits_expr le iterable)).append (fits_op rfl)).append
        (fits_one rfl)
    · exact fits_loop le .forEach false fits_nil (fits_stmt le 0 body h) (fits_op rfl)
  | withObject _ object body =>
    exact (fits_expr le object).append (fits_onObject le (fits_stmt le _ body h))
  | switch _ value cases =>
    refine fits_switch le (fits_caseBodies le _ cases h) (fits_expr le value)
      (fun _ _ _ => mem_caseStarts) ?_
    intro targets later hl within
    exact fits_switchTests (Nat.le_trans le hl) fun t ht => within t.1 (List.of_mem_zip ht).1
  | new _ cls name _ body =>
    exact fits_newControl le cls.name (fits_expr le name) (fits_stmts le _ body h)
  | ret _ value => exact (fits_elim (fits_one rfl) fun e _ => fits_expr le e).append (fits_op rfl)
  | breakOut _ => exact fits_one h
  | continueLoop _ =>
    cases h
    exact fits_continueLoop switches
  | vars decl => exact fits_varDecl le decl
  | expr e => exact fits_effect le e
  | const | empty => exact fits_nil

theorem fits_stmts {inLoop canBreak : Bool} (le : lo ≤ start) (switches : Nat) (ss : List Stmt)
    (h : Stmt.allPlaced inLoop canBreak ss = true) :
    (stmts switches ss).Fits inLoop canBreak lo start := by
  cases ss with
  | nil => exact fits_nil
  | cons s ss =>
    rw [Stmt.allPlaced, Bool.and_eq_true] at h
    exact (fits_stmt le switches s h.1).append (fits_stmts le switches ss h.2)

theorem fits_caseBodies {inLoop canBreak : Bool} (le : lo ≤ start) (switches : Nat) (cs : List Case)
    (h : Case.allPlaced inLoop canBreak cs = true) :
    (caseBodies switches cs).Fits inLoop canBreak lo start := by
  cases cs with
  | nil => exact fits_nil
  | cons c cs =>
    rw [Case.allPlaced, Bool.and_eq_true] at h
    exact (fits_caseBody le switches c h.1).append (fits_caseBodies le switches cs h.2)

theorem fits_caseBody {inLoop canBreak : Bool} (le : lo ≤ start) (switches : Nat) (c : Case)
    (h : c.isPlaced inLoop canBreak = true) :
    (caseBody switches c).Fits inLoop canBreak lo start := by
  cases c with
  | mk _ _ body => exact fits_stmts le switches body h

end

end Layout

end GraalScript
