import GraalScript.Proofs.Generate.StmtLayout
import GraalScript.Proofs.Tree.Ready

/-! Layouts of functions and programs, and the functions they list. A program that is ready has its
code laid out and its functions listed, unless it is too large. -/
namespace GraalScript

namespace Assembly

def list (a : Assembly) (found : List (String × Nat)) : Assembly :=
  { a with functions := ⟨a.functions.entries ++ (found.map fun f => ⟨f.1, .ofNat f.2⟩).toArray⟩ }

@[simp] theorem list_nil (a : Assembly) : a.list [] = a := by simp [list]

theorem list_append (a : Assembly) (x y : List (String × Nat)) :
    a.list (x ++ y) = (a.list x).list y := by
  simp [list]

theorem list_placeAll (a : Assembly) (found : List (String × Nat)) (code : List Slot) :
    (a.placeAll code).list found = (a.list found).placeAll code := by
  induction code generalizing a with
  | nil => rfl
  | cons s code ih => exact ih (a.place s)

end Assembly

namespace Layout

def ending (body : List Stmt) : Layout :=
  behind fun last => if Gen.endsWithReturn body && last = some .ret then nil
    else one (.number 0) ++ op .ret

def funcBody (f : Func) : Layout :=
  op .typeArray ++ all (f.params.reverse.map fun p => one (.text .typeVar p.name)) ++
    op .funcParamsEnd ++
    op .jmp ++ (if f.body.hasCall then op .cmdCall else nil) ++ stmts 0 f.body.body ++
      ending f.body.body

def item : Item → Layout
  | .func f => jumpOver .setIndex (funcBody f)
  | .stmt s => stmt 0 s

def items (is : List Item) : Layout := all (is.map item)

end Layout

/-- The functions that an item at `n` lists. -/
def Item.listed (n : Nat) : Item → List (String × Nat)
  | func f => [(f.tableName, n + 1)]
  | stmt _ => []

/-- The functions that items list from `n` on, behind the operation `last`. -/
def Item.allListed : List Item → Nat → Option Opcode → List (String × Nat)
  | [], _, _ => []
  | i :: is, n, last =>
    let x := Layout.item i n last
    i.listed n ++ allListed is (n + x.length) (Slot.lastOf x last)

theorem Program.names_allListed (p : Program) (n : Nat) (last : Option Opcode) :
    (Item.allListed p.items n last).map Prod.fst = p.funcs.map Func.tableName := by
  obtain ⟨is, clientside⟩ := p
  simp only [Program.funcs]
  induction is generalizing n last with
  | nil => rfl
  | cons i is ih =>
    rw [Item.allListed, List.map_append, ih]
    cases i <;> rfl

namespace Draft

def list (d : Draft) (found : List (String × Nat)) : Draft := { d with code := d.code.list found }

def names (d : Draft) : List String := d.code.functions.entries.toList.map (·.name)

@[simp] theorem list_nil (d : Draft) : d.list [] = d := by simp [list]

theorem list_append (d : Draft) (x y : List (String × Nat)) :
    d.list (x ++ y) = (d.list x).list y := by
  simp [list, Assembly.list_append]

theorem names_list (d : Draft) (found : List (String × Nat)) :
    (d.list found).names = d.names ++ found.map Prod.fst := by
  simp [names, list, Assembly.list]

theorem Follows.names_eq {d d' : Draft} {x : List Slot} (h : d.Follows x d') :
    d'.names = d.names := by
  rw [names, h.code_eq, Assembly.functions_placeAll, names]

theorem Follows.list {d d' : Draft} {x : List Slot} (h : d.Follows x d')
    (found : List (String × Nat)) : (d.list found).Follows x (d'.list found) where
  code_eq := by rw [Draft.list, h.code_eq, Assembly.list_placeAll]; rfl
  frames_eq := h.frames_eq
  range := h.range

end Draft

namespace Gen

open Layout

variable {P : Prop} {d : Draft}

theorem ends_declare {name : String} (fresh : P → name ∉ d.names) :
    Ends P (declare name) d fun _ d' =>
      d' = d.list [(name, d.code.size)] ∧ d.code.size < 0x100000000 := by
  by_cases known : d.code.functions.entries.any (·.name == name) = true
  · have failed : (declare name).run d = .error (.duplicateFunction name) := by
      simp only [declare, Assembly.addFunction, FunctionTable.add, StateT.run, known, if_true]
      rfl
    simp only [Ends, failed]
    intro p
    refine (fresh p ?_).elim
    simpa [Draft.names, ← Array.any_toList] using known
  · by_cases range : 0x100000000 ≤ d.code.size
    · have failed : (declare name).run d = .error .imageTooLarge := by
        simp only [declare, Assembly.addFunction, FunctionTable.add, StateT.run, known, range]
        rfl
      simp only [Ends, failed]
      exact fun _ => rfl
    · have added : (declare name).run d = .ok ((), d.list [(name, d.code.size)]) := by
        simp only [declare, Assembly.addFunction, FunctionTable.add, StateT.run, known, range]
        rfl
      simp only [Ends, added]
      exact ⟨trivial, Nat.lt_of_not_le range⟩

theorem lays_funcBody (f : Func) (bound : P → Stmt.allBound f.body.body = true)
    (placed : P → Stmt.allPlaced false false f.body.body = true) :
    Lays [] P (Layout.funcBody f) (Gen.funcBody f) := by
  have body := lays_stmts [] f.body.body bound placed
  have ending : Lays [] P (Layout.ending f.body.body) (do
      unless endsWithReturn f.body.body && (← lastOp?) = some .ret do
        number 0
        emit .ret) :=
    lays_behind fun _ => lays_ite lays_pure ((lays_number 0).seq (lays_emit _))
  simp only [Layout.funcBody, append_assoc]
  refine (lays_emit _).seq (Lays.seq ?_ ((lays_emit _).seq ((lays_emit _).seq ?_)))
  · exact lays_forM _ fun p _ => lays_reference p.name
  · exact lays_when (lays_emit _) (body.seq ending)

theorem ends_item (i : Item) (outside : d.frames = []) (bound : P → i.isBound = true)
    (placed : P → i.isPlaced = true) (fresh : P → ∀ f ∈ i.listed d.code.size, f.1 ∉ d.names) :
    Ends P (Gen.item i) d fun _ d' =>
      (d.list (i.listed d.code.size)).Follows (Layout.item i d.code.size d.code.lastOp?) d' ∧
      ∀ f ∈ i.listed d.code.size, f.2 < 0x100000000 := by
  have shape : d.frames.map Frame.isSwitch = [] := by rw [outside]; rfl
  cases i with
  | stmt s =>
    refine (lays_stmt [] s bound placed d shape).mono fun _ d' follows => ?_
    exact ⟨(d.list_nil).symm ▸ follows, fun _ h => nomatch h⟩
  | func f =>
    refine (ends_jump .setIndex).bind fun label d₁ made => ?_
    have fresh₁ : P → f.tableName ∉ d₁.names := by
      rw [made.2.names_eq]
      exact fun p => fresh p _ List.mem_cons_self
    refine (ends_declare fresh₁).bind fun _ d₂ declared => ?_
    have size₁ : d₁.code.size = d.code.size + 1 := made.2.size_eq
    have skipped :
        (d.list [(f.tableName, d.code.size + 1)]).Follows [.waits .setIndex .inside] d₂ := by
      rw [declared.1, size₁]
      exact made.2.list _
    have small : d.code.size + 1 < 0x100000000 := size₁ ▸ declared.2
    refine ((lays_funcBody f bound placed).after skipped shape).bind fun _ d₃ ran => ?_
    refine (ends_patchHere_inside (x := []) ran made.1).mono fun _ d₄ patched => ⟨patched, ?_⟩
    simpa [Item.listed] using small

theorem ends_items (is : List Item) (outside : d.frames = [])
    (bound : P → ∀ i ∈ is, i.isBound = true) (placed : P → ∀ i ∈ is, i.isPlaced = true)
    (fresh : P → (d.names ++ (Item.allListed is d.code.size d.code.lastOp?).map Prod.fst).Nodup) :
    Ends P (is.forM Gen.item) d fun _ d' =>
      (d.list (Item.allListed is d.code.size d.code.lastOp?)).Follows
        (Layout.items is d.code.size d.code.lastOp?) d' ∧
      ∀ f ∈ Item.allListed is d.code.size d.code.lastOp?, f.2 < 0x100000000 := by
  induction is generalizing d with
  | nil => exact ⟨(d.list_nil).symm ▸ .refl d, fun _ h => nomatch h⟩
  | cons i is ih =>
    rw [Item.allListed, List.map_append, ← List.append_assoc] at fresh
    have new : P → ∀ f ∈ i.listed d.code.size, f.1 ∉ d.names := by
      intro p f hf known
      have apart := (List.nodup_append.mp (List.nodup_append.mp (fresh p)).1).2.2
      exact apart _ known _ (List.mem_map_of_mem hf) rfl
    refine (ends_item i outside (bound · i List.mem_cons_self)
      (placed · i List.mem_cons_self) new).bind
      fun _ d₁ first => ?_
    have size₁ : d₁.code.size = d.code.size + (Layout.item i d.code.size d.code.lastOp?).length :=
      first.1.size_eq
    have last₁ :
        d₁.code.lastOp? = Slot.lastOf (Layout.item i d.code.size d.code.lastOp?) d.code.lastOp? :=
      first.1.lastOp?_eq
    have names₁ := first.1.names_eq
    rw [Draft.names_list] at names₁
    have outside₁ : d₁.frames = [] := by
      have shape := first.1.shape_eq
      rw [show (d.list _).frames = [] from outside] at shape
      exact List.map_eq_nil_iff.mp shape
    have rest := ih outside₁ (fun p j hj => bound p j (List.mem_cons_of_mem i hj))
      (fun p j hj => placed p j (List.mem_cons_of_mem i hj))
        (by rw [names₁, size₁, last₁]; exact fresh)
    rw [size₁, last₁] at rest
    refine rest.mono fun _ d₂ second => ⟨?_, ?_⟩
    · rw [Item.allListed, Draft.list_append]
      exact (first.1.list _).trans second.1
    · intro f hf
      exact (List.mem_append.mp hf).elim (first.2 f) (second.2 f)

end Gen

namespace Program

def layout (p : Program) : List Slot := Layout.items p.items 0 none

def listed (p : Program) : List (String × Nat) := Item.allListed p.items 0 none

theorem ends_program (p : Program) :
    Gen.Ends p.Ready (Gen.program p) .empty fun _ d =>
      (Draft.empty.list p.listed).Follows p.layout d ∧ ∀ f ∈ p.listed, f.2 < 0x100000000 := by
  refine Gen.ends_items p.items rfl Ready.bound Ready.placed fun ready => ?_
  rw [p.names_allListed]
  exact ready.distinct

/-- The code of a program is its layout. -/
theorem draft_eq_ok {p : Program} {d : Draft} (h : p.draft = .ok d) :
    (Draft.empty.list p.listed).Follows p.layout d ∧ ∀ f ∈ p.listed, f.2 < 0x100000000 := by
  have ends := ends_program p
  unfold Gen.Ends at ends
  unfold draft at h
  cases run : (Gen.program p).run .empty with
  | error e => rw [run] at h; cases h
  | ok r => rw [run] at h ends; cases h; exact ends

theorem functions_draft {p : Program} {d : Draft} (h : p.draft = .ok d) :
    d.code.functions.toList = p.listed.map fun f => ⟨f.1, .ofNat f.2⟩ := by
  obtain ⟨follows, -⟩ := draft_eq_ok h
  rw [follows.code_eq, Assembly.functions_placeAll]
  simp [FunctionTable.toList, Draft.list, Assembly.list, Draft.empty, Assembly.empty,
    FunctionTable.empty]

/-- A program that is ready fails only for want of room. -/
theorem Ready.isCapacity {p : Program} {e : CodeError} (ready : p.Ready) (h : p.draft = .error e) :
    e.isCapacity = true := by
  have ends := ends_program p
  unfold Gen.Ends at ends
  unfold draft at h
  cases run : (Gen.program p).run .empty with
  | error e => rw [run] at h ends; cases h; exact ends ready
  | ok r => rw [run] at h; cases h

end Program

end GraalScript
