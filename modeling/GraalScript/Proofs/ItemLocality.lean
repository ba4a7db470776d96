import GraalScript.Proofs.Code.ImageRead
import GraalScript.Proofs.Compilation
import GraalScript.Proofs.Generate.CodeAt
import Mathlib.Data.List.Infix

/-! Items compile locally. An item writes its code, its texts and its function behind what is there
and changes nothing of it, so a program that compiles still does without its last items, and what it
compiles to then stands at the front of what it compiled to before. -/
namespace GraalScript

theorem Pool.toList_intern (p : Pool) (text : String) : p.toList <+: (p.intern text).2.toList := by
  unfold intern
  split
  · exact List.prefix_rfl
  · simp [toList]

theorem Slot.pool_instr (s : Slot) (pool : Pool) : pool.toList <+: (s.instr pool).2.toList := by
  cases s with
  | text op t => exact pool.toList_intern t
  | _ => exact List.prefix_rfl

namespace Assembly

/-- What `a` holds stands at the front of what `b` holds. -/
structure Begins (a b : Assembly) : Prop where
  instrs : a.instrs.toList <+: b.instrs.toList
  pool : a.pool.toList <+: b.pool.toList
  functions : a.functions.toList <+: b.functions.toList

namespace Begins

variable {a b c : Assembly}

theorem refl (a : Assembly) : a.Begins a :=
  ⟨List.prefix_rfl, List.prefix_rfl, List.prefix_rfl⟩

theorem trans (first : a.Begins b) (second : b.Begins c) : a.Begins c where
  instrs := first.instrs.trans second.instrs
  pool := first.pool.trans second.pool
  functions := first.functions.trans second.functions

theorem code (h : a.Begins b) : a.code <+: b.code := by
  obtain ⟨rest, same⟩ := h.instrs
  rw [Assembly.code, Assembly.code, ← same, Instr.encodeAll_append]
  exact List.prefix_append _ _

theorem exists_image (h : a.Begins b) {prologue bytes : List UInt8}
    (written : b.image prologue = .ok bytes) : ∃ front, a.image prologue = .ok front := by
  obtain ⟨-, _, _, _, -, names, strings, code, -⟩ := Image.exists_segments written
  have functions := (h.functions.flatMap Image.writeFunction).length_le
  have texts := (h.pool.flatMap Image.writeText).length_le
  exact Image.exists_write (functions.trans_lt (Segment.length_lt_of_write names))
    (texts.trans_lt (Segment.length_lt_of_write strings))
    (h.code.length_le.trans_lt (Segment.length_lt_of_write code)) prologue

end Begins

theorem begins_place (a : Assembly) (s : Slot) : a.Begins (a.place s) where
  instrs := by simp [place]
  pool := s.pool_instr a.pool
  functions := List.prefix_rfl

theorem begins_placeAll (a : Assembly) (code : List Slot) : a.Begins (a.placeAll code) := by
  induction code generalizing a with
  | nil => exact .refl a
  | cons s code ih => exact (a.begins_place s).trans (ih (a.place s))

theorem begins_list (a : Assembly) (found : List (String × Nat)) : a.Begins (a.list found) where
  instrs := List.prefix_rfl
  pool := List.prefix_rfl
  functions := by simp [list, FunctionTable.toList]

end Assembly

namespace Gen

/-- Items outside of loops and switches only add to the code, the texts and the functions that are
there. -/
theorem begins_items {is : List Item} {d d' : Draft} (outside : d.frames = [])
    (run : (is.forM Gen.item).run d = .ok ((), d')) : d.code.Begins d'.code := by
  have ends := ends_items (P := False) is outside nofun nofun nofun
  obtain ⟨follows, -⟩ := ends.of_run run
  rw [follows.code_eq]
  exact (d.code.begins_list _).trans (Assembly.begins_placeAll _ _)

end Gen

namespace Program

theorem draft_eq_ok_iff {p : Program} {d : Draft} :
    p.draft = .ok d ↔ (Gen.program p).run .empty = .ok ((), d) := by
  constructor
  · intro h
    obtain ⟨⟨⟨⟩, _⟩, run, ⟨⟩⟩ := bind_eq_ok_iff.mp h
    exact run
  · exact fun run => bind_eq_ok_iff.mpr ⟨((), d), run, rfl⟩

theorem frames_draft {p : Program} {d : Draft} (h : p.draft = .ok d) : d.frames = [] :=
  List.map_eq_nil_iff.mp (draft_eq_ok h).1.shape_eq

/-- The first items of a program that has code have code, which is where the code of the program
begins. The mark of the part for clients plays no role. -/
theorem exists_draft_front {xs ys : List Item} {clientside : Option Nat} {whole : Draft}
    (h : draft ⟨xs ++ ys, clientside⟩ = .ok whole) (mark : Option Nat) :
    ∃ front, draft ⟨xs, mark⟩ = .ok front ∧ front.code.Begins whole.code := by
  have run : ((xs ++ ys).forM Gen.item).run .empty = .ok ((), whole) := draft_eq_ok_iff.mp h
  rw [List.forM_eq_forM, List.forM_append] at run
  obtain ⟨⟨⟩, front, first, rest⟩ := Gen.run_bind run
  have drafted : draft ⟨xs, mark⟩ = .ok front := draft_eq_ok_iff.mpr first
  exact ⟨front, drafted, Gen.begins_items (frames_draft drafted) rest⟩

/-- A program that compiles does so without its last items too, and the bytes, the pool and the
function table of its first items are where those of the whole program begin. -/
theorem generate_front {xs ys : List Item} {clientside : Option Nat} {prologue : List UInt8}
    {out : Output} (h : generate ⟨xs ++ ys, clientside⟩ prologue = .ok out) (mark : Option Nat) :
    ∃ whole front first, draft ⟨xs ++ ys, clientside⟩ = .ok whole ∧
      whole.code.image prologue = .ok out.image ∧
      draft ⟨xs, mark⟩ = .ok front ∧ front.code.image prologue = .ok first.image ∧
      generate ⟨xs, mark⟩ prologue = .ok first ∧
      front.code.code <+: whole.code.code ∧ front.code.pool.toList <+: whole.code.pool.toList ∧
      front.code.functions.toList <+: whole.code.functions.toList := by
  obtain ⟨whole, drafted, written, -⟩ := generate_eq_ok_iff.mp h
  obtain ⟨front, first, begins⟩ := exists_draft_front drafted mark
  obtain ⟨image, kept⟩ := begins.exists_image written
  have generated : generate ⟨xs, mark⟩ prologue = .ok ⟨image, front.joined.toList⟩ :=
    generate_eq_ok_iff.mpr ⟨front, first, kept, rfl⟩
  exact ⟨whole, front, _, drafted, written, first, kept, generated, begins.code, begins.pool,
    begins.functions⟩

/-- `function f() { while (1) { a = "t"; break; } }`. -/
def loopItem : Item :=
  .func ⟨1, false, none, ⟨"f", 1⟩, [], ⟨1, [.whileLoop 1 (.literal 1 (.int 1)) (.block 1
    [.expr (.assign 1 none (.name 1 "a" .objectVar) (.literal 1 (.str "t"))), .breakOut 1])]⟩⟩

/-- `if (a == "t") f();`. -/
def testItem : Item :=
  .stmt (.ifThen 1 (.binary 1 .eq (.name 1 "a" .objectVar) (.literal 1 (.str "t")))
    (.expr (.call 1 (.name 1 "f" .func) [])))

/-- A statement behind a function with a loop, whose texts it shares. -/
theorem generate_front_loop : ∃ out, generate ⟨[loopItem] ++ [testItem], none⟩ [] = .ok out ∧
    ∃ whole front first, draft ⟨[loopItem] ++ [testItem], none⟩ = .ok whole ∧
      whole.code.image [] = .ok out.image ∧
      draft ⟨[loopItem], none⟩ = .ok front ∧ front.code.image [] = .ok first.image ∧
      generate ⟨[loopItem], none⟩ [] = .ok first ∧
      front.code.code <+: whole.code.code ∧ front.code.pool.toList <+: whole.code.pool.toList ∧
      front.code.functions.toList <+: whole.code.functions.toList := by
  have succeeds : (generate ⟨[loopItem] ++ [testItem], none⟩ []).toOption.isSome = true := by
    decide +kernel
  obtain ⟨out, generated⟩ := exists_ok_of_isSome succeeds
  exact ⟨out, generated, generate_front generated none⟩

end Program

end GraalScript
