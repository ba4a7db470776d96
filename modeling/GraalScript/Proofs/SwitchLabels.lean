import GraalScript.Proofs.Compilation
import GraalScript.Proofs.Parser.Formed

/-! The labels of switches. Every body has a label in front of it, and at most one body is that of
the default. The labels in front of one body are not compared with each other, so the default one
may stand there twice. -/
namespace GraalScript

namespace Case

/-- How many of the labels are the default one. -/
def defaults (c : Case) : Nat := c.labels.countP Option.isNone

theorem isDefault_iff {c : Case} : c.isDefault = true ↔ 0 < c.defaults := by
  rw [isDefault, defaults, List.any_eq_true, List.countP_pos_iff]

theorem countP_labels_eq_zero {cases : List Case} (none : cases.countP isDefault = 0) :
    (cases.flatMap labels).countP Option.isNone = 0 := by
  rw [List.countP_flatMap, List.sum_eq_zero_iff_forall_eq_nat, List.forall_mem_map]
  intro c inside
  have other := List.countP_eq_zero.mp none c inside
  rwa [isDefault_iff, Nat.not_lt, Nat.le_zero] at other

theorem countP_labels_eq_defaults {cases : List Case} (one : cases.countP isDefault ≤ 1) {c : Case}
    (inside : c ∈ cases) (default : c.isDefault = true) :
    (cases.flatMap labels).countP Option.isNone = c.defaults := by
  obtain ⟨front, back, rfl⟩ := List.append_of_mem inside
  have others : front.countP isDefault = 0 ∧ back.countP isDefault = 0 := by
    rw [List.countP_append, List.countP_cons_of_pos default] at one
    omega
  calc ((front ++ c :: back).flatMap labels).countP Option.isNone
    _ = (front.flatMap labels).countP Option.isNone +
      (c.defaults + (back.flatMap labels).countP Option.isNone) := by
      rw [List.flatMap_append, List.flatMap_cons, List.countP_append, List.countP_append, defaults]
    _ = c.defaults := by
      rw [countP_labels_eq_zero others.1, countP_labels_eq_zero others.2, Nat.zero_add,
        Nat.add_zero]

theorem countP_labels_le_one_iff {cases : List Case} (one : cases.countP isDefault ≤ 1) :
    (cases.flatMap labels).countP Option.isNone ≤ 1 ↔ ∀ c ∈ cases, c.defaults ≤ 1 := by
  constructor
  · intro few c inside
    have part : c.labels.Sublist (cases.flatMap labels) :=
      List.sublist_flatten_of_mem (List.mem_map_of_mem inside)
    exact Nat.le_trans part.countP_le few
  · intro each
    by_cases some : ∃ c ∈ cases, c.isDefault = true
    · obtain ⟨c, inside, default⟩ := some
      rw [countP_labels_eq_defaults one inside default]
      exact each c inside
    · have none : cases.countP isDefault = 0 :=
        List.countP_eq_zero.mpr fun c inside default => some ⟨c, inside, default⟩
      rw [countP_labels_eq_zero none]
      exact Nat.zero_le 1

end Case

/-- The cases of a switch. -/
def Stmt.cases : Stmt → List Case
  | switch _ _ cases => cases
  | block .. | ifThen .. | ifElse .. | whileLoop .. | forLoop .. | forEach .. | withObject ..
  | new .. | ret .. | breakOut _ | continueLoop _ | vars _ | const .. | expr _ | empty _ => []

namespace Program

/-- In a script that is read, every body of a switch has a label and at most one body has default
labels. So there are two default labels in a switch only if one body has both. -/
theorem labels_of_parse {source : String} {limit : Nat} {p : Program}
    (h : parse source limit = .ok p) {s t : Stmt} (mem : s ∈ p.stmts) (inside : t.Part s) :
    (∀ c ∈ t.cases, c.labels ≠ []) ∧ t.cases.countP Case.isDefault ≤ 1 ∧
      ((t.cases.flatMap Case.labels).countP Option.isNone ≤ 1 ↔ ∀ c ∈ t.cases, c.defaults ≤ 1) := by
  obtain ⟨_, formed⟩ := (formed_of_parse h).of_mem_stmts mem
  obtain ⟨_, formed⟩ := formed.of_part inside
  cases formed with
  | switch _ labels grouped _ _ =>
    have one := grouped.default
    exact ⟨fun c inside => (labels c inside).nonempty, one, Case.countP_labels_le_one_iff one⟩
  | _ => simp [Stmt.cases]

/-- A switch inside the body of another, which has its own default. -/
theorem labels_of_parse_nested : ∃ (p : Program) (s t : Stmt),
    parse "switch(a){default:switch(b){case 1:default:;case 2:}}" 8 = .ok p ∧
    s ∈ p.stmts ∧ t.Part s ∧ t.cases.map (fun c => c.labels.length) = [2, 1] ∧
    (∀ c ∈ t.cases, c.labels ≠ []) ∧ t.cases.countP Case.isDefault ≤ 1 ∧
    ((t.cases.flatMap Case.labels).countP Option.isNone ≤ 1 ↔ ∀ c ∈ t.cases, c.defaults ≤ 1) := by
  have ran :
      (parse "switch(a){default:switch(b){case 1:default:;case 2:}}" 8).toOption.any (fun p =>
      p.stmts.any fun s => s.children.any fun t =>
        t.cases.map (fun c => c.labels.length) == [2, 1]) = true := by
    decide +kernel
  obtain ⟨p, read, found⟩ := exists_ok_of_any ran
  obtain ⟨s, mem, found⟩ := List.any_eq_true.mp found
  obtain ⟨t, child, sizes⟩ := List.any_eq_true.mp found
  have inside : t.Part s := .tail .refl child
  exact ⟨p, s, t, read, mem, inside, eq_of_beq sizes, labels_of_parse read mem inside⟩

/-- Two default labels in front of one body are read. -/
theorem default_label_twice : ∃ p, parse "switch (x) { default: default: y = 1; }" 128 = .ok p ∧
    ∃ s ∈ p.stmts, (s.cases.flatMap Case.labels).countP Option.isNone = 2 := by
  have ran : (parse "switch (x) { default: default: y = 1; }" 128).toOption.any (fun p =>
      p.stmts.any fun s => (s.cases.flatMap Case.labels).countP Option.isNone == 2) = true := by
    decide +kernel
  obtain ⟨p, read, found⟩ := exists_ok_of_any ran
  obtain ⟨s, mem, twice⟩ := List.any_eq_true.mp found
  exact ⟨p, read, s, mem, eq_of_beq twice⟩

end Program

end GraalScript
