import GraalScript.Proofs.Tool.Path
import GraalScript.Tool.Run

/-! The files that images go to. An image is named after its script, either beside the script or in
an output directory. In the directory, what stands behind the last dot of the stem is lost, so that
images of different scripts may meet in one file. All of this is about scripts whose names are
texts. -/
namespace GraalScript

namespace Tool

open GraalScript.Path

section input

variable {input old ext : String}

theorem exists_of_extension? (h : extension? input = some old) :
    ∃ directory name, split? input = some (directory, name) ∧
      cut name = (stem input, some old) := by
  rcases split : split? input with _ | ⟨directory, name⟩
  · simp [extension?, split] at h
  · refine ⟨directory, name, rfl, ?_⟩
    simp only [extension?, stem, split, Option.bind_some, Option.elim] at h ⊢
    rw [← h]

theorem name?_eq (h : extension? input = some old) :
    name? input = some (stem input ++ "." ++ old) := by
  obtain ⟨directory, name, split, whole⟩ := exists_of_extension? h
  rw [name?, split, (eq_of_cut whole).1]
  rfl

theorem isPart_stem (h : extension? input = some old) (proper : stem input ≠ ".") :
    IsPart (stem input) := by
  obtain ⟨directory, name, split, whole⟩ := exists_of_extension? h
  obtain ⟨part, -⟩ := exists_of_split? split
  obtain ⟨shape, filled, -⟩ := eq_of_cut whole
  exact ⟨filled, proper, fun inside => part.no_slash (by simp [shape, inside])⟩

theorem name?_withExtension (h : extension? input = some old) (proper : stem input ≠ ".")
    (noSlash : '/' ∉ ext.toList) :
    name? (withExtension input ext) = some (stem input ++ "." ++ ext) := by
  have part := isPart_stem h proper
  obtain ⟨directory, name, split, whole⟩ := exists_of_extension? h
  obtain ⟨-, -, leads, -⟩ := exists_of_split? split
  have stem_eq : (cut name).1 = stem input := by rw [whole]
  rw [withExtension_of_split? split fun dot => absurd (stem_eq.symm.trans dot) proper, stem_eq]
  have notUp : stem input ++ "." ++ ext ≠ ".." :=
    fun up => proper (extended_eq_up part.ne_empty up).1
  have place := split?_part (isPart_extended part.ne_empty part.no_slash noSlash) leads
  rw [if_neg notUp, ← String.append_assoc, ← String.append_assoc] at place
  rw [name?, place]
  rfl

end input

theorem withExtension_join_eq_iff {p q old old' ext : String} (hp : extension? p = some old)
    (hq : extension? q = some old') (noSlash : '/' ∉ ext.toList) (directory : String) :
    withExtension (join directory (stem p)) ext = withExtension (join directory (stem q)) ext ↔
      (stem p = "." ↔ stem q = ".") ∧ (cut (stem p)).1 = (cut (stem q)).1 := by
  by_cases dot : stem p = "." <;> by_cases dot' : stem q = "."
  · simp [dot, dot']
  · have part := isPart_stem hq dot'
    have apart := withExtension_join_dot_ne (isPart_extended_cut part noSlash) noSlash directory
    rw [withExtension_join part, dot]
    simp [apart, dot']
  · have part := isPart_stem hp dot
    have apart := withExtension_join_dot_ne (isPart_extended_cut part noSlash) noSlash directory
    rw [withExtension_join part, dot']
    simp [apart.symm, dot]
  · have part := isPart_stem hp dot
    have part' := isPart_stem hq dot'
    rw [withExtension_join part, withExtension_join part']
    refine ⟨fun same => ⟨by simp [dot, dot'], ?_⟩, fun same => by rw [same.2]⟩
    have leads := leads_root directory
    obtain ⟨-, names⟩ := append_unique (isPart_extended_cut part noSlash).no_slash
      (isPart_extended_cut part' noSlash).no_slash leads leads same
    exact extended_inj (cut_ne_empty part.ne_empty) (cut_ne_empty part'.ne_empty) names

theorem name?_join_eq_iff {input old ext : String} (h : extension? input = some old)
    (proper : stem input ≠ ".") (noSlash : '/' ∉ ext.toList) (directory : String) :
    name? (withExtension (join directory (stem input)) ext) = name? (withExtension input ext) ↔
      (cut (stem input)).2 = none := by
  rw [name?_join (isPart_stem h proper) noSlash, name?_withExtension h proper noSlash,
    ← cut_fst_eq_iff]
  split
  next dot =>
    rw [dot]
    simp [Ne.symm proper]
  next =>
    refine ⟨fun same => String.toList_inj.mp ?_, fun same => by rw [same]⟩
    simpa using congrArg String.toList (Option.some.inj same)

/-- Images of several scripts in one output directory, each named after its script. Two of them go
to one file exactly if their stems differ only behind a last dot, and an image is named as it would
be beside its script exactly if its stem has no extension of its own. So where no stem has one, no
image is overwritten and all names are those without an output directory. A script called `..gs2` is
set apart: its stem stands for the directory itself. -/
theorem outputPath_collisions (directory : String) (isDirectory : Bool) (inputs : List String)
    (several : 1 < inputs.length) (scripts : ∀ p ∈ inputs, extension? p = some sourceExtension)
    (distinct : inputs.Pairwise fun p q => name? p ≠ name? q) :
    let image p := outputPath p (decide (1 < inputs.length)) isDirectory (some directory)
    let sibling p := outputPath p (decide (1 < inputs.length)) isDirectory none
    (∀ p ∈ inputs, ∀ q ∈ inputs,
      image p = image q ↔ (stem p = "." ↔ stem q = ".") ∧ (cut (stem p)).1 = (cut (stem q)).1) ∧
    (∀ p ∈ inputs, stem p ≠ "." → (name? (image p) = name? (sibling p) ↔ (cut (stem p)).2 = none)) ∧
    ((∀ p ∈ inputs, (cut (stem p)).2 = none) →
      inputs.Pairwise (fun p q => image p ≠ image q) ∧
        ∀ p ∈ inputs, stem p ≠ "." → name? (image p) = name? (sibling p)) := by
  intro image sibling
  have noSlash : '/' ∉ imageExtension.toList := by decide
  have image_eq (p : String) :
      image p = withExtension (join directory (stem p)) imageExtension := by
    simp [image, outputPath, several]
  have meet : ∀ p ∈ inputs, ∀ q ∈ inputs,
      image p = image q ↔ (stem p = "." ↔ stem q = ".") ∧ (cut (stem p)).1 = (cut (stem q)).1 := by
    intro p hp q hq
    rw [image_eq, image_eq]
    exact withExtension_join_eq_iff (scripts p hp) (scripts q hq) noSlash directory
  have agree : ∀ p ∈ inputs, stem p ≠ "." →
      (name? (image p) = name? (sibling p) ↔ (cut (stem p)).2 = none) := by
    intro p hp proper
    rw [image_eq]
    exact name?_join_eq_iff (scripts p hp) proper noSlash directory
  refine ⟨meet, agree, fun plain => ⟨?_, fun p hp proper => (agree p hp proper).mpr (plain p hp)⟩⟩
  refine distinct.imp_of_mem fun {p q} hp hq apart same => apart ?_
  have stems := ((meet p hp q hq).mp same).2
  rw [cut_fst_eq_iff.mpr (plain p hp), cut_fst_eq_iff.mpr (plain q hq)] at stems
  rw [name?_eq (scripts p hp), name?_eq (scripts q hq), stems]

/-- Three scripts with a dot at the start of a name, a slash behind one, and none in the stems
otherwise. -/
theorem outputPath_collisions_plain :
    let inputs := ["src/a.gs2", "src/.b.gs2", "src/c.gs2/"]
    1 < inputs.length ∧ (∀ p ∈ inputs, extension? p = some sourceExtension) ∧
      (inputs.Pairwise fun p q => name? p ≠ name? q) ∧
      (inputs.Pairwise fun p q => outputPath p true false (some "out") ≠
        outputPath q true false (some "out")) ∧
      name? (outputPath "src/c.gs2/" true false (some "out")) =
        name? (outputPath "src/c.gs2/" true false none) := by
  intro inputs
  have scripts : ∀ p ∈ inputs, extension? p = some sourceExtension := by decide +kernel
  have distinct : inputs.Pairwise fun p q => name? p ≠ name? q := by decide +kernel
  have plain : ∀ p ∈ inputs, (cut (stem p)).2 = none := by decide +kernel
  obtain ⟨-, -, named⟩ := outputPath_collisions "out" false inputs (by decide) scripts distinct
  exact ⟨by decide, scripts, distinct, (named plain).1,
    (named plain).2 _ (by simp [inputs]) (by decide +kernel)⟩

/-- Two scripts of one directory whose names differ, and whose images would both be written to
`out/a.gs2bc`. Beside the scripts they have names of their own. -/
theorem outputPath_collision :
    name? "a.b.gs2" ≠ name? "a.c.gs2" ∧
      outputPath "a.b.gs2" true true (some "out") = "out/a.gs2bc" ∧
      outputPath "a.c.gs2" true true (some "out") = "out/a.gs2bc" ∧
      outputPath "a.b.gs2" true true none = "a.b.gs2bc" ∧ outputPath "a.c.gs2" true true none =
        "a.c.gs2bc" := by
  decide +kernel

end Tool

end GraalScript
