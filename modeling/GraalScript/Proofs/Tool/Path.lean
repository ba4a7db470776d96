import GraalScript.Tool.Path
import Mathlib.Data.List.TakeWhile

/-! Paths taken apart and put together. A path that names something is a directory, a last part and
a tail that does not matter; an extension is put behind the stem of the last part, wherever the path
ends. -/
namespace GraalScript

namespace Path

section marks

variable {mark : Char} {front rest : List Char}

theorem dropWhile_eq (mark : Char) (cs : List Char) :
    cs.dropWhile (· != mark) = [] ∨ ∃ rest, cs.dropWhile (· != mark) = mark :: rest := by
  induction cs with
  | nil => exact .inl rfl
  | cons c cs ih =>
    by_cases same : c = mark
    · exact .inr ⟨cs, by simp [same]⟩
    · simpa [same] using ih

theorem span_append (before : mark ∉ front) (stops : rest = [] ∨ ∃ later, rest = mark :: later) :
    (front ++ rest).takeWhile (· != mark) = front ∧
      (front ++ rest).dropWhile (· != mark) = rest := by
  have passes : ∀ c ∈ front, (c != mark) = true := by
    intro c inside
    rw [bne_iff_ne]
    rintro rfl
    exact before inside
  rw [List.takeWhile_append_of_pos passes, List.dropWhile_append_of_pos passes]
  rcases stops with rfl | ⟨later, rfl⟩ <;> simp

end marks

/-- What the end of a path may have behind its last part, in reverse. -/
inductive Tail : List Char → Prop
  | nil : Tail []
  | slash {cs : List Char} (h : Tail cs) : Tail ('/' :: cs)
  | dot {cs : List Char} (h : Tail cs) : Tail ('.' :: '/' :: cs)

theorem exists_tail (cs : List Char) : ∃ tail, Tail tail ∧ cs = tail ++ dropTail cs := by
  fun_induction dropTail cs with
  | case1 rest ih =>
    obtain ⟨tail, h, same⟩ := ih
    exact ⟨'/' :: tail, .slash h, congrArg ('/' :: ·) same⟩
  | case2 rest ih =>
    obtain ⟨tail, h, same⟩ := ih
    exact ⟨'.' :: '/' :: tail, .dot h, congrArg ('.' :: '/' :: ·) same⟩
  | case3 rest => exact ⟨[], .nil, rfl⟩

theorem dropTail_append {tail : List Char} (h : Tail tail) (cs : List Char) :
    dropTail (tail ++ cs) = dropTail cs := by
  induction h with
  | nil => rfl
  | slash _ ih => simpa [dropTail] using ih
  | dot _ ih => simpa [dropTail] using ih

theorem Tail.drop {cs : List Char} (h : Tail cs) (n : Nat) : Tail (cs.drop n) := by
  induction h generalizing n with
  | nil => simpa using Tail.nil
  | slash h ih =>
    cases n with
    | zero => exact .slash h
    | succ n => exact ih n
  | dot h ih =>
    rcases n with _ | _ | n
    · exact .dot h
    · exact .slash h
    · exact ih n

/-- The last part of a path: it has no slash, and is neither empty nor the directory itself. -/
structure IsPart (name : String) : Prop where
  ne_empty : name ≠ ""
  ne_dot : name ≠ "."
  no_slash : '/' ∉ name.toList

/-- What may stand in front of the last part. -/
def Leads (directory : String) : Prop := directory = "" ∨ endsWithSlash directory = true

variable {path directory name ext : String} {tail : List Char}

theorem dropTail_part (part : IsPart name) (cs : List Char) :
    dropTail (name.toList.reverse ++ cs) = name.toList.reverse ++ cs := by
  have inside : '/' ∉ name.toList.reverse := by simpa using part.no_slash
  have filled : name.toList.reverse ≠ [] := by simpa using part.ne_empty
  have proper : name.toList.reverse ≠ ['.'] := by
    intro same
    exact part.ne_dot (String.toList_inj.mp (List.reverse_inj.mp same))
  unfold dropTail
  split
  next same =>
    rcases shape : name.toList.reverse with _ | ⟨c, cs⟩ <;> simp_all
  next same =>
    rcases shape : name.toList.reverse with _ | ⟨c, _ | ⟨d, cs⟩⟩ <;> simp_all
  next => rfl

theorem span_part (noSlash : '/' ∉ name.toList) (leads : Leads directory) :
    (name.toList.reverse ++ directory.toList.reverse).takeWhile (· != '/') = name.toList.reverse ∧
      (name.toList.reverse ++ directory.toList.reverse).dropWhile (· != '/') =
        directory.toList.reverse := by
  refine span_append (by simpa using noSlash) ?_
  rcases leads with rfl | slash
  · exact .inl rfl
  · have last : directory.toList.getLast? = some '/' := by simpa [endsWithSlash] using slash
    obtain ⟨front, shape⟩ := List.getLast?_eq_some_iff.mp last
    exact .inr ⟨front.reverse, by simp [shape]⟩

theorem append_unique {directory' name' : String} (noSlash : '/' ∉ name.toList)
    (noSlash' : '/' ∉ name'.toList) (leads : Leads directory) (leads' : Leads directory')
    (same : directory ++ name = directory' ++ name') : directory = directory' ∧ name = name' := by
  have reversed :
      name.toList.reverse ++ directory.toList.reverse = name'.toList.reverse ++
        directory'.toList.reverse := by
    simpa using congrArg (List.reverse ∘ String.toList) same
  obtain ⟨taken, left⟩ := span_part noSlash leads
  obtain ⟨taken', left'⟩ := span_part noSlash' leads'
  rw [reversed] at taken left
  exact ⟨String.toList_inj.mp (List.reverse_inj.mp (left.symm.trans left')),
    String.toList_inj.mp (List.reverse_inj.mp (taken.symm.trans taken'))⟩

theorem split?_append (part : IsPart name) (leads : Leads directory) (h : Tail tail.reverse) :
    split? (directory ++ name ++ String.ofList tail) = if name = ".." then none
      else some (directory, name) := by
  have reversed : dropTail (directory ++ name ++ String.ofList tail).toList.reverse =
      name.toList.reverse ++ directory.toList.reverse := by
    simp only [String.toList_append, String.toList_ofList, List.reverse_append]
    rw [dropTail_append h, dropTail_part part]
  obtain ⟨taken, left⟩ := span_part part.no_slash leads
  simp only [split?, reversed, taken, left, List.reverse_reverse, String.ofList_toList]
  simp [part.ne_empty, part.ne_dot]

theorem split?_part (part : IsPart name) (leads : Leads directory) :
    split? (directory ++ name) = if name = ".." then none else some (directory, name) := by
  have whole : split? (directory ++ name ++ String.ofList []) = _ := split?_append part leads .nil
  rwa [String.ofList_nil, String.append_empty] at whole

/-- A path that names something is a directory, the name, and what is dropped behind it. -/
theorem exists_of_split? (h : split? path = some (directory, name)) :
    IsPart name ∧ name ≠ ".." ∧ Leads directory ∧
      ∃ tail, Tail tail.reverse ∧ path = directory ++ name ++ String.ofList tail := by
  obtain ⟨tail, isTail, shape⟩ := exists_tail path.toList.reverse
  unfold split? at h
  generalize dropTail path.toList.reverse = reversed at *
  dsimp only at h
  split at h
  · cases h
  next ok =>
    obtain ⟨rfl, rfl⟩ := Prod.mk.inj (Option.some.inj h)
    simp only [Bool.or_eq_true, decide_eq_true_eq, not_or] at ok
    refine ⟨⟨ok.1.1, ok.1.2, ?_⟩, ok.2, ?_, tail.reverse, by rwa [List.reverse_reverse], ?_⟩
    · rw [String.toList_ofList, List.mem_reverse]
      exact mt List.mem_takeWhile_imp Bool.false_ne_true
    · rcases dropWhile_eq '/' reversed with none | ⟨front, found⟩
      · exact .inl (by rw [none]; rfl)
      · exact .inr (by simp [endsWithSlash, found])
    · apply String.toList_inj.mp
      simp only [String.toList_append, String.toList_ofList]
      rw [← List.reverse_append, ← List.reverse_append, List.takeWhile_append_dropWhile, ← shape,
        List.reverse_reverse]

/-! Cutting off extensions. -/

theorem cut_append {stem ext : String} (h : stem ≠ "") (dot : '.' ∉ ext.toList) :
    cut (stem ++ "." ++ ext) = (stem, some ext) := by
  have reversed : (stem ++ "." ++ ext).toList.reverse = ext.toList.reverse ++
      '.' :: stem.toList.reverse := by simp
  have before : '.' ∉ ext.toList.reverse := by simpa using dot
  obtain ⟨taken, left⟩ := span_append before (.inr ⟨stem.toList.reverse, rfl⟩)
  have filled : stem.toList.reverse ≠ [] := by simpa using h
  unfold cut
  simp only [reversed, taken, left, List.reverse_reverse, String.ofList_toList]

theorem eq_of_cut {stem ext : String} (h : cut name = (stem, some ext)) :
    name = stem ++ "." ++ ext ∧ stem ≠ "" ∧ '.' ∉ ext.toList := by
  unfold cut at h
  dsimp only at h
  split at h
  · cases h
  · cases h
  next c front long rest =>
    obtain ⟨rfl, same⟩ := Prod.mk.inj h
    cases same
    have parts : name.toList.reverse.takeWhile (· != '.') ++ c :: front = name.toList.reverse := by
      rw [← rest, List.takeWhile_append_dropWhile]
    obtain rfl : c = '.' := by
      obtain none | ⟨later, found⟩ := dropWhile_eq '.' name.toList.reverse
      · cases none.symm.trans rest
      · exact (List.cons.inj (rest.symm.trans found)).1
    refine ⟨String.toList_inj.mp ?_, ?_, ?_⟩
    · simpa using (congrArg List.reverse parts).symm
    · intro empty
      have none : front = [] := by simpa using congrArg String.toList empty
      exact long none
    · rw [String.toList_ofList, List.mem_reverse]
      exact mt List.mem_takeWhile_imp Bool.false_ne_true

theorem eq_of_cut_none {stem : String} (h : cut name = (stem, none)) : stem = name := by
  unfold cut at h
  dsimp only at h
  split at h <;> cases h <;> rfl

theorem cut_fst_eq_iff : (cut name).1 = name ↔ (cut name).2 = none := by
  rcases whole : cut name with ⟨stem, _ | ext⟩
  · exact ⟨fun _ => rfl, fun _ => eq_of_cut_none whole⟩
  · obtain ⟨rfl, -, -⟩ := eq_of_cut whole
    have longer : stem ≠ stem ++ "." ++ ext := by
      intro same
      have length := congrArg (List.length ∘ String.toList) same
      simp at length
    simpa using longer

theorem cut_noSlash (noSlash : '/' ∉ name.toList) : '/' ∉ (cut name).1.toList := by
  rcases whole : cut name with ⟨stem, _ | ext⟩
  · rwa [eq_of_cut_none whole]
  · obtain ⟨rfl, -, -⟩ := eq_of_cut whole
    intro inside
    exact noSlash (by simp [inside])

theorem cut_ne_empty (h : name ≠ "") : (cut name).1 ≠ "" := by
  rcases whole : cut name with ⟨stem, _ | ext⟩
  · rwa [eq_of_cut_none whole]
  · exact (eq_of_cut whole).2.1

/-! Replacing extensions. -/

theorem take_sub_append (front : List Char) {back : List Char} {n : Nat} (le : n ≤ back.length) :
    (front ++ back).take ((front ++ back).length - n) = front ++ back.take (back.length - n) := by
  rw [List.length_append, Nat.add_sub_assoc le, List.take_length_add_append]

theorem dropExtension_eq {stem old : String} (h : split? path = some (directory, name))
    (whole : cut name = (stem, some old)) :
    dropExtension path =
      String.ofList (path.toList.take (path.toList.length - old.toList.length)) := by
  simp [dropExtension, extension?, h, whole]

/-- As many characters are dropped from the end as the extension has. If the path goes on behind the
name, they are not those of the extension, or not all; the stem stays in any case. -/
theorem exists_dropExtension_eq {stem old : String} (h : split? path = some (directory, name))
    (whole : cut name = (stem, some old)) :
    split? (dropExtension path) = some (directory, name) ∨
    ∃ part, '.' ∉ part.toList ∧ '/' ∉ part.toList ∧ (part = "" → path = directory ++ name) ∧
      dropExtension path = directory ++ (stem ++ "." ++ part) := by
  obtain ⟨isPart, notUp, leads, tail, isTail, shape⟩ := exists_of_split? h
  obtain ⟨name_eq, -, noDot⟩ := eq_of_cut whole
  rw [dropExtension_eq h whole]
  by_cases long : old.toList.length ≤ tail.length
  · left
    have kept : Tail (tail.take (tail.length - old.toList.length)).reverse := by
      rw [List.reverse_take]
      exact isTail.drop _
    have same : String.ofList (path.toList.take (path.toList.length - old.toList.length)) =
        directory ++ name ++ String.ofList (tail.take (tail.length - old.toList.length)) := by
      apply String.toList_inj.mp
      rw [shape]
      simp only [String.toList_append, String.toList_ofList]
      exact take_sub_append _ long
    rw [same, split?_append isPart leads kept, if_neg notUp]
  · right
    refine ⟨String.ofList (old.toList.take tail.length), ?_, ?_, ?_, ?_⟩
    · rw [String.toList_ofList]
      exact fun inside => noDot (List.mem_of_mem_take inside)
    · rw [String.toList_ofList]
      intro inside
      refine isPart.no_slash ?_
      rw [name_eq]
      simp [List.mem_of_mem_take inside]
    · intro empty
      have none : old.toList.take tail.length = [] := by simpa using congrArg String.toList empty
      have short : tail = [] := by
        rcases List.take_eq_nil_iff.mp none with zero | none
        · exact List.length_eq_zero_iff.mp zero
        · exact absurd (by simp [none]) long
      rw [shape, short]
      exact String.append_empty
    · apply String.toList_inj.mp
      rw [shape, name_eq]
      simp only [String.toList_append, String.toList_ofList, ← List.append_assoc]
      have enough : old.toList.length ≤ (old.toList ++ tail).length := by simp
      rw [List.append_assoc _ old.toList, take_sub_append _ enough, List.length_append,
        Nat.add_sub_cancel_left, List.take_append_of_le_length (Nat.le_of_not_le long)]

section extended

variable {stem part : String}

theorem isPart_extended (filled : stem ≠ "") (noSlash : '/' ∉ stem.toList)
    (noSlash' : '/' ∉ part.toList) : IsPart (stem ++ "." ++ part) := by
  have long : 2 ≤ (stem ++ "." ++ part).toList.length := by
    have some := List.length_pos_iff.mpr (show stem.toList ≠ [] by simpa using filled)
    have dot : ".".toList.length = 1 := rfl
    rw [String.toList_append, String.toList_append, List.length_append, List.length_append, dot]
    omega
  refine ⟨?_, ?_, by simp [noSlash, noSlash']⟩
  all_goals
    intro same
    rw [same] at long
    exact absurd long (by decide)

theorem extended_eq_up (filled : stem ≠ "") (same : stem ++ "." ++ part = "..") :
    stem = "." ∧ part = "" := by
  have whole : stem.toList ++ '.' :: part.toList = ['.', '.'] := by
    simpa using congrArg String.toList same
  have filled' : stem.toList ≠ [] := by simpa using filled
  rcases chars : stem.toList with _ | ⟨c, _ | ⟨d, cs⟩⟩ <;> rw [chars] at whole filled'
  · exact absurd rfl filled'
  · obtain ⟨rfl, -, none⟩ : c = '.' ∧ True ∧ part.toList = [] := by simpa using whole
    exact ⟨String.toList_inj.mp chars, String.toList_inj.mp none⟩
  · simp at whole

end extended

/-- The new extension stands behind the stem of the last part, and what followed that part is
gone. -/
theorem withExtension_of_split? (h : split? path = some (directory, name))
    (proper : (cut name).1 = "." → path ≠ directory ++ name) :
    withExtension path ext = directory ++ (cut name).1 ++ "." ++ ext := by
  obtain ⟨isPart, -, leads, -⟩ := exists_of_split? h
  rcases whole : cut name with ⟨stem, _ | old⟩
  · simp [withExtension, dropExtension, extension?, setExtension, h, whole]
  · rw [whole] at proper
    obtain ⟨name_eq, filled, -⟩ := eq_of_cut whole
    rcases exists_dropExtension_eq h whole with same | ⟨part, noDot, noSlash, last, same⟩
    · simp [withExtension, setExtension, same, whole]
    · have inStem : '/' ∉ stem.toList := by
        intro inside
        exact isPart.no_slash (by simp [name_eq, inside])
      have split := split?_part (isPart_extended filled inStem noSlash) leads
      rw [if_neg, ← same] at split
      · simp [withExtension, setExtension, split, cut_append filled noDot]
      · intro up
        obtain ⟨dot, empty⟩ := extended_eq_up filled up
        exact proper dot (last empty)

/-! Files of a directory. -/

def root (directory : String) : String :=
  if directory = "" || endsWithSlash directory then directory else directory ++ "/"

theorem join_eq (directory name : String) : join directory name = root directory ++ name := by
  unfold join root
  split <;> rfl

theorem leads_root (directory : String) : Leads (root directory) := by
  unfold root
  split
  next ends => simpa [Leads] using ends
  next => exact .inr (by simp [endsWithSlash])

/-- The name that a part gets from its stem; the way up gets none. -/
def extended (ext stem : String) : String := if stem = "." then ".." else stem ++ "." ++ ext

theorem isPart_up : IsPart ".." := ⟨by decide, by decide, by decide⟩

theorem withExtension_join (part : IsPart name) (directory ext : String) :
    withExtension (join directory name) ext = root directory ++ extended ext (cut name).1 := by
  rw [join_eq]
  have leads := leads_root directory
  have split := split?_part part leads
  by_cases up : name = ".."
  · subst up
    rw [if_pos rfl] at split
    simp [withExtension, dropExtension, extension?, setExtension, split, extended,
      show (cut "..").1 = "." by decide]
  · rw [if_neg up] at split
    by_cases dot : (cut name).1 = "."
    · -- the extension is all that tells the name from the way up
      rcases whole : cut name with ⟨stem, _ | old⟩ <;> rw [whole] at dot
      · exact absurd ((eq_of_cut_none whole).symm.trans dot) part.ne_dot
      · obtain rfl : stem = "." := dot
        have chars : (root directory ++ name).toList = (root directory ++ "..").toList ++
            old.toList := by
          simp [(eq_of_cut whole).1]
        have dropped : dropExtension (root directory ++ name) = root directory ++ ".." := by
          rw [dropExtension_eq split whole, chars, List.length_append, Nat.add_sub_cancel,
            List.take_left, String.ofList_toList]
        have none := split?_part isPart_up leads
        rw [if_pos rfl] at none
        simp [withExtension, setExtension, dropped, none, extended]
    · rw [withExtension_of_split? split fun same => absurd same dot, extended, if_neg dot,
        String.append_assoc, String.append_assoc, String.append_assoc]

theorem withExtension_join_dot_ne (part : IsPart name) (noSlash : '/' ∉ ext.toList)
    (directory : String) : withExtension (join directory ".") ext ≠ root directory ++ name := by
  rw [join_eq]
  have leads := leads_root directory
  intro same
  rcases split : split? (root directory ++ ".") with _ | ⟨above, last⟩
  · have stays : withExtension (root directory ++ ".") ext = root directory ++ "." := by
      simp [withExtension, dropExtension, extension?, setExtension, split]
    rw [stays] at same
    exact part.ne_dot (append_unique (by decide) part.no_slash leads leads same).2.symm
  · obtain ⟨isPart, -, leads', tail, -, shape⟩ := exists_of_split? split
    have proper : root directory ++ "." ≠ above ++ last := fun eq =>
      isPart.ne_dot (append_unique (by decide) isPart.no_slash leads leads' eq).2.symm
    rw [withExtension_of_split? split fun _ => proper, String.append_assoc,
      String.append_assoc] at same
    have inLast : '/' ∉ ((cut last).1 ++ ("." ++ ext)).toList := by
      simp [cut_noSlash isPart.no_slash, noSlash]
    obtain ⟨rfl, -⟩ := append_unique inLast part.no_slash leads' leads same
    have chars : last.toList ++ tail = ['.'] := by
      simpa using (congrArg String.toList shape).symm
    rcases List.append_eq_singleton_iff.mp chars with ⟨none, -⟩ | ⟨dot, -⟩
    · exact isPart.ne_empty (String.toList_inj.mp none)
    · exact isPart.ne_dot (String.toList_inj.mp dot)

theorem isPart_extended_cut (part : IsPart name) (noSlash : '/' ∉ ext.toList) :
    IsPart (extended ext (cut name).1) := by
  unfold extended
  split
  · exact isPart_up
  · exact isPart_extended (cut_ne_empty part.ne_empty) (cut_noSlash part.no_slash) noSlash

theorem extended_inj {stem stem' : String} (filled : stem ≠ "") (filled' : stem' ≠ "")
    (same : extended ext stem = extended ext stem') : stem = stem' := by
  unfold extended at same
  split at same <;> split at same
  next dot dot' => rw [dot, dot']
  next notDot => exact absurd (extended_eq_up filled' same.symm).1 notDot
  next notDot _ => exact absurd (extended_eq_up filled same).1 notDot
  next =>
    apply String.toList_inj.mp
    simpa using congrArg String.toList same

/-- The name of the file that a path leads to. -/
def name? (path : String) : Option String := (split? path).map Prod.snd

theorem name?_join (part : IsPart name) (noSlash : '/' ∉ ext.toList) (directory : String) :
    name? (withExtension (join directory name) ext) =
      if (cut name).1 = "." then none else some ((cut name).1 ++ "." ++ ext) := by
  rw [withExtension_join part, name?,
    split?_part (isPart_extended_cut part noSlash) (leads_root directory)]
  unfold extended
  split
  · rfl
  next notDot =>
    have notUp : (cut name).1 ++ "." ++ ext ≠ ".." := fun up =>
      notDot (extended_eq_up (cut_ne_empty part.ne_empty) up).1
    rw [if_neg notUp]
    rfl

end Path

end GraalScript
