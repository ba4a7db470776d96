import GraalScript.Proofs.Compilation
import GraalScript.Proofs.OutputNames
import GraalScript.Tool.Disk
import Mathlib.Data.List.Induction

/-! The files that a run of the tool leaves on a disk. With several inputs each image goes to a file
that is known from its input alone, and a file that several images go to has the last of them. -/
namespace GraalScript.Tool

namespace Disk

def behind (place : List String) (part : String) : List String :=
  if part = "." then place else if part = ".." then above place else part :: place

def placeOf (path : String) : List String := (Path.parts path).foldl behind []

variable {d d' : Disk}

theorem eq_behind_of_step {place place' : List String} {part : String}
    (h : d.step place part = .ok place') : place' = behind place part := by
  unfold step at h
  unfold behind
  repeat' split at h
  all_goals simp_all

theorem eq_placeOf_of_follow {path : String} {place : List String} (h : d.follow path = .ok place) :
    place = placeOf path := by
  have steps (parts start : List String) (led : parts.foldlM d.step start = .ok place) :
      place = parts.foldl behind start := by
    induction parts generalizing start with
    | nil => exact (Except.ok.inj led).symm
    | cons part parts ih =>
      rw [List.foldlM_cons] at led
      obtain ⟨next, stepped, rest⟩ := bind_eq_ok_iff.mp led
      rw [List.foldl_cons, ← eq_behind_of_step stepped]
      exact ih next rest
  unfold follow at h
  repeat' split at h
  · cases h
  · cases h
  · exact steps _ [] h

theorem files_of_write {path : String} {bytes : List UInt8} (h : d.write path bytes = .ok d') :
    d'.files = d.files.insert (key (placeOf path)) bytes := by
  obtain ⟨place, led, h⟩ := bind_eq_ok_iff.mp h
  rw [← eq_placeOf_of_follow led]
  split at h
  · cases h
  · cases h
    rfl

theorem files_of_makeParts {place parts : List String} (h : d.makeParts place parts = .ok d') :
    d'.files = d.files := by
  induction parts generalizing d place with
  | nil =>
    cases h
    rfl
  | cons part parts ih =>
    obtain ⟨next, -, made⟩ := bind_eq_ok_iff.mp h
    dsimp only at made
    split at made
    · cases made
    · have rest := ih made
      exact rest

theorem files_of_makeDirectory {path : String} (h : d.makeDirectory path = .ok d') :
    d'.files = d.files := by
  unfold makeDirectory at h
  dsimp only at h
  split at h
  · cases h
    rfl
  split at h
  · cases h
  split at h
  · obtain ⟨made, parts, h⟩ := bind_eq_ok_iff.mp h
    obtain ⟨_, -, h⟩ := bind_eq_ok_iff.mp h
    cases h
    exact files_of_makeParts parts
  · exact files_of_makeParts h

end Disk

abbrev Act := ExceptT FileError (StateM Desk)

/-- The action takes one desk to another and gives a result. -/
def Act.Ends {α : Type} (x : Act α) (desk : Desk) (a : α) (desk' : Desk) : Prop :=
  x.run.run desk = (.ok a, desk')

namespace Act

variable {α β : Type} {desk desk' : Desk}

theorem eq_of_ends_pure {a b : α} (h : Ends (pure a) desk b desk') : b = a ∧ desk' = desk := by
  cases h
  exact ⟨rfl, rfl⟩

theorem exists_of_ends_bind {x : Act α} {f : α → Act β} {b : β} (h : Ends (x >>= f) desk b desk') :
    ∃ a middle, Ends x desk a middle ∧ Ends (f a) middle b desk' := by
  unfold Ends at h
  rw [ExceptT.run_bind, StateT.run_bind] at h
  rcases first : x.run.run desk with ⟨e | a, middle⟩
  · rw [first] at h
    cases h
  · rw [first] at h
    exact ⟨a, middle, first, h⟩

def KeepsDisk (x : Act α) : Prop := ∀ desk a desk', Ends x desk a desk' → desk'.disk = desk.disk

theorem keepsDisk_pure (a : α) : KeepsDisk (pure a : Act α) := by
  intro desk b desk' h
  rw [(eq_of_ends_pure h).2]

theorem KeepsDisk.bind {x : Act α} {f : α → Act β} (first : KeepsDisk x)
    (rest : ∀ a, KeepsDisk (f a)) : KeepsDisk (x >>= f) := by
  intro desk b desk' h
  obtain ⟨a, middle, ran, ran'⟩ := exists_of_ends_bind h
  exact (rest a middle b desk' ran').trans (first desk a middle ran)

theorem keepsDisk_mapM {f : α → Act β} (each : ∀ a, KeepsDisk (f a)) (as : List α) :
    KeepsDisk (as.mapM f) := by
  induction as with
  | nil => exact keepsDisk_pure []
  | cons a as ih =>
    rw [List.mapM_cons]
    exact (each a).bind fun _ => ih.bind fun _ => keepsDisk_pure _

end Act

open Act

variable {options : Options} {config : Config} {desk desk' : Desk}

theorem keepsDisk_logLine (options : Options) (level : LogLevel) (text : String) :
    KeepsDisk (logLine Desk.host options level text) := by
  intro desk a desk' h
  unfold logLine at h
  split at h
  · cases h
    rfl
  · cases h
    rfl

theorem read_of_ends {path text : String} (h : Ends (readText Desk.host path) desk text desk') :
    desk' = desk ∧ ∃ bytes, desk.disk.read path = .ok bytes ∧ Text.ofBytes? bytes = some text := by
  obtain ⟨bytes, middle, read, h⟩ := exists_of_ends_bind h
  have found : desk.disk.read path = .ok bytes ∧ desk = middle := Prod.mk.inj read
  obtain ⟨found, rfl⟩ := found
  cases known : Text.ofBytes? bytes with
  | none =>
    rw [known] at h
    cases h
  | some text' =>
    rw [known] at h
    cases h
    exact ⟨rfl, bytes, found, known⟩

theorem keepsDisk_readText (path : String) : KeepsDisk (readText Desk.host path) := by
  intro desk text desk' h
  rw [(read_of_ends h).1]

theorem keepsDisk_loadConfig (options : Options) : KeepsDisk (loadConfig Desk.host options) := by
  unfold loadConfig
  split
  · exact keepsDisk_pure _
  · refine (keepsDisk_readText _).bind fun text => ?_
    split
    · exact fun _ _ _ h => nomatch h
    · exact (keepsDisk_logLine _ _ _).bind fun _ => keepsDisk_pure _

theorem keepsDisk_expandInput (path : String) : KeepsDisk (expandInput Desk.host path) := by
  intro desk inputs desk' h
  obtain ⟨isDirectory, middle, looked, h⟩ := exists_of_ends_bind h
  cases looked
  split at h
  · obtain ⟨names, middle, listed, h⟩ := exists_of_ends_bind h
    have same : desk = middle := (Prod.mk.inj listed).2
    rw [(eq_of_ends_pure h).2, same]
  · rw [(eq_of_ends_pure h).2]

theorem eq_of_save {change : Except FileError Disk} {x : Unit}
    (h : (Desk.save change).run desk = (.ok x, desk')) : change = .ok desk'.disk := by
  cases change with
  | error e => cases h
  | ok disk =>
    cases h
    rfl

theorem outputPath_several (input : String) (isDirectory : Bool) (output : Option String) :
    outputPath input true isDirectory output = outputPath input true false output := by
  cases output <;> rfl

theorem prepared_of_ends {input path : String} {output : Option String}
    (h : Ends (prepareOutput Desk.host input true output) desk path desk') :
    path = outputPath input true false output ∧ desk'.disk.files = desk.disk.files := by
  cases output with
  | none =>
    obtain ⟨named, kept⟩ := eq_of_ends_pure h
    exact ⟨named, congrArg (·.disk.files) kept⟩
  | some directory =>
    obtain ⟨isDirectory, middle, looked, rest⟩ := exists_of_ends_bind h
    cases looked
    dsimp only at rest
    rw [Bool.true_or, if_pos rfl] at rest
    obtain ⟨_, made, making, named⟩ := exists_of_ends_bind rest
    obtain ⟨named, kept⟩ := eq_of_ends_pure named
    have changed : desk.disk.makeDirectory directory = .ok made.disk := eq_of_save making
    rw [named, kept]
    exact ⟨outputPath_several input _ _, Disk.files_of_makeDirectory changed⟩

/-- The key of the file that the image of an input goes to, when there are several. -/
def imageKey (options : Options) (input : String) : String :=
  Disk.key (Disk.placeOf (outputPath input true false options.output))

theorem imageKey_eq_of_cut {directory p q : String} (output : options.output = some directory)
    (hp : Path.extension? p = some sourceExtension) (hq : Path.extension? q = some sourceExtension)
    (dots : Path.stem p = "." ↔ Path.stem q = ".")
    (same : (Path.cut (Path.stem p)).1 = (Path.cut (Path.stem q)).1) :
    imageKey options p = imageKey options q := by
  have meet :=
    (withExtension_join_eq_iff hp hq (by decide : '/' ∉ imageExtension.toList) directory).mpr
    ⟨dots, same⟩
  rw [imageKey, imageKey, output]
  exact congrArg (fun path => Disk.key (Disk.placeOf path)) meet

/-- The image of an input that can be read from a disk. -/
def ImageOf (options : Options) (config : Config) (disk : Disk) (input : String)
    (image : List UInt8) : Prop :=
  ∃ bytes text output, disk.read input = .ok bytes ∧ Text.ofBytes? bytes = some text ∧
    (compile config.settings (if options.noHeader then none
      else some (scriptOf options config input)) text).result = .ok output ∧ output.image = image

/-- An outcome leaves its image among the files, and a failure leaves nothing. -/
def Leaves (options : Options) (input : String) (result : Except CompileError Output)
    (files files' : Std.TreeMap String (List UInt8)) (done : Bool) : Prop :=
  done = false ∧ files' = files ∨
  done = true ∧ ∃ output, result = .ok output ∧
    files' = files.insert (imageKey options input) output.image

theorem leaves_outcome {input : String} {result : Except CompileError Output} {source : Source}
    {done : Bool} (h : Ends (match result with
      | .ok output => do
        let path ← prepareOutput Desk.host input true options.output
        ExceptT.mk (Desk.host.write path output.image)
        logLine Desk.host options .info s!"{input} -> {path} ({output.image.length} bytes)"
        return true
      | .error e => do
        Desk.host.printError (input ++ ": " ++ (e.diagnostic source).message)
        return false : Act Bool) desk done desk') :
    Leaves options input result desk.disk.files desk'.disk.files done := by
  cases result with
  | error e =>
    cases h
    exact .inl ⟨rfl, rfl⟩
  | ok output =>
    obtain ⟨path, desk₁, prepared, h⟩ := exists_of_ends_bind h
    obtain ⟨⟨⟩, desk₂, written, h⟩ := exists_of_ends_bind h
    obtain ⟨⟨⟩, desk₃, logged, h⟩ := exists_of_ends_bind h
    obtain ⟨rfl, rfl⟩ := eq_of_ends_pure h
    obtain ⟨rfl, same⟩ := prepared_of_ends prepared
    have changed : desk₁.disk.write _ output.image = .ok desk₂.disk := eq_of_save written
    refine .inr ⟨rfl, output, rfl, ?_⟩
    rw [keepsDisk_logLine _ _ _ _ _ _ logged, Disk.files_of_write changed, same]
    rfl

/-- An input that compiles leaves its image, and one that does not leaves nothing. -/
theorem files_of_compileFile {input : String} {done : Bool}
    (h : Ends (compileFile Desk.host options config true input) desk done desk') :
    done = false ∧ desk'.disk.files = desk.disk.files ∨
    done = true ∧ ∃ image, ImageOf options config desk.disk input image ∧
      desk'.disk.files = desk.disk.files.insert (imageKey options input) image := by
  obtain ⟨text, desk₁, reading, ran⟩ := exists_of_ends_bind h
  obtain ⟨rfl, bytes, read, known⟩ := read_of_ends reading
  have outcome : Leaves options input (compile config.settings
      (if options.noHeader then none else some (scriptOf options config input)) text).result
      desk₁.disk.files desk'.disk.files done := by
    dsimp only at ran
    split at ran
    next bare =>
      rw [if_pos bare]
      exact leaves_outcome ran
    next headed =>
      obtain ⟨_, desk₂, logged, ran⟩ := exists_of_ends_bind ran
      rw [if_neg headed, ← keepsDisk_logLine _ _ _ _ _ _ logged]
      exact leaves_outcome ran
  obtain ⟨failed, kept⟩ | ⟨compiled, output, made, written⟩ := outcome
  · exact .inl ⟨failed, kept⟩
  · exact .inr ⟨compiled, _, ⟨bytes, text, output, read, known, made, rfl⟩, written⟩

/-- What has become of a file: it is as it was, unless images have gone to it; then it has the image
of the last input, as it could be read after the inputs before. -/
def FileOf (options : Options) (config : Config) (inputs : List String) (desk desk' : Desk)
    (k : String) : Prop :=
  (∀ input ∈ inputs, imageKey options input ≠ k) ∧ desk'.disk.files[k]? = desk.disk.files[k]? ∨
  ∃ before input after done middle image, inputs = before ++ input :: after ∧
    imageKey options input = k ∧ (∀ other ∈ after, imageKey options other ≠ k) ∧
    Ends (before.mapM (compileFile Desk.host options config true)) desk done middle ∧
    ImageOf options config middle.disk input image ∧ desk'.disk.files[k]? = some image

/-- Inputs that all compile. The induction is on the last one, which may write over what is
there. -/
theorem fileOf_of_mapM {inputs : List String} {done : List Bool}
    (h : Ends (inputs.mapM (compileFile Desk.host options config true)) desk done desk')
    (compiled : ∀ b ∈ done, b = true) (k : String) : FileOf options config inputs desk desk' k := by
  induction inputs using List.reverseRecOn generalizing done desk' with
  | nil =>
    cases h
    exact .inl ⟨nofun, rfl⟩
  | append_singleton inputs input ih =>
    rw [List.mapM_append] at h
    obtain ⟨first, middle, ran, h⟩ := exists_of_ends_bind h
    obtain ⟨last, desk₁, ran', h⟩ := exists_of_ends_bind h
    obtain ⟨rfl, rfl⟩ := eq_of_ends_pure h
    rw [List.mapM_cons] at ran'
    obtain ⟨own, desk₂, ran', rest⟩ := exists_of_ends_bind ran'
    cases rest
    rw [List.forall_mem_append] at compiled
    rcases files_of_compileFile ran' with ⟨failed, -⟩ | ⟨-, image, imageOf, files⟩
    · exact absurd (compiled.2 own (List.mem_singleton_self own)) (by simp [failed])
    · by_cases own : imageKey options input = k
      · refine .inr ⟨inputs, input, [], first, middle, image, rfl, own, nofun, ran, imageOf, ?_⟩
        rw [files, own, Std.TreeMap.getElem?_insert_self]
      · have kept : desk'.disk.files[k]? = middle.disk.files[k]? := by
          rw [files, Std.TreeMap.getElem?_insert, if_neg (by simpa using own)]
        rcases ih ran compiled.1 with ⟨others, same⟩ |
          ⟨before, other, after, done, early, image, rfl, here, later, ran, imageOf, found⟩
        · refine .inl ⟨?_, kept.trans same⟩
          rw [List.forall_mem_append, List.forall_mem_singleton]
          exact ⟨others, own⟩
        · refine .inr ⟨before, other, after ++ [input], done, early, image, ?_, here, ?_,
            ran, imageOf, kept.trans found⟩
          · rw [List.append_assoc, List.cons_append]
          · rw [List.forall_mem_append, List.forall_mem_singleton]
            exact ⟨later, own⟩

/-- The configuration of a run, and its inputs with the sources of directories. -/
def Starts (options : Options) (desk : Desk) (config : Config) (inputs : List String)
    (desk' : Desk) : Prop :=
  ∃ middle lists, Ends (loadConfig Desk.host options) desk config middle ∧
    Ends (options.inputs.mapM (expandInput Desk.host)) middle lists desk' ∧ inputs = lists.flatten

/-- A run over several inputs that reports no failure. All inputs have compiled, but their images
are not all there: of those that go to one file, the last is. Other files are as before. -/
theorem fileOf_of_run {args : List String} (parsed : Options.parse args = some options)
    (compiling : options.mode = .compile) (ran : (run Desk.host args).run desk = (0, desk')) :
    ∃ config inputs ready, Starts options desk config inputs ready ∧
      ready.disk = desk.disk ∧
        (1 < inputs.length → ∀ k, FileOf options config inputs ready desk' k) := by
  have done : Ends (process Desk.host options) desk 0 desk' := by
    unfold run at ran
    rw [parsed] at ran
    rcases result : StateT.run (process Desk.host options) desk with ⟨e | code, last⟩
    · rw [StateT.run_bind, result] at ran
      cases ran
    · rw [StateT.run_bind, result] at ran
      cases ran
      exact result
  obtain ⟨config, middle, loaded, done⟩ := exists_of_ends_bind done
  obtain ⟨lists, ready, expanded, done⟩ := exists_of_ends_bind done
  refine ⟨config, lists.flatten, ready, ⟨middle, lists, loaded, expanded, rfl⟩, ?_,
    fun several k => ?_⟩
  · rw [keepsDisk_mapM keepsDisk_expandInput _ _ _ _ expanded,
      keepsDisk_loadConfig options _ _ _ loaded]
  · have some : lists.flatten.isEmpty = false := by
      cases all : lists.flatten with
      | nil => simp [all] at several
      | cons => rfl
    dsimp only at done
    rw [some, if_neg Bool.false_ne_true, compiling, decide_eq_true several] at done
    obtain ⟨results, last, compiled, done⟩ := exists_of_ends_bind done
    split at done
    next none =>
      obtain ⟨-, rfl⟩ := eq_of_ends_pure done
      refine fileOf_of_mapM compiled (fun result inside => ?_) k
      cases result with
      | false => exact absurd inside (List.count_eq_zero.mp none)
      | true => rfl
    next =>
      obtain ⟨_, _, _, done⟩ := exists_of_ends_bind done
      exact absurd (eq_of_ends_pure done).1 (by decide)

end GraalScript.Tool
