import GraalScript.Handles
import GraalScript.Proofs.Capacity
import GraalScript.Proofs.Code.Texts
import GraalScript.Proofs.Compilation

/-! Texts of callers that end them with a zero byte. Such a text has no zero character, neither has
a line of it, and so none of the messages about it has one: a message that is ended by a zero byte
is told whole. -/
namespace GraalScript

namespace Text

theorem ofNat_ne_zero {n : Nat} (valid : n.isValidChar) (pos : 0 < n) : Char.ofNat n ≠ '\x00' := by
  intro same
  have value := congrArg Char.toNat same
  rw [Char.ofNat, dif_pos valid] at value
  exact absurd (show n = 0 from value) (Nat.ne_of_gt pos)

theorem readTail_bounds {ranges : List (Nat × Nat)} {bs : List UInt8}
    {least value greatest result n : Nat} (tails : ∀ r ∈ ranges, 0x80 ≤ r.1 ∧ r.2 ≤ 0xBF)
    (lower : least ≤ value) (upper : value ≤ greatest)
    (h : readTail value ranges bs = (some result, n)) :
    ranges.foldl (fun v r => v * 0x40 + (r.1 - 0x80)) least ≤ result ∧
      result ≤ ranges.foldl (fun v r => v * 0x40 + (r.2 - 0x80)) greatest := by
  fun_induction readTail value ranges bs generalizing least greatest n with
  | case1 value bs =>
    cases h
    exact ⟨lower, upper⟩
  | case2 => cases h
  | case3 value lo hi ranges b bs fits rest m read ih =>
    obtain ⟨rfl, -⟩ := Prod.mk.inj h
    have tail : 0x80 ≤ lo ∧ hi ≤ 0xBF := tails _ List.mem_cons_self
    have digit : b.toNat % 0x40 = b.toNat - 0x80 := by omega
    rw [List.foldl_cons, List.foldl_cons]
    refine ih (fun r inside => tails r (List.mem_cons_of_mem _ inside)) ?_ ?_ read
    · change least * 0x40 + (lo - 0x80) ≤ _
      omega
    · change _ ≤ greatest * 0x40 + (hi - 0x80)
      omega
  | case4 => cases h

theorem tailRanges_reach {first : Nat} {ranges : List (Nat × Nat)} (pos : 0 < first)
    (h : tailRanges first = some ranges) :
    (∀ r ∈ ranges, 0x80 ≤ r.1 ∧ r.2 ≤ 0xBF) ∧
      let least := ranges.foldl (fun v r => v * 0x40 + (r.1 - 0x80)) (leadBits first)
      let greatest := ranges.foldl (fun v r => v * 0x40 + (r.2 - 0x80)) (leadBits first)
      0 < least ∧ (greatest < 0xD800 ∨ 0xDFFF < least ∧ greatest < 0x110000) := by
  unfold leadBits
  revert h
  fun_cases tailRanges first <;> intro h <;> cases h
  all_goals
    refine ⟨by decide, ?_⟩
    simp +zetaDelta only [List.foldl_cons, List.foldl_nil]
    split_ifs <;> omega

theorem readChar_ne_zero {first : UInt8} (h : first ≠ 0) (bs : List UInt8) :
    (readChar first bs).1 ≠ '\x00' := by
  have pos : 0 < first.toNat := Nat.pos_of_ne_zero fun zero => h (UInt8.toNat_inj.mp zero)
  unfold readChar
  split
  next => decide
  next ranges known =>
    obtain ⟨tails, nonzero, valid⟩ := tailRanges_reach pos known
    cases read : readTail (leadBits first.toNat) ranges bs with
    | mk value n =>
      cases value with
      | none =>
        change replacement ≠ _
        decide
      | some value =>
        obtain ⟨lower, upper⟩ := readTail_bounds tails (Nat.le_refl _) (Nat.le_refl _) read
        exact ofNat_ne_zero (by unfold Nat.isValidChar; omega) (Nat.lt_of_lt_of_le nonzero lower)

theorem zero_notMem_lossyOnto {done : List Char} {bs : List UInt8} (before : '\x00' ∉ done)
    (h : 0 ∉ bs) : '\x00' ∉ lossyOnto done bs := by
  fun_induction lossyOnto done bs with
  | case1 done => rwa [List.mem_reverse]
  | case2 done b bs c n read ih =>
    obtain ⟨nonzero, rest⟩ := not_or.mp (mt List.mem_cons.mpr h)
    have char := readChar_ne_zero (Ne.symm nonzero) bs
    rw [read] at char
    refine ih ?_ fun inside => rest (List.mem_of_mem_drop inside)
    rw [List.mem_cons]
    exact not_or.mpr ⟨char.symm, before⟩

end Text

open Text

theorem zeroFree_foreignText (bytes : Option (List UInt8)) : ZeroFree (foreignText bytes) := by
  unfold ZeroFree foreignText ofBytesLossy
  rw [String.toList_ofList]
  refine zero_notMem_lossyOnto List.not_mem_nil fun inside => ?_
  exact absurd (List.mem_takeWhile_imp inside) (by decide)

namespace Source

theorem zeroFree_lineOf {reversed : List Char} (h : '\x00' ∉ reversed) :
    ZeroFree (lineOf reversed) := by
  unfold lineOf ZeroFree
  split
  · rw [String.toList_ofList, List.mem_reverse]
    exact fun inside => h (List.mem_cons_of_mem _ inside)
  · rwa [String.toList_ofList, List.mem_reverse]

theorem zeroFree_linesOnto {done : Array String} {current cs : List Char}
    (before : ∀ l ∈ done, ZeroFree l) (here : '\x00' ∉ current) (h : '\x00' ∉ cs) :
    ∀ l ∈ linesOnto done current cs, ZeroFree l := by
  have push {done : Array String} {current : List Char} (before : ∀ l ∈ done, ZeroFree l)
      (here : '\x00' ∉ current) :
      ∀ l ∈ done.push (lineOf current), ZeroFree l := by
    intro l inside
    rcases Array.mem_push.mp inside with old | rfl
    · exact before l old
    · exact zeroFree_lineOf here
  fun_induction linesOnto done current cs with
  | case1 done current => exact push before here
  | case2 done current cs ih =>
    exact ih (push before here) List.not_mem_nil fun inside => h (List.mem_cons_of_mem _ inside)
  | case3 done current c cs _ ih =>
    obtain ⟨nonzero, rest⟩ := not_or.mp (mt List.mem_cons.mpr h)
    exact ih before (mt List.mem_cons.mp (not_or.mpr ⟨nonzero, here⟩)) rest

theorem zeroFree_line {text : String} (h : ZeroFree text) (n : Nat) :
    ZeroFree ((ofText text).line n) := by
  unfold line
  split
  · decide
  next n =>
    cases found : (ofText text).lines[n]? with
    | none => decide
    | some l =>
      exact zeroFree_linesOnto (by simp) List.not_mem_nil h l (Array.mem_of_getElem? found)

end Source

theorem zeroFree_repr (n : Nat) : ZeroFree (Nat.repr n) := by
  unfold ZeroFree
  rw [Nat.repr, String.toList_ofList]
  intro inside
  exact absurd (Nat.isDigit_of_mem_toDigits (by decide) (by decide) inside) (by decide)

theorem CodeError.zeroFree_message {e : CodeError} (h : e.isCapacity = true) :
    ZeroFree e.message := by
  cases e with
  | jumpOutOfRange target =>
    exact zeroFree_append (zeroFree_append (by decide) (zeroFree_repr target)) (by decide)
  | imageTooLarge => decide
  | _ => cases h

/-- A message about a text without the zero character has none either. -/
theorem zeroFree_message_of_compile {settings : Settings} {script : Option ScriptId} {text : String}
    {e : CompileError} (h : (compile settings script text).result = .error e)
    (plain : ZeroFree text) : ZeroFree (e.diagnostic (.ofText text)).message := by
  have shown (line : Nat) :
      ZeroFree (s!"malformed input at line {line}: " ++ (Source.ofText text).line line ++
        "\n") := by
    refine zeroFree_append (zeroFree_append ?_ (Source.zeroFree_line plain line)) (by decide)
    exact zeroFree_append (zeroFree_append (by decide) (zeroFree_repr line)) (by decide)
  unfold CompileError.diagnostic
  split
  · exact shown e.line
  next hidden =>
    refine zeroFree_append (zeroFree_append (by decide) ?_) (by decide)
    rcases compile_result_eq_error_cases h with
      ⟨he, -, rfl⟩ |
        ⟨header, -, ⟨pe, -, rfl⟩ |
          ⟨p, read, ⟨re, -, rfl⟩ | ⟨bound, symbols, ce, resolved, failed, rfl⟩⟩⟩
    · exact absurd rfl hidden
    · refine absurd ?_ hidden
      change (CompileError.parseKind pe).isMalformedInput = true
      unfold CompileError.parseKind
      split <;> rfl
    · cases re <;> exact absurd rfl hidden
    · have ready := Program.ready_of_resolve (Program.isPlaced_of_parse read) resolved
      exact CodeError.zeroFree_message (ready.generate_eq_error failed)

end GraalScript
