import GraalScript.Proofs.Token.Written

/-! The gaps between tokens. What the lexer passes over is white space and complete comments; what
it takes as a token lies on one line. -/
namespace GraalScript

namespace Lexer

/-- What may stand between tokens, in front of the text `rest`: white space and complete comments. A
line comment runs up to a line feed or the end of the text, a block comment up to the first mark
that closes it. -/
inductive Gap : List Char → List Char → Prop where
  | nil (rest : List Char) : Gap [] rest
  | space {c : Char} {gap rest : List Char} (blank : isSpace c = true) (more : Gap gap rest) :
      Gap (c :: gap) rest
  | lineComment {body gap rest : List Char} (line : '\n' ∉ body)
      (plain : isDirective ('/' :: '/' :: body) = false)
      (ends : ∀ c ∈ (gap ++ rest).head?, c = '\n') (more : Gap gap rest) :
        Gap ('/' :: '/' :: (body ++ gap)) rest
  | blockComment {body gap rest : List Char} (inside : ¬['*', '/'] <:+: body)
      (more : Gap gap rest) :
      Gap ('/' :: '*' :: (body ++ '*' :: '/' :: gap)) rest

theorem gap_spaces {gap : List Char} (blank : ∀ c ∈ gap, isSpace c = true) (rest : List Char) :
    Gap gap rest := by
  induction gap with
  | nil => exact .nil rest
  | cons c gap ih =>
    rw [List.forall_mem_cons] at blank
    exact .space blank.1 (ih blank.2)

theorem Gap.append {gap more rest behind : List Char} (first : Gap gap behind)
    (same : behind = more ++ rest) (second : Gap more rest) : Gap (gap ++ more) rest := by
  induction first with
  | nil => exact second
  | space blank _ ih => exact .space blank (ih same)
  | lineComment line plain ends _ ih =>
    rw [List.cons_append, List.cons_append, List.append_assoc]
    exact .lineComment line plain (by rwa [List.append_assoc, ← same]) (ih same)
  | blockComment inside _ ih =>
    rw [List.cons_append, List.cons_append, List.append_assoc, List.cons_append, List.cons_append]
    exact .blockComment inside (ih same)

theorem exists_of_stringEnd {quote : Char} (plain : quote ≠ '\n') {n m : Nat} {cs : List Char}
    (h : stringEnd quote n cs = (true, m)) : ∃ k, m = n + k ∧ '\n' ∉ cs.take k := by
  fun_induction stringEnd quote n cs with
  | case1 => cases h
  | case2 n c =>
    obtain ⟨closed, rfl⟩ := Prod.mk.inj h
    rw [beq_iff_eq.mp closed]
    exact ⟨1, rfl, by simpa using plain.symm⟩
  | case3 => cases h
  | case4 => cases h
  | case5 n d cs feed other ih =>
    obtain ⟨k, rfl, behind⟩ := ih h
    exact ⟨k + 2, by omega, by simp [behind, Ne.symm feed]⟩
  | case6 n d cs feed slash =>
    obtain ⟨-, rfl⟩ := Prod.mk.inj h
    exact ⟨1, rfl, by simpa using plain.symm⟩
  | case7 n c d cs feed slash other ih =>
    obtain ⟨k, rfl, behind⟩ := ih h
    exact ⟨k + 1, by omega, by simp [behind, Ne.symm feed]⟩

theorem exists_of_commentEnd {n m : Nat} {cs : List Char} (h : commentEnd n cs = (true, m)) :
    ∃ body rest, cs = body ++ '*' :: '/' :: rest ∧ m = n + body.length + 2 ∧
      ¬['*', '/'] <:+: body := by
  fun_induction commentEnd n cs with
  | case1 => cases h
  | case2 => cases h
  | case3 n c d cs closed =>
    obtain ⟨rfl, rfl⟩ := closed
    obtain ⟨-, rfl⟩ := Prod.mk.inj h
    exact ⟨[], cs, rfl, rfl, by simp⟩
  | case4 n c d cs other ih =>
    obtain ⟨body, rest, same, rfl, inside⟩ := ih h
    refine ⟨c :: body, rest, by rw [same]; rfl, by simp; omega, fun found => ?_⟩
    rcases List.infix_cons_iff.mp found with front | behind
    · obtain ⟨tail, whole⟩ := front
      obtain ⟨rfl, rfl⟩ := List.cons.inj whole
      exact other ⟨rfl, (List.cons.inj same).1⟩
    · exact inside behind

theorem drop_run (p : Char → Bool) (cs : List Char) : cs.drop (run p cs) = cs.dropWhile p := by
  calc cs.drop (run p cs)
    _ = (cs.takeWhile p ++ cs.dropWhile p).drop (run p cs) := by
      rw [List.takeWhile_append_dropWhile]
    _ = cs.dropWhile p := List.drop_left

theorem piece_scanNumber (c : Char) (cs : List Char) :
    (scanNumber c cs).piece ∈ [.token .int, .token .float, .fault .invalidNumber] := by
  have hex (cs : List Char) :
      (scanHex cs).piece ∈ [.token .int, .token .float, .fault .invalidNumber] := by
    unfold scanHex
    split <;> simp
  have decimal (cs : List Char) :
      (scanDecimal cs).piece ∈ [.token .int, .token .float, .fault .invalidNumber] := by
    unfold scanDecimal
    dsimp only
    split
    · split <;> simp
    · simp
  unfold scanNumber
  split
  · exact hex _
  · exact hex _
  · exact decimal _

theorem take_scanSymbol {c : Char} {cs : List Char} {kind : TokenKind}
    (h : (scanSymbol c cs).piece = .token kind) :
    kind ∈ TokenKind.symbols ∧ (c :: cs).take (scanSymbol c cs).length = kind.text.toList := by
  unfold scanSymbol at h ⊢
  split at h
  next k found =>
    cases h
    have front : kind.text.toList.isPrefixOf (c :: cs) = true :=
      List.find?_some (p := fun k : TokenKind => k.text.toList.isPrefixOf (c :: cs)) found
    refine ⟨List.mem_of_find?_eq_some found, ?_⟩
    rw [← String.length_toList]
    exact (List.prefix_iff_eq_take.mp (List.isPrefixOf_iff_prefix.mp front)).symm
  · cases h

theorem gap_scanLineComment {cs : List Char}
    (h : (scanLineComment ('/' :: '/' :: cs)).piece = .gap) :
    Gap (('/' :: '/' :: cs).take (scanLineComment ('/' :: '/' :: cs)).length)
      (('/' :: '/' :: cs).drop (scanLineComment ('/' :: '/' :: cs)).length) := by
  have body : ('/' :: '/' :: cs).takeWhile (· != '\n') = '/' :: '/' :: cs.takeWhile (· != '\n') :=
    rfl
  have ends : ∀ c ∈ (cs.dropWhile (· != '\n')).head?, c = '\n' := by
    intro c first
    have stops := List.head?_dropWhile_not (· != '\n') cs
    rw [Option.mem_def.mp first] at stops
    simpa using stops
  rw [scanLineComment] at h ⊢
  dsimp only at h ⊢
  rw [take_run, body] at h ⊢
  rw [drop_run, show ('/' :: '/' :: cs).dropWhile (· != '\n') = cs.dropWhile (· != '\n') from rfl]
  have feeds : '\n' ∉ cs.takeWhile (· != '\n') := mt List.mem_takeWhile_imp Bool.false_ne_true
  split at h
  · cases h
  next plain =>
    have comment :
        Gap ('/' :: '/' :: (cs.takeWhile (· != '\n') ++ [])) (cs.dropWhile (· != '\n')) :=
      .lineComment feeds (Bool.eq_false_iff.mpr plain) ends (.nil _)
    rwa [List.append_nil] at comment

theorem gap_scanBlockComment {cs : List Char} (h : (scanBlockComment cs).piece = .gap) :
    Gap (('/' :: '*' :: cs).take (scanBlockComment cs).length)
      (('/' :: '*' :: cs).drop (scanBlockComment cs).length) := by
  rw [scanBlockComment] at h ⊢
  split at h
  next n closed =>
    obtain ⟨body, rest, rfl, rfl, inside⟩ := exists_of_commentEnd closed
    have cut : '/' :: '*' :: (body ++ '*' :: '/' :: rest) = ('/' :: '*' :: (body ++ ['*', '/'])) ++
        rest := by simp
    have size : 2 + body.length + 2 = ('/' :: '*' :: (body ++ ['*', '/'])).length := by simp; omega
    rw [cut, size, List.take_left, List.drop_left]
    exact .blockComment inside (.nil rest)
  · cases h

theorem gap_scan {c : Char} {cs : List Char} (h : (scan c cs).piece = .gap) :
    Gap ((c :: cs).take (scan c cs).length) ((c :: cs).drop (scan c cs).length) := by
  rcases scan_cases c cs with ⟨blank, same⟩ | ⟨-, same⟩ | ⟨digit, same⟩ | ⟨-, same⟩ |
    ⟨rest, whole, same⟩ |
    ⟨rest, whole, same⟩ | same <;> rw [same] at h ⊢
  · refine gap_spaces (fun d inside => ?_) _
    rw [Nat.add_comm, List.take_succ_cons, take_run, List.mem_cons] at inside
    rcases inside with rfl | inside
    · exact blank
    · exact List.all_eq_true.mp List.all_takeWhile d inside
  · unfold scanString at h
    split at h <;> cases h
  · have number := piece_scanNumber c cs
    rw [h] at number
    simp at number
  · cases h
  · rw [whole] at h ⊢
    exact gap_scanLineComment h
  · rw [whole]
    exact gap_scanBlockComment h
  · unfold scanSymbol at h
    split at h <;> cases h

theorem token_scan {c : Char} {cs : List Char} {kind : TokenKind}
    (h : (scan c cs).piece = .token kind) :
    kind ≠ .eos ∧ '\n' ∉ (c :: cs).take (scan c cs).length := by
  rcases scan_cases c cs with ⟨blank, same⟩ | ⟨quote, same⟩ | ⟨digit, same⟩ | ⟨-, same⟩ |
    ⟨rest, whole, same⟩ |
    ⟨rest, whole, same⟩ | same <;> rw [same] at h ⊢
  · cases h
  · unfold scanString at h ⊢
    split at h
    next n closed =>
      cases h
      have feed : c ≠ '\n' := by rcases quote with rfl | rfl <;> decide
      obtain ⟨k, rfl, plain⟩ := exists_of_stringEnd feed closed
      simp [Nat.add_comm 1, plain, feed.symm]
    · cases h
  · refine ⟨?_, notMem_scanNumber rfl (by decide) c cs⟩
    rintro rfl
    have number := piece_scanNumber c cs
    rw [h] at number
    simp at number
  · refine ⟨?_, notMem_scanWord rfl (c :: cs)⟩
    rcases kind_scanWord h with rfl | ⟨k, rfl⟩ <;> nofun
  · unfold scanLineComment at h ⊢
    dsimp only at h ⊢
    split at h
    · cases h
      rw [take_run]
      exact ⟨nofun, mt List.mem_takeWhile_imp Bool.false_ne_true⟩
    · cases h
  · unfold scanBlockComment at h
    split at h <;> cases h
  · obtain ⟨mem, text⟩ := take_scanSymbol h
    have spelled : ∀ k ∈ TokenKind.symbols, k ≠ .eos ∧ '\n' ∉ k.text.toList := by decide
    rw [text]
    exact spelled kind mem

end Lexer

end GraalScript
