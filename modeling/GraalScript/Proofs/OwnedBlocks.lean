import GraalScript.Handles
import GraalScript.Proofs.Code.Texts
import Mathlib.Data.List.TakeWhile

/-! What the sessions behind handles own: each its image, or the message that it has told last, in a
block that no other session has. An answer points to such a block. The image stays until the session
is deleted; a message is freed when the session is asked again and tells it once more. -/
namespace GraalScript

namespace Memory

variable {m : Memory} {p : Pointer} {bytes : List UInt8}

theorem block?_allocate (m : Memory) (bytes : List UInt8) (q : Pointer) :
    (m.allocate bytes).2.block? q = if q = (m.allocate bytes).1 then some bytes
      else m.block? q := by
  rw [block?, allocate, Array.getElem?_push]
  split <;> rfl

theorem block?_fst_allocate (m : Memory) (bytes : List UInt8) :
    m.block? (m.allocate bytes).1 = none := by
  rw [block?, allocate, Array.getElem?_eq_none (Nat.le_refl _)]
  rfl

theorem block?_free (m : Memory) (p q : Pointer) :
    (m.free (some p)).block? q = if q = p then none else m.block? q := by
  rw [block?, free, Array.getElem?_setIfInBounds, block?]
  by_cases same : p = q
  · rw [if_pos same, if_pos same.symm]
    split <;> rfl
  · rw [if_neg same, if_neg (Ne.symm same)]

theorem block?_free_of_ne {old : Option Pointer} {q : Pointer} (other : old ≠ some q) (m : Memory) :
    (m.free old).block? q = m.block? q := by
  cases old with
  | none => rfl
  | some p => rw [block?_free, if_neg fun same => other (congrArg some same.symm)]

/-- The block was given out, and is not there any more. -/
def Freed (m : Memory) (p : Pointer) : Prop := p < m.blocks.size ∧ m.block? p = none

theorem Freed.allocate (h : m.Freed p) (bytes : List UInt8) : (m.allocate bytes).2.Freed p := by
  refine ⟨by simpa [Memory.allocate] using Nat.lt_succ_of_lt h.1, ?_⟩
  have other : p ≠ (m.allocate bytes).1 := Nat.ne_of_lt h.1
  rw [block?_allocate, if_neg other, h.2]

theorem Freed.free (h : m.Freed p) (q : Option Pointer) : (m.free q).Freed p := by
  cases q with
  | none => exact h
  | some q =>
    refine ⟨by simpa [Memory.free] using h.1, ?_⟩
    rw [block?_free, h.2, ite_self]

theorem freed_free (h : (m.block? p).isSome) : (m.free (some p)).Freed p := by
  refine ⟨?_, by rw [block?_free, if_pos rfl]⟩
  rw [Memory.free, Array.size_setIfInBounds]
  refine Nat.lt_of_not_le fun outside => ?_
  simp [block?, Array.getElem?_eq_none outside] at h

theorem bytes?_of_block? (h : m.block? p = some bytes) : m.bytes? p bytes.length = some bytes := by
  simp [bytes?, h]

theorem cString?_of_block? (h : m.block? p = some (bytes ++ [0])) (whole : 0 ∉ bytes) :
    m.cString? p = some bytes := by
  have plain : ∀ b ∈ bytes, (b != 0) = true := fun b inside =>
    bne_iff_ne.mpr fun zero => whole (zero ▸ inside)
  have ends : (bytes ++ [0]).takeWhile (· != 0) = bytes := by
    rw [List.takeWhile_append_of_pos plain]
    exact List.append_nil bytes
  simp [cString?, h, ends]

theorem bytes?_congr {m' : Memory} (h : m'.block? p = m.block? p) (size : Nat) :
    m'.bytes? p size = m.bytes? p size := by
  rw [bytes?, h, bytes?]

theorem cString?_congr {m' : Memory} (h : m'.block? p = m.block? p) :
    m'.cString? p = m.cString? p := by
  rw [cString?, h, cString?]

theorem read?_eq_some {r : Response} {reading : Reading} (h : m.read? r = some reading) :
    (∀ p, r.image? = some p → m.bytes? p r.size.toNat = reading.image?) ∧
      ∀ p, r.message? = some p → m.cString? p = reading.message? := by
  obtain ⟨success, message?, image?, size⟩ := r
  rw [read?, Option.bind_eq_bind, Option.bind_eq_some_iff] at h
  obtain ⟨message, found, h⟩ := h
  obtain ⟨image, found', h⟩ := Option.bind_eq_some_iff.mp h
  cases h
  refine ⟨?_, ?_⟩
  · rintro p rfl
    obtain ⟨bytes, there, rfl⟩ := Option.map_eq_some_iff.mp found'
    exact there
  · rintro p rfl
    obtain ⟨bytes, there, rfl⟩ := Option.map_eq_some_iff.mp found
    exact there

theorem cString?_of_freed (h : m.Freed p) : m.cString? p = none := by
  simp [cString?, h.2]

end Memory

theorem Diagnostic.zero_notMem_foreignMessage (d : Diagnostic) :
    0 ∉ Text.bytes d.foreignMessage := by
  have plain : Text.ZeroFree d.foreignMessage := by
    rw [Text.ZeroFree, foreignMessage, String.toList_ofList]
    exact fun inside => absurd (List.mem_takeWhile_imp inside) (by decide)
  exact fun zero => (Text.zero_mem_bytes_iff _).mp zero plain

def Reading.ofOutcome : Outcome → Reading
  | .ok output =>
    if output.image.length < 0x100000000 then
      ⟨true, none, some output.image, .ofNat output.image.length⟩
    else ⟨false, none, none, 0⟩
  | .error d => ⟨false, some (Text.bytes d.foreignMessage), none, 0⟩

namespace Context

variable {c : Context} {m : Memory} {script : Option ScriptId} {text : String}

def owned? (c : Context) : Option Pointer := c.image?.or c.message?

/-- The session owns the block that its outcome asks for, and no other. -/
def Owns (c : Context) (m : Memory) : Prop :=
  match c.session.outcome? with
  | none => c.image? = none ∧ c.message? = none
  | some (.ok output) =>
    c.message? = none ∧ ∃ p, c.image? = some p ∧ m.block? p = some output.image
  | some (.error d) =>
    c.image? = none ∧ ∃ p, c.message? = some p ∧
      m.block? p = some (Text.bytes d.foreignMessage ++ [0])

/-- The session has this outcome, and the answer points to the block of it. -/
structure Answers (c : Context) (m : Memory) (outcome : Outcome) (r : Response) : Prop where
  owns : c.Owns m
  known : c.session.outcome? = some outcome
  read : m.read? r = some (.ofOutcome outcome)
  image : ∀ p, r.image? = some p → c.image? = some p
  message : r.message? = c.message?

/-- What asking a session changes: its image stays, its message is freed, and it gets no block that
another one has. Other blocks stay as they are. -/
structure Moves (c : Context) (m : Memory) (c' : Context) (m' : Memory) : Prop where
  kept : ∀ p, c.image? = some p → c'.image? = some p
  freed : ∀ p, c.message? = some p → m'.Freed p
  fresh : c'.owned? = c.owned? ∨ ∀ p, c'.owned? = some p → m.block? p = none
  frame : ∀ q, (m.block? q).isSome → c.owned? ≠ some q → m'.block? q = m.block? q
  still : ∀ q, m.Freed q → m'.Freed q

theorem answers_image {output : Output} (owns : c.Owns m)
    (known : c.session.outcome? = some (.ok output)) :
    (c.respond m).2 = (c, m) ∧ c.Answers m (.ok output) (c.respond m).1 := by
  obtain ⟨none, p, image, block⟩ : c.message? = none ∧
      ∃ p, c.image? = some p ∧ m.block? p = some output.image := by
    rwa [Owns, known] at owns
  rw [respond, known]
  by_cases small : output.image.length < 0x100000000
  · have length : (UInt32.ofNat output.image.length).toNat = output.image.length :=
      UInt32.toNat_ofNat_of_lt' small
    simp only [small, if_true]
    refine ⟨trivial, owns, known, ?_, fun q found => found, none.symm⟩
    simp [Memory.read?, image, length, m.bytes?_of_block? block, Reading.ofOutcome, small]
  · simp only [small, if_false]
    refine ⟨trivial, owns, known, ?_, fun q found => (nomatch found), none.symm⟩
    rw [Reading.ofOutcome, if_neg small]
    rfl

/-- A message is told in a new block, and the block of the message before it is freed. -/
theorem moves_message {d : Diagnostic} (known : c.session.outcome? = some (.error d))
    (none : c.image? = none) (kept : ∀ p, c.message? = some p → (m.block? p).isSome) :
    c.Moves m (c.respond m).2.1 (c.respond m).2.2 ∧
      (c.respond m).2.1.Answers (c.respond m).2.2 (.error d) (c.respond m).1 := by
  rw [respond, known]
  let block := Text.bytes d.foreignMessage ++ [0]
  let told := (m.allocate block).1
  let after := (m.allocate block).2
  change c.Moves m { c with message? := some told } (after.free c.message?) ∧
    Answers { c with message? := some told } (after.free c.message?) (.error d)
      ⟨false, some told, Option.none, 0⟩
  have new : m.block? told = Option.none := m.block?_fst_allocate block
  have other : c.message? ≠ some told := by
    intro same
    have := kept told same
    rw [new] at this
    cases this
  have there : after.block? told = some block := by rw [Memory.block?_allocate, if_pos rfl]
  have frame (q : Pointer) (found : (m.block? q).isSome) : after.block? q = m.block? q := by
    rw [Memory.block?_allocate, if_neg]
    rintro rfl
    rw [new] at found
    cases found
  have owned : c.owned? = c.message? := by rw [owned?, none, Option.none_or]
  constructor
  · refine ⟨fun p found => found, fun p found => ?_, .inr fun p found => ?_,
      fun q found differs => ?_, fun q freed => (freed.allocate block).free c.message?⟩
    · rw [found]
      exact Memory.freed_free (frame p (kept p found) ▸ kept p found)
    · rw [owned?, none, Option.none_or] at found
      exact Option.some.inj found ▸ new
    · rw [Memory.block?_free_of_ne (owned ▸ differs), frame q found]
  · have last := (Memory.block?_free_of_ne other after).trans there
    have whole := Memory.cString?_of_block? last d.zero_notMem_foreignMessage
    refine ⟨?_, known, ?_, fun p found => (nomatch found), rfl⟩
    · rw [Owns, known]
      exact ⟨none, told, rfl, last⟩
    · simp [Memory.read?, whole, Reading.ofOutcome]

theorem moves_refl (m : Memory) (silent : c.message? = none) : c.Moves m c m where
  kept _ found := found
  freed p found := by simp [silent] at found
  fresh := .inl rfl
  frame _ _ _ := rfl
  still _ freed := freed

theorem moves_respond (owns : c.Owns m) {outcome : Outcome}
    (known : c.session.outcome? = some outcome) :
    c.Moves m (c.respond m).2.1 (c.respond m).2.2 ∧ (c.respond m).2.1.session = c.session ∧
      (c.respond m).2.1.Answers (c.respond m).2.2 outcome (c.respond m).1 := by
  cases outcome with
  | ok output =>
    obtain ⟨same, answers⟩ := answers_image owns known
    rw [same]
    refine ⟨moves_refl m ?_, rfl, answers⟩
    rw [Owns, known] at owns
    exact owns.1
  | error d =>
    have session : (c.respond m).2.1.session = c.session := by rw [respond, known]
    rw [Owns, known] at owns
    obtain ⟨none, p, told, block⟩ := owns
    obtain ⟨moves, answers⟩ := moves_message known none fun q found => by
      rw [told, Option.some.injEq] at found
      rw [← found, block]
      rfl
    exact ⟨moves, session, answers⟩

theorem moves_allocate (unowned : c.owned? = none) (session : Session) (bytes : List UInt8) :
    c.Moves m { c with session, image? := some (m.allocate bytes).1 } (m.allocate bytes).2 := by
  obtain ⟨noImage, noMessage⟩ := Option.or_eq_none_iff.mp unowned
  refine ⟨fun p found => ?_, fun p found => ?_, .inr fun p found => ?_, fun q found _ => ?_,
    fun q freed => freed.allocate bytes⟩
  · rw [noImage] at found
    cases found
  · rw [noMessage] at found
    cases found
  · rw [owned?, Option.some_or, Option.some.injEq] at found
    rw [← found, Memory.block?_fst_allocate]
  · rw [Memory.block?_allocate, if_neg]
    rintro rfl
    rw [Memory.block?_fst_allocate] at found
    cases found

section asking

variable {session : Session} (unowned : c.owned? = none)
  (first : c.session.compile script text = .ok session)
include unowned first

theorem moves_ask_image {output : Output} (known : session.outcome? = some (.ok output)) :
    c.Moves m (c.ask m script text).2.1 (c.ask m script text).2.2 ∧
      (c.ask m script text).2.1.session = session ∧
      (c.ask m script text).2.1.Answers (c.ask m script text).2.2 (.ok output)
        (c.ask m script text).1 := by
  let c₁ : Context := { c with session, image? := some (m.allocate output.image).1 }
  let m₁ := (m.allocate output.image).2
  have same : c.ask m script text = c₁.respond m₁ := by
    rw [ask, compile, first]
    simp only [known]
    rfl
  have owns : c₁.Owns m₁ := by
    rw [Owns, show c₁.session.outcome? = _ from known]
    exact ⟨(Option.or_eq_none_iff.mp unowned).2, _, rfl,
      by rw [Memory.block?_allocate, if_pos rfl]⟩
  obtain ⟨told, answers⟩ := answers_image owns known
  rw [same, told]
  exact ⟨moves_allocate unowned session output.image, rfl, answers⟩

theorem moves_ask_message {d : Diagnostic} (known : session.outcome? = some (.error d)) :
    c.Moves m (c.ask m script text).2.1 (c.ask m script text).2.2 ∧
      (c.ask m script text).2.1.session = session ∧
      (c.ask m script text).2.1.Answers (c.ask m script text).2.2 (.error d)
        (c.ask m script text).1 := by
  obtain ⟨noImage, noMessage⟩ := Option.or_eq_none_iff.mp unowned
  have same : c.ask m script text = respond { c with session } m := by
    rw [ask, compile, first]
    simp only [known]
  have silent (p : Pointer) (found : c.message? = some p) : (m.block? p).isSome := by
    rw [noMessage] at found
    cases found
  have told : (respond { c with session } m).2.1.session = session := by rw [respond, known]
  rw [same]
  obtain ⟨moves, answers⟩ := moves_message (c := { c with session }) known noImage silent
  exact ⟨⟨moves.kept, moves.freed, moves.fresh, moves.frame, moves.still⟩, told, answers⟩

end asking

/-- However often a session is asked, it answers with its first outcome. -/
theorem moves_ask (owns : c.Owns m) (script : Option ScriptId) (text : String) :
    c.Moves m (c.ask m script text).2.1 (c.ask m script text).2.2 ∧
      (c.ask m script text).2.1.session =
        (c.session.compile script text).toOption.getD c.session ∧
      ∃ outcome, (c.ask m script text).2.1.Answers (c.ask m script text).2.2 outcome
        (c.ask m script text).1 := by
  cases before : c.session.compilation? with
  | some done =>
    have again : c.session.compile script text = .error .alreadyCompiled := by
      rw [Session.compile, before]
    have same : c.ask m script text = c.respond m := by rw [ask, compile, again]
    have known :
        c.session.outcome? = some (done.result.mapError (·.diagnostic c.session.source)) := by
      rw [Session.outcome?, before]
      rfl
    rw [same, again]
    obtain ⟨moves, session, answers⟩ := moves_respond owns known
    exact ⟨moves, session, _, answers⟩
  | none =>
    have nothing : c.session.outcome? = none := by rw [Session.outcome?, before]; rfl
    rw [Owns, nothing] at owns
    have unowned : c.owned? = none := Option.or_eq_none_iff.mpr owns
    obtain ⟨session, outcome, first, known⟩ : ∃ session outcome,
        c.session.compile script text = .ok session ∧ session.outcome? = some outcome := by
      rw [Session.compile, before]
      exact ⟨_, _, rfl, rfl⟩
    rw [first]
    cases outcome with
    | ok output =>
      obtain ⟨moves, session, answers⟩ := moves_ask_image unowned first known
      exact ⟨moves, session, _, answers⟩
    | error d =>
      obtain ⟨moves, session, answers⟩ := moves_ask_message unowned first known
      exact ⟨moves, session, _, answers⟩

theorem Owns.isSome_block? (h : c.Owns m) {p : Pointer} (owned : c.owned? = some p) :
    (m.block? p).isSome := by
  rw [Owns] at h
  split at h
  next => simp [owned?, h.1, h.2] at owned
  next output _ =>
    obtain ⟨-, q, image, block⟩ := h
    rw [owned?, image, Option.some_or, Option.some.injEq] at owned
    rw [← owned, block]
    rfl
  next d _ =>
    obtain ⟨none, q, message, block⟩ := h
    rw [owned?, none, Option.none_or, message, Option.some.injEq] at owned
    rw [← owned, block]
    rfl

theorem Owns.owned?_of_message? (h : c.Owns m) {p : Pointer} (message : c.message? = some p) :
    c.owned? = some p := by
  rw [Owns] at h
  split at h
  next => simp [h.2] at message
  next => simp [h.1] at message
  next => rw [owned?, h.1, Option.none_or, message]

theorem owned?_of_image? {p : Pointer} (image : c.image? = some p) : c.owned? = some p := by
  rw [owned?, image, Option.some_or]

theorem Owns.mono {m' : Memory} (h : c.Owns m)
    (same : ∀ p, c.owned? = some p → m'.block? p = m.block? p) : c.Owns m' := by
  rw [Owns] at h ⊢
  split at h
  next => exact h
  next output _ =>
    obtain ⟨none, p, image, block⟩ := h
    exact ⟨none, p, image, (same p (owned?_of_image? image)).trans block⟩
  next d _ =>
    obtain ⟨none, p, message, block⟩ := h
    refine ⟨none, p, message, (same p ?_).trans block⟩
    rw [owned?, none, Option.none_or, message]

theorem Owns.block?_eq {c' : Context} {m' : Memory} (h : c.Owns m) (h' : c'.Owns m')
    (same : c'.session = c.session) {p : Pointer} (owned : c.owned? = some p)
    (owned' : c'.owned? = some p) : m'.block? p = m.block? p := by
  rw [Owns] at h
  rw [Owns, same] at h'
  split at h
  next => simp [owned?, h.1, h.2] at owned
  next output known =>
    rw [known] at h'
    obtain ⟨-, q, image, block⟩ := h
    obtain ⟨-, q', image', block'⟩ := h'
    rw [owned?, image, Option.some_or, Option.some.injEq] at owned
    rw [owned?, image', Option.some_or, Option.some.injEq] at owned'
    rw [← owned', block', owned', ← owned, block]
  next d known =>
    rw [known] at h'
    obtain ⟨none, q, message, block⟩ := h
    obtain ⟨none', q', message', block'⟩ := h'
    rw [owned?, none, Option.none_or, message, Option.some.injEq] at owned
    rw [owned?, none', Option.none_or, message', Option.some.injEq] at owned'
    rw [← owned', block', owned', ← owned, block]

theorem Owns.message (h : c.Owns m) {outcome : Outcome}
    (known : c.session.outcome? = some outcome) :
    c.message?.bind m.cString? = (Reading.ofOutcome outcome).message? := by
  rw [Owns, known] at h
  cases outcome with
  | ok output =>
    rw [h.1, Reading.ofOutcome]
    split <;> rfl
  | error d =>
    obtain ⟨-, p, message, block⟩ := h
    rw [message, Option.bind_some, Memory.cString?_of_block? block d.zero_notMem_foreignMessage]
    rfl

theorem owns_new (m : Memory) : Context.new.Owns m := ⟨rfl, rfl⟩

end Context

namespace Handles

variable {hs : Handles} {n k : Nat} {c c' : Context} {handle : Option Nat}

theorem context?_some (hs : Handles) (n : Nat) : hs.context? (some n) = hs.contexts[n]?.join := by
  change hs.contexts[n]? >>= id = _
  cases hs.contexts[n]? <;> rfl

theorem context?_create (hs : Handles) (n : Nat) :
    hs.create.2.context? (some n) =
      if n = hs.create.1 then some .new else hs.context? (some n) := by
  rw [context?_some, context?_some, create, Array.getElem?_push]
  split <;> rfl

theorem context?_put_of_ne (hs : Handles) (h : handle ≠ some n) (context : Option Context)
    (m : Memory) : (hs.put handle context m).context? (some n) = hs.context? (some n) := by
  cases handle with
  | none => rfl
  | some k =>
    rw [context?_some, context?_some, put,
      Array.getElem?_setIfInBounds_ne fun same => h (congrArg some same)]

theorem context?_put (found : hs.context? handle = some c) (context : Option Context) (m : Memory) :
    (hs.put handle context m).context? handle = context := by
  cases handle with
  | none => cases found
  | some n =>
    rw [context?_some] at found
    rw [context?_some, put, Array.getElem?_setIfInBounds_self]
    split
    · rfl
    next short =>
      rw [Array.getElem?_eq_none (Nat.le_of_not_lt short)] at found
      cases found

theorem memory_put (hs : Handles) (handle : Option Nat) (context : Option Context) (m : Memory) :
    (hs.put handle context m).memory = m := by
  cases handle <;> rfl

/-- Every session owns its block, and no two sessions own the same. -/
structure Sound (hs : Handles) : Prop where
  owns : ∀ {n c}, hs.context? (some n) = some c → c.Owns hs.memory
  apart : ∀ {n k c c' p}, hs.context? (some n) = some c → hs.context? (some k) = some c' →
    c.owned? = some p → c'.owned? = some p → n = k

namespace Sound

theorem create (h : hs.Sound) : hs.create.2.Sound := by
  refine ⟨fun {n c} found => ?_, fun {n k c c' p} found found' owned owned' => ?_⟩
  · rw [context?_create] at found
    split at found
    · cases found
      exact Context.owns_new _
    · exact h.owns found
  · rw [context?_create] at found found'
    split at found
    · cases found
      cases owned
    · split at found'
      · cases found'
        cases owned'
      · exact h.apart found found' owned owned'

theorem put {m : Memory} (h : hs.Sound) (found : hs.context? (some n) = some c)
    (moves : c.Moves hs.memory c' m) (owns : c'.Owns m) : (hs.put (some n) (some c') m).Sound := by
  have here := context?_put found (some c') m
  have there {k : Nat} (other : k ≠ n) :
      (hs.put (some n) (some c') m).context? (some k) = hs.context? (some k) :=
    hs.context?_put_of_ne (fun same => other (Option.some.inj same).symm) _ _
  have foreign {k : Nat} {d : Context} {p : Pointer} (other : k ≠ n)
      (known : hs.context? (some k) = some d) (owned : d.owned? = some p) : c'.owned? ≠ some p := by
    intro same
    rcases moves.fresh with kept | fresh
    · exact other (h.apart known found owned (kept ▸ same))
    · have live := (h.owns known).isSome_block? owned
      rw [fresh p same] at live
      cases live
  refine ⟨fun {k d} known => ?_, fun {k l d d' p} known known' owned owned' => ?_⟩
  · rw [memory_put]
    by_cases same : k = n
    · subst same
      rw [here, Option.some.injEq] at known
      exact known ▸ owns
    · rw [there same] at known
      refine (h.owns known).mono fun p owned =>
        moves.frame p ((h.owns known).isSome_block? owned) ?_
      exact fun taken => same (h.apart known found owned taken)
  · by_cases first : k = n <;> by_cases second : l = n
    · exact first.trans second.symm
    · subst first
      rw [here, Option.some.injEq] at known
      rw [there second] at known'
      exact absurd (known ▸ owned) (foreign second known' owned')
    · subst second
      rw [here, Option.some.injEq] at known'
      rw [there first] at known
      exact absurd (known' ▸ owned') (foreign first known owned)
    · rw [there first] at known
      rw [there second] at known'
      exact h.apart known known' owned owned'

theorem compile (h : hs.Sound) (handle : Option Nat) (script : Option ScriptId) (text : String) :
    (hs.compile handle script text).2.Sound := by
  unfold Handles.compile
  split
  · exact h
  next c found =>
    cases handle with
    | none => cases found
    | some n =>
      obtain ⟨moves, -, outcome, answers⟩ := Context.moves_ask (h.owns found) script text
      exact h.put found moves answers.owns

/-- What a session owns is freed with it, and nothing else. -/
theorem delete (h : hs.Sound) (handle : Option Nat) : (hs.delete handle).Sound := by
  unfold Handles.delete
  split
  · exact h
  next c found =>
    cases handle with
    | none => cases found
    | some n =>
      let m := (hs.memory.free c.image?).free c.message?
      have left {k : Nat} {d : Context}
          (known : (hs.put (some n) none m).context? (some k) = some d) :
          k ≠ n ∧ hs.context? (some k) = some d := by
        by_cases same : k = n
        · subst same
          rw [context?_put found] at known
          cases known
        · rw [hs.context?_put_of_ne fun equal => same (Option.some.inj equal).symm] at known
          exact ⟨same, known⟩
      refine ⟨fun {k d} known => ?_, fun {k l d d' p} known known' => ?_⟩
      · obtain ⟨other, known⟩ := left known
        refine (h.owns known).mono fun p owned => ?_
        have foreign : c.owned? ≠ some p := fun taken => other (h.apart known found owned taken)
        have noImage : c.image? ≠ some p := fun image => foreign (Context.owned?_of_image? image)
        have noMessage : c.message? ≠ some p := fun message =>
          foreign ((h.owns found).owned?_of_message? message)
        rw [memory_put, Memory.block?_free_of_ne noMessage, Memory.block?_free_of_ne noImage]
      · exact h.apart (left known).2 (left known').2

end Sound

end Handles

end GraalScript
