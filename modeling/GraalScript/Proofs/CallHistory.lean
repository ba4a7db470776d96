import GraalScript.Proofs.ForeignTexts
import GraalScript.Proofs.OwnedBlocks
import Mathlib.Data.List.Induction

/-! Histories of calls. Whatever is called in between, a session that is in use answers each request
as a fresh one answers the first request that the session was given. What such an answer points to
is there when the call returns. The image is there as long as the session is; the message only until
the session is asked again, which tells the same message in another place. -/
namespace GraalScript

/-- What is asked of a session: to compile a text, for a host if a type and a name are given. -/
structure Request where
  code : Option (List UInt8)
  script? : Option (Option (List UInt8) × Option (List UInt8))
  deriving DecidableEq, Repr

namespace Request

def text (r : Request) : String := foreignText r.code

def script (r : Request) : Option ScriptId :=
  r.script?.map fun (type, name) => ⟨foreignText type, foreignText name⟩

def session (r : Request) : Session :=
  ⟨.default, .ofText r.text, some (compile .default r.script r.text)⟩

def outcome (r : Request) : Outcome :=
  (compile .default r.script r.text).result.mapError (·.diagnostic (.ofText r.text))

/-- What can be read of the answer when there is only one session and it has compiled nothing. -/
def answer (r : Request) : Option Reading :=
  let (response, hs) := Handles.empty.create.2.compile (some 0) r.script r.text
  hs.memory.read? response

end Request

inductive Call where
  | create
  | compile (handle : Option Nat) (request : Request)
  | delete (handle : Option Nat)
  deriving DecidableEq, Repr

/-- The request that a call makes of the session behind a handle. -/
def Call.requestOf? (n : Nat) : Call → Option Request
  | compile (some m) r => if m = n then some r else none
  | _ => none

inductive Answer where
  | handle (n : Nat)
  | response (r : Response)
  | deleted
  deriving DecidableEq, Repr

namespace Handles

def call (hs : Handles) : Call → Answer × Handles
  | .create => (.handle hs.create.1, hs.create.2)
  | .compile handle r =>
    let (response, hs) := hs.compile handle r.script r.text
    (.response response, hs)
  | .delete handle => (.deleted, hs.delete handle)

def answers (hs : Handles) : List Call → List Answer
  | [] => []
  | c :: cs => (hs.call c).1 :: (hs.call c).2.answers cs

def after (hs : Handles) (calls : List Call) : Handles := calls.foldl (fun hs c => (hs.call c).2) hs

/-- The handle was given out by a call and has not been deleted since; `since` are the calls behind
that one. -/
def Live (calls : List Call) (n : Nat) (since : List Call) : Prop :=
  ∃ before, calls = before ++ .create :: since ∧ (empty.after before).create.1 = n ∧
    .delete (some n) ∉ since

/-- The first request that the calls make of the session behind a handle. -/
def first? (n : Nat) (calls : List Call) : Option Request := calls.findSome? (Call.requestOf? n)

def sessionOf (first : Option Request) : Session := first.elim (.new .default) Request.session

/-- The sessions in use are those that the calls have given out and not deleted, each as its first
request has left it. -/
structure Follows (hs : Handles) (calls : List Call) : Prop where
  sound : hs.Sound
  live : ∀ {n since}, Live calls n since →
    ∃ c, hs.context? (some n) = some c ∧ c.session = sessionOf (first? n since)
  gone : ∀ {n}, (∀ since, ¬ Live calls n since) → hs.context? (some n) = none

/-- How a session that has an outcome comes through further calls: its image stays in its place, and
its message is freed when the session is asked again. -/
structure Lasts (n : Nat) (c : Context) (later : List Call) (hs : Handles) : Prop where
  session : ∃ c', hs.context? (some n) = some c' ∧ c'.session = c.session ∧
    (∀ p, c.image? = some p → c'.image? = some p) ∧
    ((∀ r, .compile (some n) r ∉ later) → c'.message? = c.message?)
  freed : (∃ r, .compile (some n) r ∈ later) → ∀ p, c.message? = some p → hs.memory.Freed p

end Handles

/-- Tells the outcome: the whole image, or the whole message. -/
def Reading.Mirrors (r : Reading) : Outcome → Prop
  | .ok output => r.success = true ∧ r.message? = none ∧ r.image? = some output.image ∧
      r.size.toNat = output.image.length
  | .error d =>
    r.success = false ∧ r.message? = some (Text.bytes d.message) ∧ r.image? = none ∧ r.size = 0

namespace Request

theorem zeroFree_message (r : Request) {d : Diagnostic} (h : r.outcome = .error d) :
    Text.ZeroFree d.message := by
  unfold outcome at h
  cases result : (compile .default r.script r.text).result with
  | ok output =>
    rw [result] at h
    cases h
  | error e =>
    rw [result] at h
    cases h
    exact zeroFree_message_of_compile result (zeroFree_foreignText r.code)

end Request

namespace Handles

/-- What has become of a response, once its session may have been asked again. The image can be read
as before. The message cannot, if the session was asked; but the session itself still has it. -/
structure Keeps (hs : Handles) (n : Nat) (response : Response) (reading : Reading)
  (asked : Prop) : Prop where
  image : ∀ p, response.image? = some p → hs.memory.bytes? p response.size.toNat = reading.image?
  message : ∀ p, response.message? = some p → ¬ asked → hs.memory.cString? p = reading.message?
  freed : ∀ p, response.message? = some p → asked → hs.memory.cString? p = none
  told : ∃ c, hs.context? (some n) = some c ∧ c.message?.bind hs.memory.cString? = reading.message?

theorem Lasts.keeps {n : Nat} {c : Context} {m : Memory} {later : List Call} {hs : Handles}
    (h : Lasts n c later hs) {outcome : Outcome} {response : Response}
    (answers : c.Answers m outcome response) (sound : hs.Sound) :
    hs.Keeps n response (.ofOutcome outcome) (∃ r, .compile (some n) r ∈ later) := by
  obtain ⟨⟨c', found, session, images, messages⟩, freed⟩ := h
  have owns := sound.owns found
  obtain ⟨image, message⟩ := Memory.read?_eq_some answers.read
  refine ⟨fun p here => ?_, fun p here unasked => ?_, fun p here asked => ?_, c', found, ?_⟩
  · have known := answers.image p here
    have same := answers.owns.block?_eq owns session (Context.owned?_of_image? known)
      (Context.owned?_of_image? (images p known))
    exact (Memory.bytes?_congr same _).trans (image p here)
  · have known : c.message? = some p := answers.message.symm.trans here
    have known' := (messages fun r asked => unasked ⟨r, asked⟩).trans known
    have same := answers.owns.block?_eq owns session (answers.owns.owned?_of_message? known)
      (owns.owned?_of_message? known')
    exact (Memory.cString?_congr same).trans (message p here)
  · exact Memory.cString?_of_freed (freed asked p (answers.message.symm.trans here))
  · exact owns.message ((congrArg Session.outcome? session).trans answers.known)

end Handles

end GraalScript
