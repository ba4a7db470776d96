import GraalScript.Session
import GraalScript.Text.Utf8

/-! Sessions behind numbered handles, for callers that pass texts as bytes ended by a zero byte.
They are answered with pointers to blocks of memory that the sessions own. -/
namespace GraalScript

/-- The text of some bytes up to the first zero byte, empty without any bytes. What is no text is
replaced. -/
def foreignText (bytes : Option (List UInt8)) : String :=
  Text.ofBytesLossy ((bytes.getD []).takeWhile (· != 0))

abbrev Pointer := Nat

/-- The blocks of memory by pointer, without those that were freed. -/
structure Memory where
  blocks : Array (Option (List UInt8))

namespace Memory

def empty : Memory := ⟨#[]⟩

def block? (m : Memory) (p : Pointer) : Option (List UInt8) := m.blocks[p]?.join

def allocate (m : Memory) (bytes : List UInt8) : Pointer × Memory :=
  (m.blocks.size, ⟨m.blocks.push (some bytes)⟩)

def free (m : Memory) (p : Option Pointer) : Memory :=
  match p with
  | none => m
  | some p => ⟨m.blocks.setIfInBounds p none⟩

def cString? (m : Memory) (p : Pointer) : Option (List UInt8) := do
  let block ← m.block? p
  if block.contains 0 then some (block.takeWhile (· != 0)) else none

def bytes? (m : Memory) (p : Pointer) (size : Nat) : Option (List UInt8) := do
  let block ← m.block? p
  if size ≤ block.length then some (block.take size) else none

end Memory

/-- What a call returns. Nothing at all is told about a handle that is not in use. -/
structure Response where
  success : Bool
  message? : Option Pointer
  image? : Option Pointer
  size : UInt32
  deriving DecidableEq, Repr

def Response.invalid : Response := ⟨false, none, none, 0⟩

structure Reading where
  success : Bool
  message? : Option (List UInt8)
  image? : Option (List UInt8)
  size : UInt32
  deriving DecidableEq, Repr

/-- Nothing, if one of the pointers points to a block that is not there. -/
def Memory.read? (m : Memory) (r : Response) : Option Reading := do
  let message ← r.message?.mapM m.cString?
  let image ← r.image?.mapM (m.bytes? · r.size.toNat)
  return ⟨r.success, message, image, r.size⟩

def Diagnostic.foreignMessage (d : Diagnostic) : String :=
  String.ofList (d.message.toList.takeWhile (· != '\x00'))

structure Context where
  session : Session
  image? : Option Pointer
  message? : Option Pointer

namespace Context

def new : Context := ⟨.new .default, none, none⟩

def compile (c : Context) (m : Memory) (script : Option ScriptId) (text : String) :
    Context × Memory :=
  match c.session.compile script text with
  | .error _ => (c, m)
  | .ok session =>
    match session.outcome? with
    | some (.ok output) =>
      let (p, m) := m.allocate output.image
      ({ c with session, image? := some p }, m)
    | _ => ({ c with session }, m)

/-- Tells the outcome. A message takes the place of the one before it, which is freed. -/
def respond (c : Context) (m : Memory) : Response × Context × Memory :=
  match c.session.outcome? with
  | none => (.invalid, c, m)
  | some (.ok output) =>
    if output.image.length < 0x100000000 then
      (⟨true, none, c.image?, .ofNat output.image.length⟩, c, m)
    else (.invalid, c, m)
  | some (.error d) =>
    let (p, m) := m.allocate (Text.bytes d.foreignMessage ++ [0])
    (⟨false, some p, none, 0⟩, { c with message? := some p }, m.free c.message?)

def ask (c : Context) (m : Memory) (script : Option ScriptId) (text : String) :
    Response × Context × Memory :=
  let (compiled, m) := c.compile m script text
  compiled.respond m

end Context

/-- The sessions by handle, without those that were deleted. -/
structure Handles where
  contexts : Array (Option Context)
  memory : Memory

namespace Handles

def empty : Handles := ⟨#[], .empty⟩

def create (hs : Handles) : Nat × Handles :=
  (hs.contexts.size, { hs with contexts := hs.contexts.push (some .new) })

def context? (hs : Handles) (handle : Option Nat) : Option Context := do
  let n ← handle
  (← hs.contexts[n]?)

def put (hs : Handles) (handle : Option Nat) (context : Option Context) (memory : Memory) :
    Handles :=
  match handle with
  | none => { hs with memory }
  | some n => ⟨hs.contexts.setIfInBounds n context, memory⟩

def delete (hs : Handles) (handle : Option Nat) : Handles :=
  match hs.context? handle with
  | none => hs
  | some c => hs.put handle none ((hs.memory.free c.image?).free c.message?)

def compile (hs : Handles) (handle : Option Nat) (script : Option ScriptId) (text : String) :
    Response × Handles :=
  match hs.context? handle with
  | none => (.invalid, hs)
  | some before =>
    let (response, after, memory) := before.ask hs.memory script text
    (response, hs.put handle (some after) memory)

end Handles

end GraalScript
