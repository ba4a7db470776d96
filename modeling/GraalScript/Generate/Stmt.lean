import GraalScript.Generate.Expr
import GraalScript.Tree.Calls

/-! Code for statements, functions and programs. -/
namespace GraalScript

namespace Gen

def varDef (d : VarDef) : Gen Unit := do
  localVar d.name.name
  d.value.elim (emit .typeNull) expr
  emit .assign

def varDecl (decl : VarDecl) : Gen Unit := decl.defs.forM varDef

def forInit : ForInit → Gen Unit
  | .vars decl => varDecl decl
  | .expr e => effect e

def breakOut (line : Nat) : Gen Unit := do
  let label ← jump .setIndex
  let d ← get
  match d.frames with
  | [] => throw (.noLoop line)
  | frame :: frames =>
    set { d with frames := { frame with breaks := label :: frame.breaks } :: frames }

/-- Adds a continue to the innermost loop and drops the value of each switch on the way there. -/
def continueLoop (line : Nat) : Gen Unit := do
  let switches := (← get).frames.takeWhile Frame.isSwitch
  match (← get).frames.dropWhile Frame.isSwitch with
  | [] => throw (.noLoop line)
  | frame :: frames =>
    switches.forM fun _ => emit .indexDec
    let label ← jump .setIndex
    modify fun d => { d with
      frames := switches ++ { frame with continues := label :: frame.continues } :: frames }

/-- Ends a loop: its exit and its breaks lead here, its continues to `next`. -/
def endLoop (exit : Label) (next : Nat) : Gen Unit := do
  let frame ← leave
  patchHere exit
  frame.breaks.forM patchHere
  frame.continues.forM (patch · next)

/-- Compares a copy of the value of a switch with one label. Returns the start of the default body
as far as it is known. -/
def labelTest (start : Nat) (fallback : Option Nat) : Option Expr → Gen (Option Nat)
  | none => return some start
  | some label => do
    emit .copyLastOp
    expr label
    emit .eq
    jumpTo .setIndexTrue start
    return fallback

def switchTests (tests : List (Nat × List (Option Expr))) : Gen Unit := do
  let fallback ← tests.foldlM (fun fallback (start, labels) =>
    labels.foldlM (labelTest start) fallback) none
  match fallback with
  | none => return
  | some start => jumpTo .setIndex start

def onObject (body : Gen Unit) : Gen Unit := do
  emit .convToObject
  let done ← jump .withBegin
  body
  emit .withEnd
  patchHere done

/-- The bodies of a switch stand before its tests, so that they fall through. -/
def switch (bodies : Gen (List Nat)) (value : Gen Unit) (labels : List (List (Option Expr))) :
    Gen Unit := do
  let tests ← jump .setIndex
  enter .switch
  let starts ← bodies
  let done ← jump .setIndex
  patchHere tests
  value
  switchTests (starts.zip labels)
  let frame ← leave
  patchHere done
  frame.breaks.forM patchHere
  emit .indexDec

/-- Makes an object, runs the body on it, and adds it to the object around it. -/
def newControl (name : Gen Unit) (cls : String) (body : Gen Unit) : Gen Unit := do
  name
  emit .inlineNew
  emit .copyLastOp
  emit .copyLastOp
  emit .copyLastOp
  string cls
  emit .convToString
  emit .newObject
  emit .assign
  onObject body
  emit .typeArray
  emit .swapLastOps
  reference "addcontrol"
  emit .call
  emit .indexDec

mutual

def stmt : Stmt → Gen Unit
  | .block _ body => stmts body
  | .ifThen _ cond yes => do
    condition cond
    let otherwise ← jump .ifThen
    stmt yes
    patchHere otherwise
  | .ifElse _ cond yes no => choose (condition cond) (stmt yes) (stmt no)
  | .whileLoop _ cond body => do
    let start ← here
    condition cond
    let exit ← jump .ifThen
    emit .cmdCall
    enter .loop
    stmt body
    jumpTo .setIndex start
    endLoop exit start
  | .forLoop _ init cond step body => do
    init.elim (return) forInit
    let start ← here
    cond.elim (emit .typeTrue) condition
    let exit ← jump .ifThen
    emit .cmdCall
    enter .loop
    stmt body
    let next ← here
    step.elim (return) effect
    jumpTo .setIndex start
    endLoop exit next
  | .forEach line _ item binding iterable body => do
    bound line item binding
    expr iterable
    emit .convToObject
    number 0
    let start ← here
    let exit ← jump .forEach
    emit .cmdCall
    enter .loop
    stmt body
    let next ← here
    emit .inc
    jumpTo .setIndex start
    endLoop exit next
    emit .indexDec
  | .withObject _ object body => do
    expr object
    onObject (stmt body)
  | .switch _ value cases => switch (caseBodies [] cases) (expr value) (cases.map Case.labels)
  | .new _ cls name _ body => newControl (expr name) cls.name (stmts body)
  | .ret _ value => do
    value.elim (number 0) expr
    emit .ret
  | .breakOut line => breakOut line
  | .continueLoop line => continueLoop line
  | .vars decl => varDecl decl
  | .const .. => return
  | .expr e => effect e
  | .empty _ => return

def stmts : List Stmt → Gen Unit
  | [] => return
  | s :: ss => do
    stmt s
    stmts ss

def caseBodies (done : List Nat) : List Case → Gen (List Nat)
  | [] => return done.reverse
  | c :: cs => do
    let start ← here
    caseBody c
    caseBodies (start :: done) cs

def caseBody : Case → Gen Unit
  | .mk _ _ body => stmts body

end

def endsWithReturn (body : List Stmt) : Bool :=
  match body.getLast? with
  | some (.ret ..) => true
  | _ => false

def funcBody (f : Func) : Gen Unit := do
  emit .typeArray
  f.params.reverse.forM fun p => reference p.name
  emit .funcParamsEnd
  emit .jmp
  if f.body.hasCall then emit .cmdCall
  stmts f.body.body
  unless endsWithReturn f.body.body && (← lastOp?) = some .ret do
    number 0
    emit .ret

/-- Code that runs from top to bottom skips over functions. -/
def func (f : Func) : Gen Unit := do
  let skip ← jump .setIndex
  declare f.tableName
  funcBody f
  patchHere skip

def item : Item → Gen Unit
  | .func f => func f
  | .stmt s => stmt s

def program (p : Program) : Gen Unit := p.items.forM item

end Gen

structure Output where
  image : List UInt8
  /-- Classes joined by a literal name, in increasing order. -/
  joined : List String
  deriving DecidableEq, Repr

def Program.draft (p : Program) : Except CodeError Draft :=
  return ((← (Gen.program p).run .empty)).2

def Program.generate (p : Program) (prologue : List UInt8) : Except CodeError Output := do
  let draft ← p.draft
  return ⟨← draft.code.image prologue, draft.joined.toList⟩

end GraalScript
