import GraalScript.Proofs.Parser.ExprView
import GraalScript.Tree.Parser.Stmt

/-! Reading statements and programs agrees with every view that leaves the counts of loops and
switches alone. What stands in a statement around the statements inside it agrees with every
view. -/
namespace GraalScript

/-- The view shows how many loops and switches there are. -/
structure View.Counts (v : View) : Prop where
  loops : v.loops = id
  switches : v.switches = id

namespace Parser

variable {α β : Type} {v : View} {f : α → β} {p : Parser α} {q : Parser β}

theorem agrees_condition : Agrees v (Expr.recast v.tree) condition condition := by
  refine (agrees_consume _).bind fun _ => agrees_expr.bind fun e => ?_
  exact (agrees_consume _).bind fun _ => agrees_pure rfl

theorem agrees_exprUnless (close : TokenKind) :
    Agrees v (Option.map (Expr.recast v.tree)) (exprUnless close) (exprUnless close) := by
  refine agrees_peekKind.bind fun kind => agrees_ite (agrees_pure rfl) ?_
  exact agrees_expr.bind fun e => agrees_pure rfl

theorem agrees_exprStmt : Agrees v (Stmt.recast v.tree) exprStmt exprStmt :=
  agrees_expr.bind fun _ => (agrees_consume _).bind fun _ => agrees_pure rfl

theorem agrees_returnStmt : Agrees v (Stmt.recast v.tree) returnStmt returnStmt := by
  refine (agrees_consume _).bind fun t => (agrees_exprUnless _).bind fun value => ?_
  exact (agrees_consume _).bind fun _ => agrees_pure (by rw [v.line_token]; rfl)

theorem agrees_varDef : Agrees v (VarDef.recast v.tree) varDef varDef := by
  refine agrees_ident.bind fun name => (agrees_accept _).bind fun found => ?_
  exact agrees_ite (agrees_expr.bind fun value => agrees_pure rfl) (agrees_pure rfl)

theorem agrees_varDecl : Agrees v (VarDecl.recast v.tree) varDecl varDecl := by
  refine (agrees_consume _).bind fun t => ?_
  refine agrees_loop (f := List.map (VarDef.recast v.tree)) rfl fun seen =>
    agrees_varDef.bind fun d => ?_
  refine (agrees_accept _).bind fun found => agrees_ite (agrees_pure rfl) (agrees_pure ?_)
  simp [v.line_token, VarDecl.recast, View.tree, Recast.lines]

theorem agrees_varStmt : Agrees v (Stmt.recast v.tree) varStmt varStmt :=
  agrees_varDecl.bind fun _ => (agrees_consume _).bind fun _ => agrees_pure rfl

theorem agrees_constStmt : Agrees v (Stmt.recast v.tree) constStmt constStmt := by
  refine (agrees_consume _).bind fun t => agrees_ident.bind fun name =>
    (agrees_consume _).bind fun _ => ?_
  refine agrees_expr.bind fun value => (agrees_consume _).bind fun _ => agrees_pure ?_
  rw [v.line_token]
  rfl

theorem agrees_jumpStmt (line : Nat) {allowed : Stream → Bool}
    (same : ∀ s, allowed (v.stream s) = allowed s) (what : Misplaced) (stmt : Stmt) :
    Agrees v (Stmt.recast v.tree) (jumpStmt line allowed what stmt)
      (jumpStmt (v.line line) allowed what (stmt.recast v.tree)) := by
  refine agrees_advance.bind fun _ => agrees_get fun s => ?_
  rw [same]
  exact agrees_guard rfl ((agrees_consume _).bind fun _ => agrees_pure rfl)

theorem agrees_forInit : Agrees v (Option.map (ForInit.recast v.tree)) forInit forInit := by
  refine agrees_peekKind.bind fun kind => ?_
  simp only [id]
  split
  · exact agrees_pure rfl
  · exact agrees_varDecl.bind fun decl => agrees_pure rfl
  · exact agrees_expr.bind fun e => agrees_pure rfl

theorem agrees_caseLabels :
    Agrees v (List.map (Option.map (Expr.recast v.tree))) caseLabels caseLabels := by
  refine agrees_loop (f := List.map (Option.map (Expr.recast v.tree))) rfl fun seen => ?_
  refine agrees_peekKind.bind fun kind => ?_
  simp only [id]
  split
  · refine agrees_advance.bind fun _ => agrees_expr.bind fun label => ?_
    exact (agrees_consume _).bind fun _ => agrees_pure rfl
  · exact agrees_advance.bind fun _ => (agrees_consume _).bind fun _ => agrees_pure rfl
  · exact agrees_pure (by simp)

theorem isForEach_stream (s : Stream) : isForEach (v.stream s) = isForEach s := by
  simp only [isForEach, v.kindAt_stream]

theorem agrees_insideLoop (counts : v.Counts) (h : Agrees v f p q) :
    Agrees v f (insideLoop p) (insideLoop q) := by
  intro s
  have enter : (v.stream s).enterLoop = v.stream s.enterLoop := by
    simp [Stream.enterLoop, View.stream, counts.loops]
  have leave (s : Stream) : (v.stream s).leaveLoop = v.stream s.leaveLoop := by
    simp [Stream.leaveLoop, View.stream, counts.loops]
  change ((q.run (v.stream s).enterLoop).1, (q.run (v.stream s).enterLoop).2.leaveLoop) = _
  rw [enter, h, leave]
  rfl

theorem agrees_insideSwitch (counts : v.Counts) (h : Agrees v f p q) :
    Agrees v f (insideSwitch p) (insideSwitch q) := by
  intro s
  have enter : (v.stream s).enterSwitch = v.stream s.enterSwitch := by
    simp [Stream.enterSwitch, View.stream, counts.switches]
  have leave (s : Stream) : (v.stream s).leaveSwitch = v.stream s.leaveSwitch := by
    simp [Stream.leaveSwitch, View.stream, counts.switches]
  change ((q.run (v.stream s).enterSwitch).1, (q.run (v.stream s).enterSwitch).2.leaveSwitch) = _
  rw [enter, h, leave]
  rfl

section level

variable {stmt : Parser Stmt} (below : Agrees v (Stmt.recast v.tree) stmt stmt)

include below

theorem agrees_block : Agrees v (Block.recast v.tree) (block stmt) (block stmt) := by
  refine (agrees_consume _).bind fun t =>
    Agrees.bind (f := List.map (Stmt.recast v.tree)) ?_ fun body => ?_
  · refine agrees_loop (f := List.map (Stmt.recast v.tree)) rfl fun seen => ?_
    refine agrees_peekKind.bind fun kind => ?_
    simp only [id]
    split
    · exact agrees_pure (by simp)
    · exact (agrees_consume _).bind fun _ => agrees_pure rfl
    · exact below.bind fun s => agrees_pure rfl
  · refine (agrees_consume _).bind fun _ => agrees_pure ?_
    rw [v.line_token, Block.recast, Stmt.recastAll_eq]
    rfl

theorem agrees_blockStmt : Agrees v (Stmt.recast v.tree) (blockStmt stmt) (blockStmt stmt) :=
  (agrees_block below).bind fun _ => agrees_pure rfl

theorem agrees_ifStmt : Agrees v (Stmt.recast v.tree) (ifStmt stmt) (ifStmt stmt) := by
  refine (agrees_consume _).bind fun t => agrees_condition.bind fun cond => below.bind fun yes => ?_
  rw [v.line_token]
  refine (agrees_accept _).bind fun found => agrees_ite ?_ (agrees_pure rfl)
  exact below.bind fun no => agrees_pure rfl

theorem agrees_withStmt : Agrees v (Stmt.recast v.tree) (withStmt stmt) (withStmt stmt) := by
  refine (agrees_consume _).bind fun t => agrees_condition.bind fun object =>
    below.bind fun body => ?_
  rw [v.line_token]
  exact agrees_pure rfl

theorem agrees_newStmt : Agrees v (Stmt.recast v.tree) (newStmt stmt) (newStmt stmt) := by
  refine (agrees_newExpr agrees_deeperExpr).bind fun e => agrees_peekKind.bind fun kind => ?_
  refine agrees_ite ((agrees_consume _).bind fun _ => agrees_pure rfl) ?_
  have other : Agrees v (Stmt.recast v.tree)
      (do throw (.unexpected .semicolonAfterNew .leftBrace (← lastLine)))
      (do throw (.unexpected .semicolonAfterNew .leftBrace (← lastLine))) :=
    agrees_lastLine.bind fun line => agrees_throw rfl
  cases e with
  | new line cls args =>
    match args with
    | [name] => exact (agrees_block below).bind fun b => agrees_pure rfl
    | [] | _ :: _ :: _ => exact other
  | _ => exact other

theorem agrees_caseBody :
    Agrees v (List.map (Stmt.recast v.tree)) (caseBody stmt) (caseBody stmt) := by
  refine agrees_loop (f := List.map (Stmt.recast v.tree)) rfl fun seen => ?_
  refine agrees_peekKind.bind fun kind => ?_
  simp only [id]
  split
  iterate 3 exact agrees_pure (by simp)
  · exact (agrees_consume _).bind fun _ => agrees_pure rfl
  · exact below.bind fun s => agrees_pure rfl

theorem agrees_cases : Agrees v (List.map (Case.recast v.tree)) (cases stmt) (cases stmt) := by
  refine agrees_loop (f := List.map (Case.recast v.tree)) rfl fun seen =>
    agrees_peek.bind fun t => ?_
  rw [v.kind_token, v.line_token]
  split
  · exact agrees_pure (by simp)
  iterate 2
    refine agrees_caseLabels.bind fun labels => (agrees_caseBody below).bind fun body => ?_
    have same : Case.mk (v.line t.line) (labels.map (Option.map (Expr.recast v.tree)))
        (body.map (Stmt.recast v.tree)) = (Case.mk t.line labels body).recast v.tree := by
      rw [Case.recast, Stmt.recastAll_eq]
      rfl
    simp only [same, Case.isDefault_recast, Case.line_recast, List.any_map, Function.comp_def]
    exact agrees_guard rfl (agrees_pure rfl)
  · exact agrees_throw rfl

variable (counts : v.Counts)

include counts

theorem agrees_whileStmt : Agrees v (Stmt.recast v.tree) (whileStmt stmt) (whileStmt stmt) := by
  refine (agrees_consume _).bind fun t => agrees_condition.bind fun cond => ?_
  refine (agrees_insideLoop counts below).bind fun body => agrees_pure ?_
  rw [v.line_token]
  rfl

theorem agrees_forStmt : Agrees v (Stmt.recast v.tree) (forStmt stmt) (forStmt stmt) := by
  refine (agrees_consume _).bind fun t => (agrees_consume _).bind fun _ => agrees_get fun s => ?_
  rw [isForEach_stream, v.line_token]
  refine agrees_ite ?_ ?_
  · refine (agrees_accept _).bind fun declared => agrees_ident.bind fun item => ?_
    refine (agrees_consume _).bind fun _ => agrees_expr.bind fun iterable => ?_
    refine (agrees_consume _).bind fun _ => (agrees_insideLoop counts below).bind fun body => ?_
    exact agrees_pure rfl
  · refine agrees_forInit.bind fun init => (agrees_consume _).bind fun _ => ?_
    refine (agrees_exprUnless _).bind fun cond => (agrees_consume _).bind fun _ => ?_
    refine (agrees_exprUnless _).bind fun step => (agrees_consume _).bind fun _ => ?_
    exact (agrees_insideLoop counts below).bind fun body => agrees_pure rfl

theorem agrees_switchStmt : Agrees v (Stmt.recast v.tree) (switchStmt stmt) (switchStmt stmt) := by
  refine (agrees_consume _).bind fun t => agrees_condition.bind fun value =>
    (agrees_consume _).bind fun _ => ?_
  refine (agrees_insideSwitch counts (agrees_cases below)).bind fun cs =>
    (agrees_consume _).bind fun _ => ?_
  rw [v.line_token]
  exact agrees_pure (by rw [Stmt.recast, Case.recastAll_eq]; rfl)

theorem agrees_keywordStmt (t : Token) (word : Keyword) :
    Agrees v (Stmt.recast v.tree) (keywordStmt stmt t word)
      (keywordStmt stmt (v.token t) word) := by
  cases word with
  | ifKw => exact agrees_ifStmt below
  | whileKw => exact agrees_whileStmt below counts
  | forKw => exact agrees_forStmt below counts
  | withKw => exact agrees_withStmt below
  | returnKw => exact agrees_returnStmt
  | switchKw => exact agrees_switchStmt below counts
  | newKw => exact agrees_newStmt below
  | breakKw =>
    rw [keywordStmt, keywordStmt, v.line_token]
    refine agrees_jumpStmt t.line (fun s => ?_) _ (.breakOut t.line)
    simp [Stream.canBreak, View.stream, counts.loops, counts.switches]
  | continueKw =>
    rw [keywordStmt, keywordStmt, v.line_token]
    refine agrees_jumpStmt t.line (fun s => ?_) _ (.continueLoop t.line)
    simp [Stream.inLoop, View.stream, counts.loops]
  | varKw => exact agrees_varStmt
  | constKw => exact agrees_constStmt
  | functionKw | publicKw => exact agrees_throw (by rw [v.line_token]; rfl)
  | elseKw | caseKw | defaultKw | inKw =>
    exact agrees_throw (by rw [v.line_token, v.kind_token]; rfl)
  | trueKw | falseKw | nullKw => exact agrees_exprStmt

theorem agrees_anyStmt : Agrees v (Stmt.recast v.tree) (anyStmt stmt) (anyStmt stmt) := by
  refine agrees_peek.bind fun t => ?_
  simp only [v.kind_token, v.line_token]
  split
  · exact agrees_blockStmt below
  · exact agrees_advance.bind fun _ => agrees_pure rfl
  · exact agrees_keywordStmt below counts t _
  · exact agrees_throw rfl
  · exact agrees_exprStmt

end level

section program

variable (counts : v.Counts)

include counts

theorem agrees_stmtAt (n : Nat) : Agrees v (Stmt.recast v.tree) (stmtAt n) (stmtAt n) := by
  induction n with
  | zero => exact agrees_tooDeep
  | succ n ih => exact agrees_anyStmt (agrees_nested ih) counts

theorem agrees_stmt : Agrees v (Stmt.recast v.tree) stmt stmt :=
  agrees_room.bind fun n => agrees_nested (agrees_stmtAt counts n)

theorem agrees_func : Agrees v (Func.recast v.tree) func func := by
  refine (agrees_accept _).bind fun isPublic => (agrees_consume _).bind fun t => ?_
  refine agrees_ident.bind fun first => (agrees_accept _).bind fun dot => ?_
  simp only [pure_bind, v.line_token]
  have rest (object : Option Ident) (name : Ident) : Agrees v (Func.recast v.tree)
      (do
        let _ ← consume .leftParen
        let params ← listed ident .rightParen
        let _ ← consume .rightParen
        let body ← block stmt
        return ⟨t.line, isPublic, object, name, params.items, body⟩)
      (do
        let _ ← consume .leftParen
        let params ← listed ident .rightParen
        let _ ← consume .rightParen
        let body ← block stmt
        return ⟨v.line t.line, isPublic, object.map (Ident.relined v.line), name.relined v.line,
          params.items, body⟩) := by
    refine (agrees_consume _).bind fun _ => (agrees_listed agrees_ident _).bind fun params => ?_
    refine (agrees_consume _).bind fun _ => (agrees_block (agrees_stmt counts)).bind fun body => ?_
    exact agrees_pure rfl
  exact agrees_ite (agrees_ident.bind fun name => rest (some first) name) (rest none first)

def Reading.recast (r : Recast) (seen : Reading) : Reading :=
  ⟨seen.items.map (Item.recast r), seen.count, seen.clientside⟩

theorem agrees_program : Agrees v (Program.recast v.tree) program program := by
  refine agrees_loop (f := Reading.recast v.tree) rfl fun seen => agrees_peek.bind fun t => ?_
  rw [v.kind_token]
  simp only [v.line_token]
  split
  · refine agrees_guard rfl (agrees_pure ?_)
    simp [Reading.recast, Program.recast]
  · refine agrees_advance.bind fun _ => agrees_guard rfl (agrees_pure rfl)
  · exact (agrees_func counts).bind fun f => agrees_pure rfl
  · exact (agrees_func counts).bind fun f => agrees_pure rfl
  · exact (agrees_stmt counts).bind fun s => agrees_pure rfl

end program

end Parser

end GraalScript
