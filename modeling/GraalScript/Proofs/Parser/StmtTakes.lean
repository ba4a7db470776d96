import GraalScript.Proofs.Parser.Formed
import GraalScript.Proofs.Parser.Takes

/-! Reading printed statements, functions and programs. -/
namespace GraalScript

open TokenKind Print

namespace Place

def inLoop (pl : Place) : Place := { pl with loops := pl.loops + 1 }

def inSwitch (pl : Place) : Place := { pl with switches := pl.switches + 1 }

theorem Room.inLoop {pl : Place} {k : Nat} (h : pl.Room k) : pl.inLoop.Room k :=
  ⟨h.levels, h.rounds⟩

theorem Room.inSwitch {pl : Place} {k : Nat} (h : pl.Room k) : pl.inSwitch.Room k :=
  ⟨h.levels, h.rounds⟩

end Place

namespace Parser

variable {α : Type} {pl : Place} {p : Parser α} {ts mid rest : List Token} {a : α} {t : Token}

theorem takes_fixed (kind : TokenKind) : Takes pl (consume kind) (kind.bare :: ts) ts kind.bare :=
  takes_consume _ _

theorem takes_insideLoop (h : Takes pl.inLoop p ts rest a) : Takes pl (insideLoop p) ts rest a := by
  change ((p.run (pl.inLoop.before ts)).1, (p.run (pl.inLoop.before ts)).2.leaveLoop) = _
  rw [show p.run (pl.inLoop.before ts) = _ from h]
  rfl

theorem takes_insideSwitch (h : Takes pl.inSwitch p ts rest a) :
    Takes pl (insideSwitch p) ts rest a := by
  change ((p.run (pl.inSwitch.before ts)).1, (p.run (pl.inSwitch.before ts)).2.leaveSwitch) = _
  rw [show p.run (pl.inSwitch.before ts) = _ from h]
  rfl

section expressions

variable {e : Expr}

theorem ReadBack.knows_deeperExpr (h : ReadBack e) (room : pl.Room (e.tokens.length + 3)) :
    Knows pl deeperExpr e := by
  have levels := room.levels
  have below : Knows pl (fun g => nested (exprAt (pl.limit - pl.depth) g)) e :=
    h.knows (by omega) room
  exact ⟨below.inner, below.outer⟩

theorem takes_expr (h : ReadBack e) (room : pl.Room (e.tokens.length + 3)) (ends : Ends rest) :
    Takes pl expr (e.print ++ rest) rest (e.recast .flat) :=
  (h.knows_deeperExpr room).outer .assignment rest rfl ends

theorem takes_condition (h : ReadBack e) (room : pl.Room (e.tokens.length + 3)) :
    Takes pl condition (parens e.print ++ rest) rest (e.recast .flat) := by
  have tokens :
      parens e.print ++ rest = leftParen.bare :: (e.print ++ rightParen.bare :: rest) := by
        simp [parens]
  rw [tokens]
  exact (takes_consume _ _).bind
    ((takes_expr h room ends_rightParen).bind ((takes_consume _ _).bind takes_pure))

theorem length_print (e : Expr) : e.print.length = e.tokens.length + 2 := by
  simp [Expr.print, parens]

theorem takes_exprUnless {e : Option Expr} (close : TokenKind) (isClose : isEnd close = true)
    (other : close ≠ .leftParen) (each : ∀ x ∈ e, ReadBack x)
    (room : pl.Room ((e.elim [] Expr.print).length + 1)) :
    Takes pl (exprUnless close) (e.elim [] Expr.print ++ close.bare :: rest) (close.bare :: rest)
      (e.map (Expr.recast .flat)) := by
  cases e with
  | none =>
    refine (takes_peekKind _).bind ?_
    rw [if_pos (show close.bare.kind = close from rfl)]
    exact takes_pure
  | some e =>
    rw [Option.elim_some, length_print] at room
    have read := takes_expr (each e rfl) room (ends_bare isClose close.text rest)
    rw [Option.elim_some]
    refine Takes.bind (a := .leftParen) (takes_peekKind leftParen.bare) ?_
    rw [if_neg (Ne.symm other)]
    exact read.bind takes_pure

end expressions

section declarations

variable {n : Nat}

theorem takes_varDef {d : VarDef} (each : ∀ e ∈ d.value, ReadBack e)
    (room : pl.Room (d.tokens.length + 1)) (ends : isEnd t.kind = true) :
    Takes pl varDef (d.tokens ++ t :: rest) (t :: rest) (d.recast .flat) := by
  obtain ⟨name, value⟩ := d
  cases value with
  | none =>
    have stop : t.kind ≠ .eq := by
      intro kind
      rw [kind] at ends
      cases ends
    exact (takes_ident _).bind ((takes_notAccept stop).bind takes_pure)
  | some e =>
    simp only [VarDef.tokens, Option.elim_some, List.length_cons, length_print] at room
    refine (takes_ident _).bind ((takes_accept _ _).bind ?_)
    exact (takes_expr (each e rfl) (room.mono (by omega)) ⟨t, rest, rfl, ends⟩).bind takes_pure

theorem takes_varDecl {decl : VarDecl} (formed : decl.Formed n)
    (room : pl.Room (decl.tokens.length + 1)) :
    Takes pl varDecl (decl.tokens ++ semicolon.bare :: rest) (semicolon.bare :: rest)
      (decl.recast .flat) := by
  obtain ⟨line, defs⟩ := decl
  have count : (defs.map VarDef.tokens).length ≤ (commas (defs.map VarDef.tokens)).length := by
    refine count_le_commas fun part inside => ?_
    obtain ⟨d, _, rfl⟩ := List.mem_map.mp inside
    exact List.cons_ne_nil _ _
  rw [List.length_map] at count
  simp only [VarDecl.tokens, List.length_cons] at room
  have rounds := room.rounds
  have each (d : VarDef) (hd : d ∈ defs) {t : Token} {rest : List Token}
      (ends : isEnd t.kind = true) :
      Takes pl varDef (d.tokens ++ t :: rest) (t :: rest) (d.recast .flat) := by
    have part := length_le_commas (List.mem_map_of_mem (f := VarDef.tokens) hd)
    exact takes_varDef (fun e he => readBack_of_formed (formed.values d hd e he).formed)
      (room.mono (by omega)) ends
  refine (takes_consume _ _).bind (takes_loop ?_)
  have nonempty : defs ≠ [] := formed.nonempty
  have enough : defs.length ≤ pl.size + 1 := by omega
  refine takes_commas (a := []) (fun (seen : List VarDef) later =>
    (⟨Pos.origin.line, seen.reverse ++ later.map (VarDef.recast .flat)⟩ : VarDecl))
    nonempty enough (fun d hd seen rest => ?_) fun d hd seen => ?_
  · refine ⟨d.recast .flat :: seen, ?_, fun later => by simp⟩
    exact (each d hd rfl).bind ((takes_accept _ _).bind takes_pure)
  · refine (each d hd rfl).bind ((takes_notAccept (by nofun)).bind ?_)
    simp only [List.map_cons, List.map_nil, ← List.reverse_cons]
    exact takes_pure

theorem takes_forInit {init : Option ForInit} (formed : ∀ i ∈ init, i.Formed n)
    (room : pl.Room ((init.elim [] ForInit.tokens).length + 1)) :
    Takes pl forInit (init.elim [] ForInit.tokens ++ semicolon.bare :: rest)
      (semicolon.bare :: rest)
      (init.map (ForInit.recast .flat)) := by
  rcases init with _ | decl | e
  · exact (takes_peekKind _).bind takes_pure
  · refine Takes.bind (takes_peekKind (word .varKw)) ?_
    exact (takes_varDecl (formed _ rfl) room).bind takes_pure
  · have deeper : e.Deeper n := formed _ rfl
    simp only [Option.elim_some, ForInit.tokens, length_print] at room
    refine Takes.bind (takes_peekKind leftParen.bare) ?_
    exact (takes_expr (readBack_of_formed deeper.formed) room (ends_bare rfl _ _)).bind takes_pure

end declarations

section statements

variable {line : Nat} {stmt : Parser Stmt}

def startsStmt : TokenKind → Bool
  | .leftBrace | .semicolon | .leftParen => true
  | .keyword word =>
    word ∈ [.ifKw, .whileKw, .forKw, .withKw, .switchKw, .newKw, .returnKw, .breakKw, .continueKw,
      .varKw, .constKw]
  | _ => false

theorem exists_start (s : Stmt) : ∃ t ts, s.tokens = t :: ts ∧ startsStmt t.kind = true := by
  cases s <;> exact ⟨_, _, rfl, rfl⟩

/-- These tokens can follow the statement: no else that would belong to it. -/
def Follows (s : Stmt) (rest : List Token) : Prop :=
  ∃ t us, rest = t :: us ∧ (s.isOpen = true → t.kind ≠ .keyword .elseKw)

/-- The tokens of a statement are read back in front of what can follow it. -/
def StmtBack (pl : Place) (p : Parser Stmt) (s : Stmt) : Prop :=
  ∀ rest, Follows s rest → Takes pl p (s.tokens ++ rest) rest (s.recast .flat)

theorem follows_stmts (s : Stmt) (later : List Stmt) (rest : List Token)
    (h : t.kind ≠ .keyword .elseKw) : Follows s (later.flatMap Stmt.tokens ++ t :: rest) := by
  cases later with
  | nil => exact ⟨t, rest, rfl, fun _ => h⟩
  | cons next later =>
    obtain ⟨first, ts, tokens, isStart⟩ := exists_start next
    rw [List.flatMap_cons, tokens]
    refine ⟨first, _, rfl, fun _ kind => ?_⟩
    rw [kind] at isStart
    cases isStart

theorem takes_block {body : List Stmt} (enough : body.length ≤ pl.size)
    (each : ∀ s ∈ body, StmtBack pl stmt s) :
    Takes pl (block stmt) (braces (Stmt.tokensAll body) ++ rest) rest
      ⟨Pos.origin.line, Stmt.recastAll .flat body⟩ := by
  have tokens : braces (Stmt.tokensAll body) ++ rest =
      leftBrace.bare :: (body.flatMap Stmt.tokens ++ rightBrace.bare :: rest) := by
        simp [braces, Stmt.tokensAll_eq]
  rw [tokens, Stmt.recastAll_eq]
  refine (takes_consume _ _).bind ((takes_collect (f := Stmt.recast .flat) enough ?_ ?_).bind
    ((takes_fixed .rightBrace).bind takes_pure))
  · intro seen s later whole
    have read :=
      each s (by simp [whole]) _ (follows_stmts s later rest (t := rightBrace.bare) (by decide))
    obtain ⟨t, ts, start, isStart⟩ := exists_start s
    rw [start] at read ⊢
    refine (takes_peekKind t).bind ?_
    generalize t.kind = kind at isStart
    cases kind <;> first | exact read.bind takes_pure | cases isStart
  · refine (takes_peekKind _).bind ?_
    simp only [List.reverse_reverse]
    exact takes_pure

theorem back_block {body : List Stmt} (enough : body.length ≤ pl.size)
    (each : ∀ s ∈ body, StmtBack pl stmt s) : StmtBack pl (anyStmt stmt) (.block line body) :=
  fun _ _ => (takes_peek leftBrace.bare).bind ((takes_block enough each).bind takes_pure)

theorem back_ifThen {cond : Expr} {yes : Stmt} (hc : ReadBack cond)
    (room : pl.Room (cond.tokens.length + 3)) (hy : StmtBack pl stmt yes) :
    StmtBack pl (anyStmt stmt) (.ifThen line cond yes) := by
  rintro _ ⟨t, us, rfl, noElse⟩
  have other : t.kind ≠ .keyword .elseKw := noElse rfl
  have tokens : (Stmt.ifThen line cond yes).tokens ++ t :: us =
      word .ifKw :: (parens cond.print ++ (yes.tokens ++ t :: us)) := by simp [Stmt.tokens]
  rw [tokens]
  refine (takes_peek _).bind ((takes_consume _ _).bind ((takes_condition hc room).bind ?_))
  exact (hy _ ⟨t, us, rfl, fun _ => other⟩).bind ((takes_notAccept other).bind takes_pure)

theorem back_ifElse {cond : Expr} {yes no : Stmt} (hc : ReadBack cond)
    (room : pl.Room (cond.tokens.length + 3)) (hy : StmtBack pl stmt yes)
    (closed : yes.isOpen = false) (hn : StmtBack pl stmt no) :
    StmtBack pl (anyStmt stmt) (.ifElse line cond yes no) := by
  intro rest follows
  have tokens : (Stmt.ifElse line cond yes no).tokens ++ rest =
      word .ifKw :: (parens cond.print ++ (yes.tokens ++ word .elseKw :: (no.tokens ++ rest))) := by
        simp [Stmt.tokens]
  have inYes : Follows yes (word .elseKw :: (no.tokens ++ rest)) := ⟨_, _, rfl, by simp [closed]⟩
  rw [tokens]
  refine (takes_peek _).bind
    ((takes_consume _ _).bind ((takes_condition hc room).bind ((hy _ inYes).bind ?_)))
  exact (takes_accept _ _).bind ((hn rest follows).bind takes_pure)

theorem back_whileLoop {cond : Expr} {body : Stmt} (hc : ReadBack cond)
    (room : pl.Room (cond.tokens.length + 3)) (hb : StmtBack pl.inLoop stmt body) :
    StmtBack pl (anyStmt stmt) (.whileLoop line cond body) := by
  intro rest follows
  have tokens : (Stmt.whileLoop line cond body).tokens ++ rest =
      word .whileKw :: (parens cond.print ++ (body.tokens ++ rest)) := by simp [Stmt.tokens]
  rw [tokens]
  refine (takes_peek _).bind ((takes_consume _ _).bind ((takes_condition hc room).bind ?_))
  exact (takes_insideLoop (hb rest follows)).bind takes_pure

theorem back_withObject {object : Expr} {body : Stmt} (ho : ReadBack object)
    (room : pl.Room (object.tokens.length + 3)) (hb : StmtBack pl stmt body) :
    StmtBack pl (anyStmt stmt) (.withObject line object body) := by
  intro rest follows
  have tokens : (Stmt.withObject line object body).tokens ++ rest =
      word .withKw :: (parens object.print ++ (body.tokens ++ rest)) := by simp [Stmt.tokens]
  rw [tokens]
  refine (takes_peek _).bind ((takes_consume _ _).bind ((takes_condition ho room).bind ?_))
  exact (hb rest follows).bind takes_pure

theorem takes_get : Takes pl (get : Parser Stream) ts ts (pl.before ts) := rfl

theorem back_forEach {declared : Bool} {item : String} {iterable : Expr} {body : Stmt}
    (hi : ReadBack iterable) (room : pl.Room (iterable.tokens.length + 3))
    (hb : StmtBack pl.inLoop stmt body) :
    StmtBack pl (anyStmt stmt) (.forEach line declared item .unresolved iterable body) := by
  intro rest follows
  have tail :
      Takes pl (forEachRest stmt Pos.origin.line)
        ((if declared then [word .varKw] else []) ++ named item :: colon.bare ::
          (iterable.print ++ rightParen.bare :: (body.tokens ++ rest))) rest
      ((Stmt.forEach line declared item .unresolved iterable body).recast .flat) := by
    cases declared
    case' true => refine (takes_accept _ _).bind ?_
    case' false => refine (takes_notAccept (t := named item) (by nofun)).bind ?_
    all_goals
      refine (takes_ident _).bind
        ((takes_fixed .colon).bind ((takes_expr hi room ends_rightParen).bind ?_))
      exact (takes_fixed .rightParen).bind ((takes_insideLoop (hb rest follows)).bind takes_pure)
  have tokens : (Stmt.forEach line declared item .unresolved iterable body).tokens ++ rest =
      word .forKw :: leftParen.bare :: ((if declared then [word .varKw] else []) ++
        named item :: colon.bare ::
          (iterable.print ++ rightParen.bare :: (body.tokens ++ rest))) := by
    simp [Stmt.tokens, parens]
  rw [tokens]
  refine (takes_peek _).bind
    ((takes_consume _ _).bind ((takes_consume _ _).bind (takes_get.bind ?_)))
  rw [if_pos (by cases declared <;> rfl)]
  exact tail

theorem isForEach_init {n : Nat} {init : Option ForInit} (formed : ∀ i ∈ init, i.Formed n) :
    isForEach (pl.before (init.elim [] ForInit.tokens ++ semicolon.bare :: rest)) = false := by
  rcases init with _ | decl | e
  · rfl
  · have nonempty : decl.defs ≠ [] := (formed _ rfl : decl.Formed n).nonempty
    obtain ⟨line, defs⟩ := decl
    obtain ⟨⟨id, value⟩, defs, rfl⟩ := List.exists_cons_of_ne_nil nonempty
    cases value <;> cases defs <;> rfl
  · rfl

theorem back_forLoop {n : Nat} {init : Option ForInit} {cond step : Option Expr} {body : Stmt}
    (first : ∀ i ∈ init, i.Formed n) (test : ∀ e ∈ cond, ReadBack e) (next : ∀ e ∈ step, ReadBack e)
    (firstRoom : pl.Room ((init.elim [] ForInit.tokens).length + 1))
    (testRoom : pl.Room ((cond.elim [] Expr.print).length + 1))
    (nextRoom : pl.Room ((step.elim [] Expr.print).length + 1))
    (hb : StmtBack pl.inLoop stmt body) :
    StmtBack pl (anyStmt stmt) (.forLoop line init cond step body) := by
  intro rest follows
  have tokens : (Stmt.forLoop line init cond step body).tokens ++ rest =
      word .forKw :: leftParen.bare ::
      (init.elim [] ForInit.tokens ++
        semicolon.bare ::
          (cond.elim [] Expr.print ++
            semicolon.bare ::
              (step.elim [] Expr.print ++ rightParen.bare ::
                (body.tokens ++ rest)))) := by simp [Stmt.tokens, parens]
  rw [tokens]
  refine (takes_peek _).bind
    ((takes_consume _ _).bind ((takes_consume _ _).bind (takes_get.bind ?_)))
  rw [isForEach_init first]
  refine (takes_forInit first firstRoom).bind ((takes_fixed .semicolon).bind ?_)
  refine (takes_exprUnless .semicolon rfl (by decide) test testRoom).bind
    ((takes_fixed .semicolon).bind ?_)
  refine (takes_exprUnless .rightParen rfl (by decide) next nextRoom).bind
    ((takes_fixed .rightParen).bind ?_)
  exact (takes_insideLoop (hb rest follows)).bind takes_pure

theorem takes_caseLabels (rest : List Token) {labels : List (Option Expr)}
    (enough : labels.length ≤ pl.size)
    (each : ∀ label ∈ labels, ∀ e ∈ label, ReadBack e ∧ pl.Room (e.tokens.length + 3))
    (stop : t.kind.isLabel = false) :
    Takes pl caseLabels (labels.flatMap Case.labelTokens ++ t :: rest) (t :: rest)
      (labels.map (Option.map (Expr.recast .flat))) := by
  refine takes_collect (f := Option.map (Expr.recast .flat)) enough
    (fun seen label later whole => ?_) ?_
  · cases label with
    | none =>
      exact (takes_peekKind (word .defaultKw)).bind
        ((takes_advance _ _).bind ((takes_fixed .colon).bind takes_pure))
    | some e =>
      obtain ⟨back, room⟩ := each (some e) (by simp [whole]) e rfl
      generalize later.flatMap Case.labelTokens ++ t :: rest = behind
      have tokens : Case.labelTokens (some e) ++ behind =
          word .caseKw :: (e.print ++ colon.bare :: behind) := by
        simp [Case.labelTokens]
      rw [tokens]
      refine (takes_peekKind (word .caseKw)).bind ((takes_advance _ _).bind ?_)
      exact (takes_expr back room (ends_bare rfl _ _)).bind ((takes_fixed .colon).bind takes_pure)
  · refine (takes_peekKind t).bind ?_
    generalize t.kind = kind at stop
    rw [List.reverse_reverse]
    cases kind with
    | keyword k => cases k <;> first | exact takes_pure | cases stop
    | _ => exact takes_pure

def EndsCase (t : Token) : Prop := t.kind = .rightBrace ∨ t.kind.isLabel = true

theorem takes_caseBody (rest : List Token) {body : List Stmt} (enough : body.length ≤ pl.size)
    (each : ∀ s ∈ body, StmtBack pl stmt s) (stop : EndsCase t) :
    Takes pl (caseBody stmt) (body.flatMap Stmt.tokens ++ t :: rest) (t :: rest)
      (body.map (Stmt.recast .flat)) := by
  refine takes_collect (f := Stmt.recast .flat) enough (fun seen s later whole => ?_) ?_
  · have other : t.kind ≠ .keyword .elseKw := by
      intro kind
      rw [EndsCase, kind] at stop
      exact stop.elim nofun nofun
    have read := each s (by simp [whole]) _ (follows_stmts s later rest other)
    obtain ⟨t, ts, start, isStart⟩ := exists_start s
    rw [start] at read ⊢
    refine (takes_peekKind t).bind ?_
    generalize t.kind = kind at isStart
    cases kind with
    | keyword k => cases k <;> first | exact read.bind takes_pure | cases isStart
    | _ => first | exact read.bind takes_pure | cases isStart
  · refine (takes_peekKind t).bind ?_
    rw [EndsCase] at stop
    generalize t.kind = kind at stop
    rw [List.reverse_reverse]
    rcases stop with rfl | label
    · exact takes_pure
    · cases kind with
      | keyword k => cases k <;> first | exact takes_pure | cases label
      | _ => cases label

/-- What is read of a case: there is a label, and all labels and statements are read back. -/
structure CaseBack (pl : Place) (stmt : Parser Stmt) (c : Case) : Prop where
  nonempty : c.labels ≠ []
  fewLabels : c.labels.length ≤ pl.size
  labels : ∀ label ∈ c.labels, ∀ e ∈ label, ReadBack e ∧ pl.Room (e.tokens.length + 3)
  fewStmts : c.body.length ≤ pl.size
  body : ∀ s ∈ c.body, StmtBack pl stmt s

theorem case_start {c : Case} (nonempty : c.labels ≠ []) :
    ∃ t ts, c.tokens = t :: ts ∧ t.kind.isLabel = true ∧ t.line = Pos.origin.line := by
  obtain ⟨line, labels, body⟩ := c
  obtain ⟨label, labels, rfl⟩ := List.exists_cons_of_ne_nil nonempty
  cases label <;> exact ⟨_, _, rfl, rfl, rfl⟩

theorem tokens_append_case (c : Case) (rest : List Token) :
    c.tokens ++ rest = c.labels.flatMap Case.labelTokens ++
      (c.body.flatMap Stmt.tokens ++ rest) := by
  obtain ⟨line, labels, body⟩ := c
  simp [Case.tokens, Case.labels, Case.body, Stmt.tokensAll_eq]

theorem cases_end (rest : List Token) {later : List Case} (each : ∀ c ∈ later, c.labels ≠ []) :
    ∃ t ts, later.flatMap Case.tokens ++ rightBrace.bare :: rest = t :: ts ∧ EndsCase t := by
  cases later with
  | nil => exact ⟨_, _, rfl, .inl rfl⟩
  | cons c later =>
    obtain ⟨t, ts, tokens, label, _⟩ := case_start (each c List.mem_cons_self)
    rw [List.flatMap_cons, tokens]
    exact ⟨t, _, rfl, .inr label⟩

theorem labels_end (rest : List Token) {c : Case} {later : List Case}
    (last : c.body = [] → later = []) :
    ∃ t ts, c.body.flatMap Stmt.tokens ++
      (later.flatMap Case.tokens ++ rightBrace.bare :: rest) = t :: ts ∧
      t.kind.isLabel = false := by
  cases body : c.body with
  | nil =>
    rw [last body]
    exact ⟨_, _, rfl, rfl⟩
  | cons s ss =>
    obtain ⟨t, ts, tokens, isStart⟩ := exists_start s
    rw [List.flatMap_cons, tokens]
    refine ⟨t, _, rfl, ?_⟩
    generalize t.kind = kind at isStart
    cases kind with
    | keyword k => cases k <;> first | rfl | cases isStart
    | _ => rfl

theorem takes_cases {cs : List Case} (enough : cs.length ≤ pl.size) (grouped : Case.Grouped cs)
    (each : ∀ c ∈ cs, CaseBack pl stmt c) :
    Takes pl (Parser.cases stmt) (cs.flatMap Case.tokens ++ rightBrace.bare :: rest)
      (rightBrace.bare :: rest)
      (cs.map (Case.recast .flat)) := by
  refine takes_collect (f := Case.recast .flat) enough (fun seen c later whole => ?_) ?_
  · have back := each c (by simp [whole])
    have last : c.body = [] → later = [] := by
      intro none
      by_contra some
      have early : c ∈ cs.dropLast := by
        rw [whole, List.dropLast_append_of_ne_nil (List.cons_ne_nil _ _),
          List.dropLast_cons_of_ne_nil some]
        simp
      exact grouped.bodies c early none
    have guard : (c.isDefault && seen.any Case.isDefault) = false := by
      have count := grouped.default
      rw [whole, List.countP_append, List.countP_cons] at count
      cases default : c.isDefault with
      | false => rfl
      | true =>
        rw [default, if_pos rfl] at count
        have none : seen.countP Case.isDefault = 0 := by omega
        rw [List.countP_eq_zero] at none
        simpa using none
    obtain ⟨t, ts, start, label, line⟩ := case_start back.nonempty
    obtain ⟨u, us, first, plain⟩ := labels_end rest last
    have others : ∀ c' ∈ later, c'.labels ≠ [] :=
      fun c' inside => (each c' (by simp [whole, inside])).nonempty
    obtain ⟨v, vs, second, stop⟩ := cases_end rest others
    have labels := takes_caseLabels us back.fewLabels back.labels plain
    have body := takes_caseBody vs back.fewStmts back.body stop
    rw [← first, ← tokens_append_case, start] at labels
    rw [← second] at body
    have made : Case.mk t.line (c.labels.map (Option.map (Expr.recast .flat)))
        (c.body.map (Stmt.recast .flat)) = c.recast .flat := by
      obtain ⟨_, _, _⟩ := c
      simp [line, Case.recast, Case.labels, Case.body, Stmt.recastAll_eq, Recast.flat]
    have once :
        ¬ (((c.recast .flat).isDefault &&
          (seen.map (Case.recast .flat)).reverse.any Case.isDefault) = true) := by
      simpa [Function.comp_def] using guard
    have kind : t.kind = .keyword .caseKw ∨ t.kind = .keyword .defaultKw := by
      generalize t.kind = kind at label
      cases kind with
      | keyword k => cases k <;> first | exact .inl rfl | exact .inr rfl | cases label
      | _ => cases label
    rw [start]
    refine (takes_peek t).bind ?_
    rcases kind with kind | kind
    all_goals
      rw [kind]
      refine labels.bind (body.bind ?_)
      simp only [made]
      rw [if_neg once]
      exact takes_pure
  · refine (takes_peek _).bind ?_
    rw [List.reverse_reverse]
    exact takes_pure

theorem back_switch {value : Expr} {cs : List Case} (hv : ReadBack value)
    (room : pl.Room (value.tokens.length + 3)) (enough : cs.length ≤ pl.size)
    (grouped : Case.Grouped cs) (each : ∀ c ∈ cs, CaseBack pl.inSwitch stmt c) :
    StmtBack pl (anyStmt stmt) (.switch line value cs) := by
  intro rest _
  have tokens : (Stmt.switch line value cs).tokens ++ rest =
      word .switchKw ::
        (parens value.print ++
          leftBrace.bare ::
            (cs.flatMap Case.tokens ++ rightBrace.bare ::
              rest)) := by simp [Stmt.tokens, braces, Case.tokensAll_eq]
  rw [tokens]
  refine (takes_peek _).bind
    ((takes_consume _ _).bind ((takes_condition hv room).bind ((takes_fixed .leftBrace).bind ?_)))
  have read :
      Takes pl.inSwitch (Parser.cases stmt) (cs.flatMap Case.tokens ++ rightBrace.bare :: rest)
      (rightBrace.bare :: rest) (cs.map (Case.recast .flat)) := takes_cases enough grouped each
  refine (takes_insideSwitch read).bind ((takes_fixed .rightBrace).bind ?_)
  rw [← Case.recastAll_eq]
  exact takes_pure

theorem back_new {cls : Ident} {newName : Expr} {bodyLine : Nat} {body : List Stmt}
    (hn : ReadBack newName) (room : pl.Room (newName.tokens.length + 3))
    (enough : body.length ≤ pl.size) (each : ∀ s ∈ body, StmtBack pl stmt s) :
    StmtBack pl (anyStmt stmt) (.new line cls newName bodyLine body) := by
  intro rest _
  have tokens : (Stmt.new line cls newName bodyLine body).tokens ++ rest =
      (Expr.new line cls [newName]).tokens ++ (braces (Stmt.tokensAll body) ++ rest) := by
    simp [Stmt.tokens, Expr.tokens, Expr.tokensAll, commas, Expr.print]
  have one : ∀ a ∈ [newName], Knows pl deeperExpr a :=
    List.forall_mem_singleton.mpr (hn.knows_deeperExpr room)
  rw [tokens]
  refine Takes.bind (takes_peek (word .newKw)) ((takes_new line (Nat.le_add_left _ _) one).bind ?_)
  refine Takes.bind (takes_peekKind leftBrace.bare) ?_
  exact (takes_block enough each).bind takes_pure

theorem back_ret {value : Option Expr} (each : ∀ e ∈ value, ReadBack e)
    (room : pl.Room ((value.elim [] Expr.print).length + 1)) :
    StmtBack pl (anyStmt stmt) (.ret line value) := by
  intro rest _
  have tokens : (Stmt.ret line value).tokens ++ rest =
      word .returnKw :: (value.elim [] Expr.print ++ semicolon.bare :: rest) := by
        simp [Stmt.tokens]
  rw [tokens]
  refine (takes_peek _).bind ((takes_consume _ _).bind ?_)
  exact (takes_exprUnless .semicolon rfl (by decide) each room).bind
    ((takes_fixed .semicolon).bind takes_pure)

theorem takes_jumpStmt {kind : TokenKind} {allowed : Stream → Bool} {what : Misplaced} {s : Stmt}
    (h : allowed (pl.before (semicolon.bare :: rest)) = true) :
    Takes pl (jumpStmt line allowed what s) (kind.bare :: semicolon.bare :: rest) rest s := by
  refine (takes_advance _ _).bind (takes_get.bind ?_)
  rw [h]
  exact (takes_fixed .semicolon).bind takes_pure

theorem back_vars {n : Nat} {decl : VarDecl} (formed : decl.Formed n)
    (room : pl.Room (decl.tokens.length + 1)) : StmtBack pl (anyStmt stmt) (.vars decl) := by
  intro rest _
  have tokens : (Stmt.vars decl).tokens ++ rest = decl.tokens ++ semicolon.bare :: rest := by
    simp [Stmt.tokens]
  rw [tokens]
  refine Takes.bind (takes_peek (word .varKw)) ?_
  exact (takes_varDecl formed room).bind ((takes_fixed .semicolon).bind takes_pure)

theorem back_const {constName : Ident} {value : Expr} (hv : ReadBack value)
    (room : pl.Room (value.tokens.length + 3)) :
    StmtBack pl (anyStmt stmt) (.const line constName value) := by
  intro rest _
  have tokens : (Stmt.const line constName value).tokens ++ rest =
      word .constKw :: named constName.name ::
      TokenKind.eq.bare :: (value.print ++ semicolon.bare :: rest) := by simp [Stmt.tokens]
  rw [tokens]
  refine (takes_peek _).bind
    ((takes_consume _ _).bind ((takes_ident _).bind ((takes_fixed .eq).bind ?_)))
  exact (takes_expr hv room (ends_bare rfl _ _)).bind ((takes_fixed .semicolon).bind takes_pure)

theorem back_expr {e : Expr} (he : ReadBack e) (room : pl.Room (e.tokens.length + 3)) :
    StmtBack pl (anyStmt stmt) (.expr e) := by
  intro rest _
  have tokens : (Stmt.expr e).tokens ++ rest = e.print ++ semicolon.bare :: rest := by
    simp [Stmt.tokens]
  rw [tokens]
  refine Takes.bind (takes_peek leftParen.bare) ?_
  exact (takes_expr he room (ends_bare rfl _ _)).bind ((takes_fixed .semicolon).bind takes_pure)

theorem back_empty : StmtBack pl (anyStmt stmt) (.empty line) :=
  fun _ _ => (takes_peek semicolon.bare).bind ((takes_advance _ _).bind takes_pure)

end statements

/-- With a level and a round for each token, the statement is read back where it may stand. -/
def StmtReadBack (s : Stmt) : Prop :=
  ∀ k pl, s.tokens.length ≤ k → pl.Room s.tokens.length → Placed pl.loops pl.switches s →
    StmtBack pl (stmtAt k) s

theorem StmtReadBack.back {s : Stmt} {k : Nat} (h : StmtReadBack s) (levels : s.tokens.length ≤ k)
    (room : pl.Room (s.tokens.length + 1)) (placed : Placed pl.loops pl.switches s) :
    StmtBack pl (nested (stmtAt k)) s := by
  have := room.levels
  exact fun rest follows => takes_nested (by omega)
    (h k pl.deeper levels room.deeper placed rest follows)

theorem stmtReadBack_of_level {s : Stmt}
    (h : ∀ k pl, s.tokens.length ≤ k + 1 → pl.Room s.tokens.length → Placed pl.loops pl.switches s →
      StmtBack pl (anyStmt (nested (stmtAt k))) s) : StmtReadBack s := by
  rintro (_ | k) pl levels room placed
  · obtain ⟨t, ts, tokens, _⟩ := exists_start s
    rw [tokens] at levels
    cases levels
  · exact h k pl levels room placed

section lists

variable {β : Type} {f : β → List Token} {xs : List β}

theorem length_le_flatMap {x : β} (h : x ∈ xs) : (f x).length ≤ (xs.flatMap f).length := by
  rw [List.length_flatMap]
  exact List.le_sum_of_mem (List.mem_map_of_mem (f := fun x => (f x).length) h)

theorem count_le_flatMap (h : ∀ x ∈ xs, f x ≠ []) : xs.length ≤ (xs.flatMap f).length := by
  have least := List.length_le_sum_of_one_le (xs.map fun x => (f x).length) fun n inside => by
    obtain ⟨x, hx, rfl⟩ := List.mem_map.mp inside
    exact List.length_pos_iff.mpr (h x hx)
  rwa [List.length_map, ← List.length_flatMap] at least

end lists

theorem tokens_ne_nil (s : Stmt) : s.tokens ≠ [] := by
  obtain ⟨t, ts, tokens, _⟩ := exists_start s
  rw [tokens]
  exact List.cons_ne_nil _ _

section bodies

variable {k : Nat}

theorem length_body (body : List Stmt) : body.length ≤ (Stmt.tokensAll body).length := by
  rw [Stmt.tokensAll_eq]
  exact count_le_flatMap fun s _ => tokens_ne_nil s

theorem back_body {body : List Stmt} (each : ∀ s ∈ body, StmtReadBack s)
    (levels : (Stmt.tokensAll body).length ≤ k) (room : pl.Room ((Stmt.tokensAll body).length + 1))
    (placed : ∀ s ∈ body, Placed pl.loops pl.switches s) :
    ∀ s ∈ body, StmtBack pl (nested (stmtAt k)) s := by
  intro s hs
  have part : s.tokens.length ≤ _ := length_le_flatMap hs
  rw [← Stmt.tokensAll_eq] at part
  exact (each s hs).back (by omega) (room.mono (by omega)) (placed s hs)

theorem length_case (c : Case) :
    c.tokens.length = (c.labels.flatMap Case.labelTokens).length +
      (Stmt.tokensAll c.body).length := by
  have tokens := tokens_append_case c []
  rw [List.append_nil, List.append_nil, ← Stmt.tokensAll_eq] at tokens
  rw [tokens, List.length_append]

theorem caseBack_of_readBack {n : Nat} {c : Case} (head : c.HeadFormed n)
    (each : ∀ s ∈ c.body, StmtReadBack s) (levels : c.tokens.length ≤ k)
    (room : pl.Room (c.tokens.length + 1)) (placed : ∀ s ∈ c.body, Placed pl.loops pl.switches s) :
    CaseBack pl (nested (stmtAt k)) c := by
  have rounds := room.rounds
  have tokens := length_case c
  have stmts := length_body c.body
  have labels : c.labels.length ≤ _ := count_le_flatMap (f := Case.labelTokens) fun label _ =>
    by cases label <;> nofun
  refine ⟨head.nonempty, by omega, fun label hl e he => ⟨?_, ?_⟩, by omega, ?_⟩
  · exact readBack_of_formed (head.labels label hl e he).formed
  · have part : (Case.labelTokens label).length ≤ _ := length_le_flatMap hl
    cases he
    simp only [Case.labelTokens, List.length_append, List.length_cons, List.length_nil,
      length_print] at part
    exact room.mono (by omega)
  · exact back_body each (by omega) (room.mono (by omega)) placed

end bodies

theorem placed_inLoop {body : Stmt} (h : body.isPlaced true true = true) :
    Placed pl.inLoop.loops pl.inLoop.switches body := by
  simpa [Placed, Place.inLoop] using h

theorem placed_inSwitch {line : Nat} {value : Expr} {cs : List Case}
    (h : Placed pl.loops pl.switches (.switch line value cs)) :
    ∀ c ∈ cs, ∀ s ∈ c.body, Placed pl.inSwitch.loops pl.inSwitch.switches s := by
  rintro ⟨_, _, body⟩ hc s hs
  rw [Placed, Stmt.isPlaced, Case.allPlaced_eq, List.all_eq_true] at h
  have inside := h _ hc
  rw [Case.isPlaced, Stmt.allPlaced_eq, List.all_eq_true] at inside
  have anyway : (decide (0 < pl.inSwitch.loops) || decide (0 < pl.inSwitch.switches)) = true := by
    simp [Place.inSwitch]
  rw [Placed, anyway]
  exact inside s hs

/-- Every formed statement is read back: each part is printed to fewer tokens than the whole. -/
theorem stmtReadBack_of_formed {n : Nat} {s : Stmt} (h : s.Formed n) : StmtReadBack s := by
  induction h with
  | @block _ _ _ body _ _ inside =>
    refine stmtReadBack_of_level fun k pl levels room placed => ?_
    simp only [Stmt.tokens, braces, List.length_append, List.length_cons,
      List.length_nil] at levels room
    have rounds := room.rounds
    have count := length_body body
    rw [Placed, Stmt.isPlaced, Stmt.allPlaced_eq, List.all_eq_true] at placed
    exact back_block (by omega) (back_body inside (by omega) (room.mono (by omega)) placed)
  | ifThen head _ _ yes =>
    refine stmtReadBack_of_level fun k pl levels room placed => ?_
    simp only [Stmt.tokens, parens, List.length_append, List.length_cons, List.length_nil,
      length_print] at levels room
    exact back_ifThen (readBack_of_formed head.formed) (room.mono (by omega))
      (yes.back (by omega) (room.mono (by omega)) placed)
  | ifElse head _ closed _ _ yes no =>
    refine stmtReadBack_of_level fun k pl levels room placed => ?_
    simp only [Stmt.tokens, parens, List.length_append, List.length_cons, List.length_nil,
      length_print] at levels room
    rw [Placed, Stmt.isPlaced, Bool.and_eq_true] at placed
    exact back_ifElse (readBack_of_formed head.formed) (room.mono (by omega))
      (yes.back (by omega) (room.mono (by omega)) placed.1) closed
      (no.back (by omega) (room.mono (by omega)) placed.2)
  | whileLoop head _ _ body =>
    refine stmtReadBack_of_level fun k pl levels room placed => ?_
    simp only [Stmt.tokens, parens, List.length_append, List.length_cons, List.length_nil,
      length_print] at levels room
    exact back_whileLoop (readBack_of_formed head.formed) (room.mono (by omega))
      (body.back (by omega) (room.mono (by omega)).inLoop (placed_inLoop placed))
  | forLoop first test next _ _ body =>
    refine stmtReadBack_of_level fun k pl levels room placed => ?_
    simp only [Stmt.tokens, parens, List.length_append, List.length_cons,
      List.length_nil] at levels room
    exact back_forLoop first (fun e he => readBack_of_formed (test e he).formed)
      (fun e he => readBack_of_formed (next e he).formed) (room.mono (by omega))
        (room.mono (by omega))
      (room.mono (by omega))
        (body.back (by omega) (room.mono (by omega)).inLoop (placed_inLoop placed))
  | forEach _ head _ _ body =>
    refine stmtReadBack_of_level fun k pl levels room placed => ?_
    simp only [Stmt.tokens, parens, List.length_append, List.length_cons, List.length_nil,
      length_print] at levels room
    exact back_forEach (readBack_of_formed head.formed) (room.mono (by omega))
      (body.back (by omega) (room.mono (by omega)).inLoop (placed_inLoop placed))
  | withObject head _ _ body =>
    refine stmtReadBack_of_level fun k pl levels room placed => ?_
    simp only [Stmt.tokens, parens, List.length_append, List.length_cons, List.length_nil,
      length_print] at levels room
    exact back_withObject (readBack_of_formed head.formed) (room.mono (by omega))
      (body.back (by omega) (room.mono (by omega)) placed)
  | @switch _ _ _ _ cs head labels grouped _ _ inside =>
    refine stmtReadBack_of_level fun k pl levels room placed => ?_
    simp only [Stmt.tokens, parens, braces, List.length_append, List.length_cons, List.length_nil,
      length_print, Case.tokensAll_eq] at levels room
    have rounds := room.rounds
    have count : cs.length ≤ (cs.flatMap Case.tokens).length := count_le_flatMap fun c hc => by
      obtain ⟨t, ts, tokens, _⟩ := case_start (labels c hc).nonempty
      rw [tokens]
      exact List.cons_ne_nil _ _
    refine back_switch (readBack_of_formed head.formed) (room.mono (by omega))
      (by omega) grouped fun c hc => ?_
    have part : c.tokens.length ≤ _ := length_le_flatMap hc
    exact caseBack_of_readBack (labels c hc) (inside c hc) (by omega)
      (room.mono (by omega)).inSwitch
      (placed_inSwitch placed c hc)
  | @new _ _ _ _ _ _ body _ head _ _ inside =>
    refine stmtReadBack_of_level fun k pl levels room placed => ?_
    simp only [Stmt.tokens, parens, braces, List.length_append, List.length_cons, List.length_nil,
      length_print]
      at levels room
    have rounds := room.rounds
    have count := length_body body
    rw [Placed, Stmt.isPlaced, Stmt.allPlaced_eq, List.all_eq_true] at placed
    exact back_new (readBack_of_formed head.formed) (room.mono (by omega)) (by omega)
      (back_body inside (by omega) (room.mono (by omega)) placed)
  | ret head =>
    refine stmtReadBack_of_level fun k pl levels room placed => ?_
    simp only [Stmt.tokens, List.length_append, List.length_cons, List.length_nil] at room
    exact back_ret (fun e he => readBack_of_formed (head e he).formed) (room.mono (by omega))
  | breakOut =>
    exact stmtReadBack_of_level fun k pl levels room placed rest _ =>
      (takes_peek (word .breakKw)).bind (takes_jumpStmt placed)
  | continueLoop =>
    exact stmtReadBack_of_level fun k pl levels room placed rest _ =>
      (takes_peek (word .continueKw)).bind (takes_jumpStmt placed)
  | vars formed =>
    refine stmtReadBack_of_level fun k pl levels room placed => ?_
    simp only [Stmt.tokens, List.length_append, List.length_cons, List.length_nil] at room
    exact back_vars formed room
  | const _ head =>
    refine stmtReadBack_of_level fun k pl levels room placed => ?_
    simp only [Stmt.tokens, List.length_append, List.length_cons, List.length_nil,
      length_print] at room
    exact back_const (readBack_of_formed head.formed) (room.mono (by omega))
  | expr formed =>
    refine stmtReadBack_of_level fun k pl levels room placed => ?_
    simp only [Stmt.tokens, List.length_append, List.length_cons, List.length_nil,
      length_print] at room
    exact back_expr (readBack_of_formed formed) room
  | empty => exact stmtReadBack_of_level fun k pl levels room placed => back_empty

end Parser

end GraalScript
