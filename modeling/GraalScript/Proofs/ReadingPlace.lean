import GraalScript.Proofs.Parser.Course

/-! Every parser of the grammar gives back the place it was called at. Whether it succeeds or fails,
it returns on the level, and inside the loops and switches, on which it began; on the way it never
comes below the deepest level. -/
namespace GraalScript.Parser

/-- The parsers of the grammar, from whole programs down to names. -/
inductive Production : {α : Type} → Parser α → Prop
  | program : Production program
  | func : Production func
  | block {stmt : Parser Stmt} (h : StmtReader stmt) : Production (block stmt)
  | stmt {stmt : Parser Stmt} (h : StmtReader stmt) : Production stmt
  | anyStmt {stmt : Parser Stmt} (h : StmtReader stmt) : Production (anyStmt stmt)
  | blockStmt {stmt : Parser Stmt} (h : StmtReader stmt) : Production (blockStmt stmt)
  | ifStmt {stmt : Parser Stmt} (h : StmtReader stmt) : Production (ifStmt stmt)
  | whileStmt {stmt : Parser Stmt} (h : StmtReader stmt) : Production (whileStmt stmt)
  | withStmt {stmt : Parser Stmt} (h : StmtReader stmt) : Production (withStmt stmt)
  | forStmt {stmt : Parser Stmt} (h : StmtReader stmt) : Production (forStmt stmt)
  | loopBody {stmt : Parser Stmt} (h : StmtReader stmt) : Production (insideLoop stmt)
  | switchStmt {stmt : Parser Stmt} (h : StmtReader stmt) : Production (switchStmt stmt)
  | cases {stmt : Parser Stmt} (h : StmtReader stmt) : Production (cases stmt)
  | newStmt {stmt : Parser Stmt} (h : StmtReader stmt) : Production (newStmt stmt)
  | exprStmt : Production exprStmt
  | returnStmt : Production returnStmt
  | varDecl : Production varDecl
  | varStmt : Production varStmt
  | constStmt : Production constStmt
  | jumpStmt (line : Nat) (allowed : Stream → Bool) (what : Misplaced) (s : Stmt) :
      Production (jumpStmt line allowed what s)
  | condition : Production condition
  | expr {deeper : Goal → Parser Expr} (h : ExprReader deeper) (g : Goal) : Production (deeper g)
  | goal {deeper : Goal → Parser Expr} (h : ExprReader deeper) (g : Goal) :
      Production (goal deeper g)
  | ternary {deeper : Goal → Parser Expr} (h : ExprReader deeper) : Production (ternary deeper)
  | suffixed {deeper : Goal → Parser Expr} (h : ExprReader deeper) : Production (suffixed deeper)
  | primary {deeper : Goal → Parser Expr} (h : ExprReader deeper) : Production (primary deeper)
  | newExpr {deeper : Goal → Parser Expr} (h : ExprReader deeper) : Production (newExpr deeper)
  | listed {α : Type} {item : Parser α} (h : Production item) (close : TokenKind) :
      Production (listed item close)
  | comma : Production comma
  | ident : Production ident
  | literal : Production literal

section runs

variable {α β : Type}

theorem exists_runs_of_proceeds {c : α → Nat} {p : Parser α} (h : Proceeds none c p) (s : Stream) :
    ∃ visited, Runs p s visited := (h s (before_none s)).1

theorem exists_runs_bind {p : Parser α} {f : α → Parser β} {s : Stream}
    (h : ∃ visited, Runs p s visited) (rest : ∀ a s', ∃ visited, Runs (f a) s' visited) :
    ∃ visited, Runs (p >>= f) s visited := by
  obtain ⟨front, runs⟩ := h
  rcases run : p.run s with ⟨e | a, s'⟩
  · exact ⟨_, runs.failed run⟩
  · obtain ⟨back, runs'⟩ := rest a s'
    exact ⟨_, runs.bind run runs'⟩

theorem exists_runs_loop {step : α → Parser (α ⊕ β)} (h : ∀ a s, ∃ visited, Runs (step a) s visited)
    (a : α) (s : Stream) : ∃ visited, Runs (loop a step) s visited := by
  refine exists_runs_bind ⟨_, .single .get s⟩ fun start s' => ?_
  generalize start.size + 1 = n
  induction n generalizing a s' with
  | zero =>
    refine exists_runs_bind (exists_runs_of_proceeds proceeds_lastLine s') fun line s'' => ?_
    exact ⟨_, .single (.throw (.token (.endOfSource line))) s''⟩
  | succ n ih =>
    refine exists_runs_bind (h a s') fun r s'' => ?_
    cases r with
    | inl a => exact ih a s''
    | inr b => exact ⟨_, .single (.pure b) s''⟩

end runs

theorem exists_runs_jumpStmt (line : Nat) (allowed : Stream → Bool) (what : Misplaced) (stmt : Stmt)
    (s : Stream) : ∃ visited, Runs (jumpStmt line allowed what stmt) s visited := by
  refine exists_runs_bind ⟨_, .single .advance s⟩ fun _ s' => ?_
  refine exists_runs_of_proceeds (c := fun _ => 0) (proceeds_get fun _ => proceeds_guard ?_) s'
  exact proceeds_consume _ (by decide) fun _ => proceeds_pure rfl

theorem exists_runs_listed {α : Type} {item : Parser α} (h : ∀ s, ∃ visited, Runs item s visited)
    (close : TokenKind) (s : Stream) : ∃ visited, Runs (listed item close) s visited := by
  refine exists_runs_loop (fun seen s' => ?_) _ s
  have look : ∃ visited, Runs peekKind s' visited :=
    exists_runs_bind ⟨_, .single .peek s'⟩ fun t s₁ => ⟨_, .single (.pure t.kind) s₁⟩
  refine exists_runs_bind look fun kind s₁ => ?_
  split
  · exact ⟨_, .single (.pure _) s₁⟩
  · refine exists_runs_bind (h s₁) fun a s₂ => ?_
    refine exists_runs_bind (exists_runs_of_proceeds proceeds_comma s₂) fun found s₃ => ?_
    cases found <;> exact ⟨_, .single (.pure _) s₃⟩

/-- Each of them is put together from single steps, and from levels, loops and switches that are
left again. -/
theorem Production.exists_runs {α : Type} {p : Parser α} (h : Production p) (s : Stream) :
    ∃ visited, Runs p s visited := by
  induction h generalizing s with
  | program => exact exists_runs_of_proceeds proceeds_program s
  | func => exact exists_runs_of_proceeds proceeds_func s
  | block h => exact exists_runs_of_proceeds (proceeds_block h.proceeds) s
  | stmt h => exact exists_runs_of_proceeds h.proceeds s
  | anyStmt h => exact exists_runs_of_proceeds (proceeds_anyStmt h.proceeds) s
  | blockStmt h => exact exists_runs_of_proceeds (proceeds_blockStmt h.proceeds) s
  | ifStmt h => exact exists_runs_of_proceeds (proceeds_ifStmt h.proceeds) s
  | whileStmt h => exact exists_runs_of_proceeds (proceeds_whileStmt h.proceeds) s
  | withStmt h => exact exists_runs_of_proceeds (proceeds_withStmt h.proceeds) s
  | forStmt h => exact exists_runs_of_proceeds (proceeds_forStmt h.proceeds) s
  | loopBody h => exact exists_runs_of_proceeds (proceeds_insideLoop h.proceeds) s
  | switchStmt h => exact exists_runs_of_proceeds (proceeds_switchStmt h.proceeds) s
  | cases h => exact exists_runs_of_proceeds ((steady_caseRound h.proceeds).proceeds []) s
  | newStmt h => exact exists_runs_of_proceeds (proceeds_newStmt h.proceeds) s
  | exprStmt => exact exists_runs_of_proceeds proceeds_exprStmt s
  | returnStmt => exact exists_runs_of_proceeds proceeds_returnStmt s
  | varDecl => exact exists_runs_of_proceeds proceeds_varDecl s
  | varStmt => exact exists_runs_of_proceeds proceeds_varStmt s
  | constStmt => exact exists_runs_of_proceeds proceeds_constStmt s
  | jumpStmt line allowed what stmt => exact exists_runs_jumpStmt line allowed what stmt s
  | condition => exact exists_runs_of_proceeds proceeds_condition s
  | expr h g => exact exists_runs_of_proceeds (h.proceeds g) s
  | goal h g => exact exists_runs_of_proceeds (proceeds_goal h.proceeds g) s
  | ternary h => exact exists_runs_of_proceeds (proceeds_ternary h.proceeds) s
  | suffixed h => exact exists_runs_of_proceeds (proceeds_suffixed h.proceeds) s
  | primary h => exact exists_runs_of_proceeds (proceeds_primary h.proceeds) s
  | newExpr h => exact exists_runs_of_proceeds (proceeds_newExpr h.proceeds) s
  | listed h close ih => exact exists_runs_listed ih close s
  | comma => exact exists_runs_of_proceeds proceeds_comma s
  | ident => exact exists_runs_of_proceeds proceeds_ident s
  | literal => exact exists_runs_of_proceeds proceeds_literal s

/-- Whatever a parser of the grammar is called on, and whether it succeeds or fails, the level and
the loops and switches around it are those of the call again. All places that it comes through are
accounted for, and none is too deep. -/
theorem keeps_place {α : Type} {p : Parser α} (h : Production p) (s : Stream)
    (start : s.depth ≤ s.limit) :
    (∀ result s', p.run s = (result, s') →
      s'.depth = s.depth ∧ s'.loops = s.loops ∧ s'.switches = s.switches ∧ s'.limit = s.limit) ∧
    (∃ visited, Runs p s visited) ∧
    ∀ visited, Runs p s visited →
      visited.getLast? = some (p.run s).2 ∧ ∀ m ∈ visited, m.depth ≤ s.limit := by
  obtain ⟨visited, runs⟩ := h.exists_runs s
  have reaches := runs.reaches
  refine ⟨fun result s' run => ?_, ⟨visited, runs⟩,
    fun visited runs => ⟨runs.getLast_eq, runs.depth_le start⟩⟩
  rw [run] at reaches
  exact ⟨reaches.depth, reaches.loops, reaches.switches, reaches.limit⟩

/-- A switch in a loop that fails three levels down, with loops and switches around the call. -/
theorem keeps_place_unfinished :
    let s : Stream :=
      { Stream.ofText "while (a) switch (b) \x7b case 1: if (c) f(-" 9 with
        depth := 2, loops := 3, switches := 1 }
    (Parser.stmt.run s).1.isOk = false ∧ s.depth ≤ s.limit ∧
      (Parser.stmt.run s).2.depth = 2 ∧ (Parser.stmt.run s).2.loops = 3 ∧
        (Parser.stmt.run s).2.switches = 1 ∧
      ∃ visited, Runs Parser.stmt s visited ∧ ∀ m ∈ visited, m.depth ≤ 9 := by
  intro s
  obtain ⟨same, ⟨visited, runs⟩, bound⟩ := keeps_place (.stmt .here) s (by decide)
  obtain ⟨depth, loops, switches, -⟩ := same _ _ rfl
  exact ⟨by decide +kernel, by decide, depth, loops, switches, visited, runs,
    (bound visited runs).2⟩

end GraalScript.Parser
