import GraalScript.Compile
import GraalScript.Proofs.Parser.StmtView
import GraalScript.Proofs.Tree.Ready

/-! Every break and continue that is read stands inside a construct it can leave: the stream counts
the loops and switches around the present place, and reading a statement leaves the counts as they
were. -/
namespace GraalScript

namespace View

def recounted (loops switches : Nat → Nat) : View where
  line := id
  token := id
  loops := loops
  switches := switches
  kind_token _ := rfl
  line_token _ := rfl
  text_token _ _ := rfl

theorem stream_recounted (loops switches : Nat → Nat) (s : Stream) :
    (recounted loops switches).stream s =
      { s with loops := loops s.loops, switches := switches s.switches } := by
  have items : (recounted loops switches).item = id := by
    funext i
    cases i <;> rfl
  rw [stream, items, List.map_id]
  rfl

def counted (loops switches : Nat) : View := recounted (fun _ => loops) fun _ => switches

theorem stream_counted (s : Stream) : (counted s.loops s.switches).stream s = s :=
  stream_recounted _ _ s

end View

namespace Parser

variable {α β : Type} {l k : Nat} {p : Parser α} {Q R : α → Prop}

/-- Inside `l` loops and `k` switches, what `p` reads satisfies `Q`, and the counts are as
before. -/
def Yields (l k : Nat) (p : Parser α) (Q : α → Prop) : Prop :=
  ∀ s a s', s.loops = l → s.switches = k → p.run s = (.ok a, s') →
    Q a ∧ s'.loops = l ∧ s'.switches = k

/-- A parser that agrees with the views that fix the counts does not change them. -/
theorem yields_of_agrees {f : α → α} (h : Agrees (.counted l k) f p p) :
    Yields l k p fun _ => True := by
  rintro s a s' rfl rfl run
  have same := h s
  rw [View.stream_counted, run] at same
  have after : s' = (View.counted s.loops s.switches).stream s' := congrArg Prod.snd same
  refine ⟨trivial, ?_, ?_⟩ <;> rw [after] <;> rfl

theorem yields_pure {a : α} (h : Q a) : Yields l k (pure a) Q := by
  rintro s _ _ loops switches ⟨⟩
  exact ⟨h, loops, switches⟩

theorem yields_throw (e : ParseError) : Yields l k (throw e) Q := by
  rintro s a s' _ _ ⟨⟩

theorem Yields.bind {q : α → Parser β} {S : β → Prop} (first : Yields l k p Q)
    (second : ∀ a, Q a → Yields l k (q a) S) : Yields l k (p >>= q) S := by
  intro s b s' loops switches run
  rw [run_bind] at run
  rcases mid : p.run s with ⟨e | a, s₁⟩
  · rw [mid] at run
    cases run
  · rw [mid] at run
    obtain ⟨ha, loops₁, switches₁⟩ := first s a s₁ loops switches mid
    exact second a ha s₁ b s' loops₁ switches₁ run

theorem Yields.mono (h : Yields l k p Q) (imp : ∀ a, Q a → R a) : Yields l k p R :=
  fun s a s' loops switches run => (h s a s' loops switches run).imp_left (imp a)

theorem yields_then {f : α → α} {q : α → Parser β} {S : β → Prop}
    (first : Agrees (.counted l k) f p p) (second : ∀ a, Yields l k (q a) S) :
    Yields l k (p >>= q) S :=
  (yields_of_agrees first).bind fun a _ => second a

theorem yields_ite {c : Prop} [Decidable c] {q : Parser α} (yes : Yields l k p Q)
    (no : Yields l k q Q) : Yields l k (if c then p else q) Q := by
  split
  · exact yes
  · exact no

theorem yields_guard {c : Prop} [Decidable c] {e : ParseError} (rest : Yields l k p Q) :
    Yields l k (if c then (do (throw e : Parser Unit); p) else p) Q :=
  yields_ite (Yields.bind (yields_throw (Q := fun _ => False) e) fun _ h => h.elim) rest

theorem yields_get {q : Stream → Parser α}
    (h : ∀ s : Stream, s.loops = l → s.switches = k → Yields l k (q s) Q) :
    Yields l k (do q (← get)) Q :=
  fun s a s' loops switches run => h s loops switches s a s' loops switches run

theorem yields_nested (h : Yields l k p Q) : Yields l k (nested p) Q := by
  intro s a s' loops switches run
  rw [run_nested] at run
  by_cases room : s.depth < s.limit
  · simp only [Stream.enter, room, if_true] at run
    rcases mid : p.run { s with depth := s.depth + 1 } with ⟨r, s₁⟩
    rw [mid] at run
    cases run
    exact h { s with depth := s.depth + 1 } a s₁ loops switches mid
  · simp only [Stream.enter, room] at run
    cases run

theorem yields_insideLoop (h : Yields (l + 1) k p Q) : Yields l k (insideLoop p) Q := by
  intro s a s' loops switches run
  change ((p.run s.enterLoop).1, (p.run s.enterLoop).2.leaveLoop) = _ at run
  rcases mid : p.run s.enterLoop with ⟨r, s₁⟩
  rw [mid] at run
  cases run
  obtain ⟨ha, loops₁, switches₁⟩ := h s.enterLoop a s₁ (congrArg (· + 1) loops) switches mid
  exact ⟨ha, congrArg (· - 1) loops₁, switches₁⟩

theorem yields_insideSwitch (h : Yields l (k + 1) p Q) : Yields l k (insideSwitch p) Q := by
  intro s a s' loops switches run
  change ((p.run s.enterSwitch).1, (p.run s.enterSwitch).2.leaveSwitch) = _ at run
  rcases mid : p.run s.enterSwitch with ⟨r, s₁⟩
  rw [mid] at run
  cases run
  obtain ⟨ha, loops₁, switches₁⟩ := h s.enterSwitch a s₁ loops (congrArg (· + 1) switches) mid
  exact ⟨ha, loops₁, congrArg (· - 1) switches₁⟩

theorem yields_loop {I : α → Prop} {S : β → Prop} {step : α → Parser (α ⊕ β)} {a : α} (start : I a)
    (h : ∀ a, I a → Yields l k (step a) (Sum.elim I S)) : Yields l k (loop a step) S := by
  have rounds (n : Nat) (a : α) (ha : I a) : Yields l k (iterate step n a) S := by
    induction n generalizing a with
    | zero => exact yields_then agrees_lastLine fun _ => yields_throw _
    | succ n ih =>
      refine (h a ha).bind fun r hr => ?_
      cases r with
      | inl a => exact ih a hr
      | inr b => exact yields_pure hr
  exact yields_get fun s _ _ => rounds (s.size + 1) a start

/-- The breaks and continues of a statement have something to leave inside `l` loops and `k`
switches. -/
def Placed (l k : Nat) (s : Stmt) : Prop := s.isPlaced (0 < l) (0 < l || 0 < k) = true

theorem placed_reverse {seen : List Stmt} (h : ∀ s ∈ seen, Placed l k s) :
    Stmt.allPlaced (0 < l) (0 < l || 0 < k) seen.reverse = true := by
  rw [Stmt.allPlaced_eq, List.all_reverse, List.all_eq_true]
  exact h

theorem yields_exprStmt : Yields l k exprStmt (Placed l k) := by
  refine yields_then agrees_expr fun e => ?_
  exact yields_then (agrees_consume _) fun _ => yields_pure rfl

section level

variable {stmt : Parser Stmt} (below : ∀ l k, Yields l k stmt (Placed l k))

include below

theorem yields_block :
    Yields l k (block stmt) fun b => Stmt.allPlaced (0 < l) (0 < l || 0 < k) b.body = true := by
  refine yields_then (agrees_consume _) fun t => Yields.bind (Q := fun body =>
    Stmt.allPlaced (0 < l) (0 < l || 0 < k) body = true) ?_ fun body hb => ?_
  · refine yields_loop (I := fun seen => ∀ s ∈ seen, Placed l k s)
      (fun _ h => nomatch h) fun seen hs => ?_
    refine yields_then agrees_peekKind fun kind => ?_
    split
    · exact yields_pure (placed_reverse hs)
    · exact yields_then (agrees_consume _) fun _ => yields_pure hs
    · exact (below l k).bind fun s h => yields_pure (List.forall_mem_cons.mpr ⟨h, hs⟩)
  · exact yields_then (agrees_consume _) fun _ => yields_pure hb

theorem yields_ifStmt : Yields l k (ifStmt stmt) (Placed l k) := by
  refine yields_then (agrees_consume _) fun t => ?_
  refine yields_then agrees_condition fun cond => (below l k).bind fun yes hy => ?_
  refine yields_then (agrees_accept _) fun found => yields_ite ?_ (yields_pure hy)
  exact (below l k).bind fun no hn => yields_pure (by simpa [Placed, Stmt.isPlaced] using ⟨hy, hn⟩)

theorem yields_withStmt : Yields l k (withStmt stmt) (Placed l k) := by
  refine yields_then (agrees_consume _) fun t => ?_
  exact yields_then agrees_condition fun object => (below l k).bind fun body h => yields_pure h

theorem yields_loopBody :
    Yields l k (insideLoop stmt) fun body => body.isPlaced true true = true :=
  yields_insideLoop ((below (l + 1) k).mono fun body h => by simpa [Placed] using h)

theorem yields_whileStmt : Yields l k (whileStmt stmt) (Placed l k) := by
  refine yields_then (agrees_consume _) fun t => ?_
  refine yields_then agrees_condition fun cond => ?_
  exact (yields_loopBody below).bind fun body h => yields_pure h

theorem yields_forStmt : Yields l k (forStmt stmt) (Placed l k) := by
  refine yields_then (agrees_consume _) fun t => ?_
  refine yields_then (agrees_consume _) fun _ => yields_get fun s _ _ => yields_ite ?_ ?_
  · refine yields_then (agrees_accept _) fun declared => ?_
    refine yields_then agrees_ident fun item => ?_
    refine yields_then (agrees_consume _) fun _ => ?_
    refine yields_then agrees_expr fun iterable => ?_
    refine yields_then (agrees_consume _) fun _ => ?_
    exact (yields_loopBody below).bind fun body h => yields_pure h
  · refine yields_then agrees_forInit fun init => ?_
    refine yields_then (agrees_consume _) fun _ => ?_
    refine yields_then (agrees_exprUnless _) fun cond => ?_
    refine yields_then (agrees_consume _) fun _ => ?_
    refine yields_then (agrees_exprUnless _) fun step => ?_
    refine yields_then (agrees_consume _) fun _ => ?_
    exact (yields_loopBody below).bind fun body h => yields_pure h

theorem yields_caseBody :
    Yields l k (caseBody stmt) fun body => Stmt.allPlaced (0 < l) (0 < l || 0 < k) body = true := by
  refine yields_loop (I := fun seen => ∀ s ∈ seen, Placed l k s)
    (fun _ h => nomatch h) fun seen hs => ?_
  refine yields_then agrees_peekKind fun kind => ?_
  split
  iterate 3 exact yields_pure (placed_reverse hs)
  · exact yields_then (agrees_consume _) fun _ => yields_pure hs
  · exact (below l k).bind fun s h => yields_pure (List.forall_mem_cons.mpr ⟨h, hs⟩)

theorem yields_cases :
    Yields l k (cases stmt) fun cs => Case.allPlaced (0 < l) (0 < l || 0 < k) cs = true := by
  refine yields_loop (I := fun seen => seen.all (Case.isPlaced (0 < l) (0 < l || 0 < k)) = true) rfl
    fun seen hs => ?_
  refine yields_then agrees_peek fun t => ?_
  split
  · refine yields_pure ?_
    change Case.allPlaced (0 < l) (0 < l || 0 < k) seen.reverse = true
    rwa [Case.allPlaced_eq, List.all_reverse]
  iterate 2
    refine yields_then agrees_caseLabels fun labels => ?_
    refine (yields_caseBody below).bind fun body hb => yields_guard (yields_pure ?_)
    change List.all _ _ = true
    rw [List.all_cons, hs, Bool.and_true]
    exact hb
  · exact yields_throw _

theorem yields_switchStmt : Yields l k (switchStmt stmt) (Placed l k) := by
  refine yields_then (agrees_consume _) fun t => ?_
  refine yields_then agrees_condition fun value => ?_
  refine yields_then (agrees_consume _) fun _ => ?_
  refine (yields_insideSwitch (yields_cases below)).bind fun cs hcs => ?_
  refine yields_then (agrees_consume _) fun _ => yields_pure ?_
  simpa [Placed, Stmt.isPlaced] using hcs

theorem yields_newStmt : Yields l k (newStmt stmt) (Placed l k) := by
  refine yields_then (agrees_newExpr agrees_deeperExpr) fun e => ?_
  refine yields_then agrees_peekKind fun kind => yields_ite ?_ ?_
  · exact yields_then (agrees_consume _) fun _ => yields_pure rfl
  · split
    · exact (yields_block below).bind fun b hb => yields_pure hb
    · exact yields_then agrees_lastLine fun line => yields_throw _

omit below in
theorem yields_jumpStmt (line : Nat) {allowed : Stream → Bool} (what : Misplaced) {s : Stmt}
    (h : ∀ st : Stream, st.loops = l → st.switches = k → allowed st = true → Placed l k s) :
    Yields l k (jumpStmt line allowed what s) (Placed l k) := by
  refine yields_then agrees_advance fun _ => yields_get fun st loops switches => ?_
  by_cases ok : allowed st = true
  · simp only [ok, Bool.not_true]
    exact yields_then (agrees_consume _) fun _ => yields_pure (h st loops switches ok)
  · simp only [ok]
    exact Yields.bind (yields_throw (Q := fun _ => False) _) fun _ h => h.elim

theorem yields_keywordStmt (t : Token) (word : Keyword) :
    Yields l k (keywordStmt stmt t word) (Placed l k) := by
  cases word with
  | ifKw => exact yields_ifStmt below
  | whileKw => exact yields_whileStmt below
  | forKw => exact yields_forStmt below
  | withKw => exact yields_withStmt below
  | switchKw => exact yields_switchStmt below
  | newKw => exact yields_newStmt below
  | breakKw =>
    refine yields_jumpStmt _ _ fun st loops switches ok => ?_
    simpa [Placed, Stmt.isPlaced, Stream.canBreak, loops, switches] using ok
  | continueKw =>
    refine yields_jumpStmt _ _ fun st loops switches ok => ?_
    simpa [Placed, Stmt.isPlaced, Stream.inLoop, loops] using ok
  | returnKw =>
    refine yields_then (agrees_consume _) fun t => ?_
    refine yields_then (agrees_exprUnless _) fun value => ?_
    exact yields_then (agrees_consume _) fun _ => yields_pure rfl
  | varKw =>
    refine yields_then agrees_varDecl fun decl => ?_
    exact yields_then (agrees_consume _) fun _ => yields_pure rfl
  | constKw =>
    refine yields_then (agrees_consume _) fun t => ?_
    refine yields_then agrees_ident fun name => ?_
    refine yields_then (agrees_consume _) fun _ => ?_
    refine yields_then agrees_expr fun value => ?_
    exact yields_then (agrees_consume _) fun _ => yields_pure rfl
  | functionKw | publicKw | elseKw | caseKw | defaultKw | inKw => exact yields_throw _
  | trueKw | falseKw | nullKw => exact yields_exprStmt

theorem yields_anyStmt : Yields l k (anyStmt stmt) (Placed l k) := by
  refine yields_then agrees_peek fun t => ?_
  split
  · exact (yields_block below).bind fun b hb => yields_pure hb
  · exact yields_then agrees_advance fun _ => yields_pure rfl
  · exact yields_keywordStmt below t _
  · exact yields_throw _
  · exact yields_exprStmt

end level

theorem yields_stmtAt (n l k : Nat) : Yields l k (stmtAt n) (Placed l k) := by
  induction n generalizing l k with
  | zero => exact yields_get fun _ _ _ => yields_get fun _ _ _ => yields_throw _
  | succ n ih => exact yields_anyStmt fun l k => yields_nested (ih l k)

theorem yields_stmt (l k : Nat) : Yields l k stmt (Placed l k) :=
  yields_then agrees_room fun n => yields_nested (yields_stmtAt n l k)

theorem yields_func : Yields 0 0 func fun f => Stmt.allPlaced false false f.body.body = true := by
  refine yields_then (agrees_accept _) fun isPublic => yields_then (agrees_consume _) fun t => ?_
  refine yields_then agrees_ident fun first => yields_then (agrees_accept _) fun dot => ?_
  simp only [pure_bind]
  have rest (object : Option Ident) (name : Ident) : Yields 0 0
      (do
        let _ ← consume .leftParen
        let params ← listed ident .rightParen
        let _ ← consume .rightParen
        let body ← block stmt
        return (⟨t.line, isPublic, object, name, params.items, body⟩ : Func))
      fun f => Stmt.allPlaced false false f.body.body = true := by
    refine yields_then (agrees_consume _) fun _ =>
      yields_then (agrees_listed agrees_ident _) fun params => ?_
    refine yields_then (agrees_consume _) fun _ => (yields_block yields_stmt).bind fun b hb => ?_
    exact yields_pure hb
  exact yields_ite (yields_then agrees_ident fun name => rest (some first) name) (rest none first)

theorem yields_program : Yields 0 0 program fun p => ∀ i ∈ p.items, i.isPlaced = true := by
  refine yields_loop (I := fun seen => ∀ i ∈ seen.items, i.isPlaced = true) (fun _ h => nomatch h)
    fun seen hs => yields_then agrees_peek fun t => ?_
  split
  · exact yields_guard (yields_pure fun i hi => hs i (List.mem_reverse.mp hi))
  · exact yields_then agrees_advance fun _ => yields_guard (yields_pure hs)
  iterate 2 exact yields_func.bind fun f h => yields_pure (List.forall_mem_cons.mpr ⟨h, hs⟩)
  · exact (yields_stmt 0 0).bind fun s h => yields_pure (List.forall_mem_cons.mpr ⟨h, hs⟩)

end Parser

/-- What is read from a fresh stream has its breaks and continues where they may stand. -/
theorem Program.isPlaced_of_parse {source : String} {limit : Nat} {p : Program}
    (h : parse source limit = .ok p) : ∀ i ∈ p.items, i.isPlaced = true :=
  (Parser.yields_program (Stream.ofText source limit) p _ rfl rfl (Prod.ext h rfl)).1

end GraalScript
