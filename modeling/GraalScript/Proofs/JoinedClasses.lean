import GraalScript.Proofs.Generate.Agree
import GraalScript.Proofs.Parser.Formed
import GraalScript.Proofs.Scope.Bound

/-! The classes that a script joins: exactly the texts of the calls `join("…")` to the runtime's
function, in increasing order, wherever they stand in the script but for the arguments that `new`
drops. -/
namespace GraalScript

namespace Expr

theorem Formed.not_joins {n : Nat} {e : Expr} (h : e.Formed n) (cls : String) : ¬e.Joins cls := by
  rintro ⟨part, inside, _, _, _, rfl⟩
  obtain ⟨m, formed⟩ := h.of_part inside
  cases formed with
  | call first => cases first

end Expr

namespace Stmt

theorem Formed.plain {n : Nat} {s : Stmt} (h : s.Formed n) : s.Plain := by
  intro part inside const e he cls
  obtain ⟨m, formed⟩ := h.of_part inside
  cases formed with
  | const _ head =>
    cases List.mem_singleton.mp he
    exact head.formed.not_joins cls
  | _ => cases const

end Stmt

namespace Resolve

variable (env : Environment)

mutual

theorem gives_plain (s : Stmt) (h : s.Plain) : Gives (stmt env s) Stmt.Plain := by
  have inside := (Stmt.plain_iff.mp h).2
  cases s with
  | block line body =>
    refine (gives_inScope .block (gives_plains [] body nofun inside)).bind fun ss plain => ?_
    exact gives_pure (Stmt.plain_iff.mpr ⟨nofun, plain⟩)
  | ifThen line cond yes =>
    refine (gives_any _).bind fun _ _ =>
      (gives_plain yes (inside yes List.mem_cons_self)).bind fun y hy => ?_
    exact gives_pure (Stmt.plain_iff.mpr ⟨nofun, by simpa [Stmt.children] using hy⟩)
  | ifElse line cond yes no =>
    have both : yes.Plain ∧ no.Plain := by simpa [Stmt.children] using inside
    refine (gives_any _).bind fun _ _ => (gives_plain yes both.1).bind fun y hy => ?_
    refine (gives_plain no both.2).bind fun n hn => gives_pure (Stmt.plain_iff.mpr ⟨nofun, ?_⟩)
    simpa [Stmt.children] using And.intro hy hn
  | whileLoop line cond body =>
    refine (gives_any _).bind fun _ _ =>
      (gives_plain body (inside body List.mem_cons_self)).bind fun b hb => ?_
    exact gives_pure (Stmt.plain_iff.mpr ⟨nofun, by simpa [Stmt.children] using hb⟩)
  | forLoop line init cond step body =>
    refine gives_inScope .block ((gives_any _).bind fun _ _ => (gives_any _).bind fun _ _ => ?_)
    refine (gives_any _).bind fun _ _ =>
      (gives_plain body (inside body List.mem_cons_self)).bind fun b hb => ?_
    exact gives_pure (Stmt.plain_iff.mpr ⟨nofun, by simpa [Stmt.children] using hb⟩)
  | forEach line declared item binding iterable body =>
    refine (gives_any _).bind fun _ _ => gives_inScope .block ((gives_any _).bind fun _ _ => ?_)
    refine (gives_plain body (inside body List.mem_cons_self)).bind fun b hb => ?_
    exact gives_pure (Stmt.plain_iff.mpr ⟨nofun, by simpa [Stmt.children] using hb⟩)
  | withObject line object body =>
    refine (gives_any _).bind fun _ _ =>
      (gives_plain body (inside body List.mem_cons_self)).bind fun b hb => ?_
    exact gives_pure (Stmt.plain_iff.mpr ⟨nofun, by simpa [Stmt.children] using hb⟩)
  | switch line value cases =>
    refine (gives_any _).bind fun _ _ => ?_
    refine (gives_inScope .block (gives_plainCases [] cases nofun inside)).bind fun cs plain => ?_
    exact gives_pure (Stmt.plain_iff.mpr ⟨nofun, plain⟩)
  | new line cls name bodyLine body =>
    refine (gives_any _).bind fun _ _ => ?_
    refine (gives_inScope .block (gives_plains [] body nofun inside)).bind fun ss plain => ?_
    exact gives_pure (Stmt.plain_iff.mpr ⟨nofun, plain⟩)
  | const line name value => exact (gives_any _).bind fun _ _ => gives_pure h
  | ret | vars | expr =>
    exact (gives_any _).bind fun _ _ => gives_pure (Stmt.plain_iff.mpr ⟨nofun, nofun⟩)
  | breakOut | continueLoop | empty => exact gives_pure h

theorem gives_plains (done ss : List Stmt) (before : ∀ s ∈ done, s.Plain) (h : ∀ s ∈ ss, s.Plain) :
    Gives (stmts env done ss) fun ss' => ∀ s ∈ ss', s.Plain := by
  cases ss with
  | nil => exact gives_pure fun s hs => before s (List.mem_reverse.mp hs)
  | cons s ss =>
    rw [List.forall_mem_cons] at h
    refine (gives_plain s h.1).bind fun s' hs => ?_
    exact gives_plains (s' :: done) ss (List.forall_mem_cons.mpr ⟨hs, before⟩) h.2

theorem gives_plainCases (done cs : List Case) (before : ∀ s ∈ done.flatMap Case.body, s.Plain)
    (h : ∀ s ∈ cs.flatMap Case.body, s.Plain) :
    Gives (caseList env done cs) fun cs' => ∀ s ∈ cs'.flatMap Case.body, s.Plain := by
  cases cs with
  | nil =>
    refine gives_pure fun s hs => before s ?_
    simpa [List.mem_flatMap] using hs
  | cons c cs =>
    obtain ⟨line, labels, body⟩ := c
    rw [List.flatMap_cons, List.forall_mem_append] at h
    have first : Gives (oneCase env (.mk line labels body)) fun c' => ∀ s ∈ c'.body, s.Plain :=
      (gives_any _).bind fun _ _ => (gives_plains [] body nofun h.1).bind fun _ plain =>
        gives_pure plain
    refine first.bind fun c' hc => gives_plainCases (c' :: done) cs ?_ h.2
    rw [List.flatMap_cons, List.forall_mem_append]
    exact ⟨hc, before⟩

end

theorem gives_mapM_mem {α β : Type} {f : α → Resolve β} {Q : β → Prop} (xs : List α)
    (h : ∀ x ∈ xs, Gives (f x) Q) : Gives (xs.mapM f) fun ys => ∀ y ∈ ys, Q y :=
  (gives_mapM xs h).mono fun ys each => by
    induction each with
    | nil => exact nofun
    | cons first _ ih =>
      exact List.forall_mem_cons.mpr ⟨first, ih fun x hx => h x (List.mem_cons_of_mem _ hx)⟩

theorem gives_plainItem (i : Item) (h : ∀ s ∈ i.stmts, s.Plain) :
    Gives (item env i) fun i' => ∀ s ∈ i'.stmts, s.Plain := by
  cases i with
  | stmt s =>
    refine (gives_plain env s (h s List.mem_cons_self)).bind fun s' plain => gives_pure ?_
    exact List.forall_mem_singleton.mpr plain
  | func f =>
    have body : Gives (func env f) fun f' => ∀ s ∈ f'.body.body, s.Plain := by
      refine gives_inScope .function ((gives_any _).bind fun _ _ => ?_)
      exact (gives_plains env [] f.body.body nofun h).bind fun ss plain => gives_pure plain
    exact body.bind fun f' plain => gives_pure plain

theorem gives_plainProgram (p : Program) (h : ∀ s ∈ p.stmts, s.Plain) :
    Gives (program env p) fun p' => ∀ s ∈ p'.stmts, s.Plain := by
  have each (i : Item) (hi : i ∈ p.items) : Gives (item env i) fun i' => ∀ s ∈ i'.stmts, s.Plain :=
    gives_plainItem env i fun s hs => h s (List.mem_flatMap.mpr ⟨i, hi, hs⟩)
  refine (gives_any _).bind fun _ _ => (gives_any _).bind fun _ _ => ?_
  refine (gives_mapM_mem p.items each).bind fun is plain => gives_pure fun s hs => ?_
  obtain ⟨i, hi, hs⟩ := List.mem_flatMap.mp hs
  exact plain i hi s hs

end Resolve

namespace Program

/-- In a script that was read and whose names are bound, no value of a constant joins a class. -/
theorem plain_of_resolve {source : String} {limit : Nat} {env : Environment}
    {parsed bound : Program} {symbols : SymbolTable} (read : parse source limit = .ok parsed)
    (resolved : parsed.resolve env = .ok (bound, symbols)) : ∀ s ∈ bound.stmts, s.Plain := by
  have formed := formed_of_parse read
  have plain : ∀ s ∈ parsed.stmts, s.Plain := by
    intro s hs
    obtain ⟨m, formed⟩ := formed.of_mem_stmts hs
    exact formed.plain
  obtain ⟨⟨_, _⟩, run, ⟨⟩⟩ := bind_eq_ok_iff.mp resolved
  exact Resolve.gives_plainProgram env parsed plain _ _ _ run

theorem joined_of_generate {p : Program} {prologue : List UInt8} {out : Output}
    (h : p.generate prologue = .ok out) :
    out.joined.Pairwise (· < ·) ∧ ∀ cls, cls ∈ out.joined ↔ ∃ s ∈ p.stmts, s.Joins cls := by
  obtain ⟨d, drafted, -, joined⟩ := generate_eq_ok_iff.mp h
  rw [← joined]
  have ordered := d.joined.ordered_toList
  refine ⟨ordered.imp compareOfLessAndEq_eq_lt.mp, fun cls => ?_⟩
  rw [Std.TreeSet.mem_toList, mem_joined_draft drafted]

end Program

/-- The joined classes of a script that compiles are in increasing order. They are the texts of the
calls to the runtime's `join` with one literal text, anywhere in the statements but for the
arguments that `new` drops. -/
theorem joined_of_compile (settings : Settings) (script : Option ScriptId) (source : String)
    {out : Output} (h : (compile settings script source).result = .ok out) :
    ∃ header parsed bound symbols, Header.ofScript settings script = .ok header ∧
      Program.parse source settings.maxNesting = .ok parsed ∧
      parsed.resolve header.env = .ok (bound, symbols) ∧ bound.generate header.prologue = .ok out ∧
      out.joined.Pairwise (· < ·) ∧
      ∀ cls, cls ∈ out.joined ↔ ∃ s ∈ bound.stmts, ∃ t : Stmt, t.Part s ∧ ∃ e ∈ t.exprs,
        ∃ join : Expr, join.Part e ∧ join.IsJoinOf cls := by
  obtain ⟨header, parsed, bound, symbols, made, read, resolved, generated⟩ :=
    compile_result_eq_ok_iff.mp h
  obtain ⟨increasing, joined⟩ := Program.joined_of_generate generated
  have plain := Program.plain_of_resolve read resolved
  refine ⟨header, parsed, bound, symbols, made, read, resolved, generated, increasing,
    fun cls => ?_⟩
  rw [joined]
  exact exists_congr fun s => and_congr_right fun hs => (plain s hs).joins_iff

/-- Two classes are joined, the later one in the text first; a third one only in an argument that is
dropped. -/
theorem joined_of_compile_new : ∃ out,
    (compile ⟨8, true⟩ none "a=new T(join(\"x\"),1);if(a)join(\"b\");join(\"a\");").result =
      .ok out ∧
    out.joined = ["a", "b"] ∧
    ∃ header parsed bound symbols, Header.ofScript ⟨8, true⟩ none = .ok header ∧
      Program.parse "a=new T(join(\"x\"),1);if(a)join(\"b\");join(\"a\");" 8 = .ok parsed ∧
      parsed.resolve header.env = .ok (bound, symbols) ∧ bound.generate header.prologue = .ok out ∧
      out.joined.Pairwise (· < ·) ∧
      ∀ cls, cls ∈ out.joined ↔ ∃ s ∈ bound.stmts, ∃ t : Stmt, t.Part s ∧ ∃ e ∈ t.exprs,
        ∃ join : Expr, join.Part e ∧ join.IsJoinOf cls := by
  have ran :
      (compile ⟨8, true⟩ none
        "a=new T(join(\"x\"),1);if(a)join(\"b\");join(\"a\");").result.toOption.any
          (·.joined == ["a", "b"]) = true := by decide +kernel
  obtain ⟨out, compiled, joined⟩ := exists_ok_of_any ran
  exact ⟨out, compiled, eq_of_beq joined, joined_of_compile _ _ _ compiled⟩

end GraalScript
