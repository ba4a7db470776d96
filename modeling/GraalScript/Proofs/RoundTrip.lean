import GraalScript.Proofs.Compilation
import GraalScript.Proofs.Parser.StmtTakes

/-! A tree that was read from a text, written back, is read from the new text again: nothing of it
but the lines depends on how the text was written. -/
namespace GraalScript

open TokenKind Print

namespace Parser

variable {pl : Place} {rest : List Token} {n : Nat}

theorem takes_stmt {s : Stmt} (h : StmtReadBack s) (levels : pl.depth + s.tokens.length < pl.limit)
    (rounds : s.tokens.length ≤ pl.size) (placed : Placed pl.loops pl.switches s) :
    StmtBack pl stmt s := by
  intro rest follows
  have room : pl.deeper.Room s.tokens.length := ⟨Nat.add_right_comm .. ▸ levels, rounds⟩
  have read := h (pl.limit - pl.depth) pl.deeper (by omega) room placed rest follows
  exact takes_nested (by omega) read

theorem takes_func {f : Func} (formed : f.Formed n) (levels : pl.depth + f.tokens.length < pl.limit)
    (rounds : f.tokens.length ≤ pl.size)
    (placed : ∀ s ∈ f.body.body, Placed pl.loops pl.switches s) :
    Takes pl func (f.tokens ++ rest) rest (f.recast .flat) := by
  have block : Takes pl (block stmt) (braces (Stmt.tokensAll f.body.body) ++ rest) rest
      (f.body.recast .flat) := by
    have short := length_body f.body.body
    simp only [Func.tokens, braces, List.length_append, List.length_cons,
      List.length_nil] at levels rounds
    refine takes_block (by omega) fun s hs => ?_
    have part : s.tokens.length ≤ _ := length_le_flatMap hs
    rw [← Stmt.tokensAll_eq] at part
    obtain ⟨_, _, inside⟩ := formed.body s hs
    exact takes_stmt (stmtReadBack_of_formed inside) (by omega) (by omega) (placed s hs)
  have params :
      Takes pl (listed ident .rightParen)
        (commas (f.params.map fun id => [named id.name]) ++ rightParen.bare ::
          (braces (Stmt.tokensAll f.body.body) ++ rest))
      (rightParen.bare :: (braces (Stmt.tokensAll f.body.body) ++ rest))
      ⟨f.params.map (Ident.relined fun _ => Pos.origin.line), false⟩ := by
    have count : (f.params.map fun id => [named id.name]).length ≤ _ := count_le_commas (by simp)
    simp only [Func.tokens, parens, List.length_append, List.length_cons, List.length_nil,
      List.length_map] at rounds count
    exact takes_listed (by omega) rfl (by decide)
      (fun _ _ => ⟨_, _, rfl, fun same => by cases same⟩) fun id _ _ _ => takes_ident id.name
  have tokens : f.tokens ++ rest = (if f.isPublic then [word .publicKw] else []) ++
      word .functionKw ::
      ((f.object.elim [] fun object => [named object.name, dot.bare]) ++ named f.name.name ::
        leftParen.bare :: (commas (f.params.map fun id => [named id.name]) ++ rightParen.bare ::
          (braces (Stmt.tokensAll f.body.body) ++ rest))) := by simp [Func.tokens, parens]
  obtain ⟨line, isPublic, object, id, ids, body⟩ := f
  rw [tokens]
  have isPublic {us : List Token} : Takes pl (accept (.keyword .publicKw))
      ((if isPublic then [word .publicKw] else []) ++ word .functionKw :: us)
        (word .functionKw :: us) isPublic := by
    cases isPublic
    · exact takes_notAccept (by decide)
    · exact takes_accept _ _
  refine isPublic.bind ((takes_fixed (.keyword .functionKw)).bind ?_)
  cases object
  case' none =>
    refine (takes_ident _).bind ((takes_notAccept (t := leftParen.bare) (by decide)).bind ?_)
  case' some object =>
    refine (takes_ident _).bind ((takes_accept _ _).bind ((takes_ident _).bind ?_))
  all_goals
    exact (takes_fixed .leftParen).bind
      (params.bind ((takes_fixed .rightParen).bind (block.bind takes_pure)))

def last : Token := .bare .eos ""

theorem item_start (i : Item) : ∃ t ts, i.tokens = t :: ts ∧ t.kind ≠ .keyword .elseKw := by
  cases i with
  | func f =>
    obtain ⟨_, isPublic, _⟩ := f
    cases isPublic <;> exact ⟨_, _, rfl, nofun⟩
  | stmt s =>
    obtain ⟨t, ts, tokens, isStart⟩ := exists_start s
    refine ⟨t, ts, tokens, fun kind => ?_⟩
    rw [kind] at isStart
    cases isStart

section items

variable {step : Reading → Parser (Reading ⊕ Program)} {t : Token} {us : List Token} {p : Program}

def ItemBack (pl : Place) (step : Reading → Parser (Reading ⊕ Program)) (i : Item) : Prop :=
  ∀ seen t us, t.kind ≠ .keyword .elseKw → Takes pl (step seen) (i.tokens ++ t :: us) (t :: us)
    (.inl ⟨i.recast .flat :: seen.items, seen.count + 1, seen.clientside⟩)

theorem takes_items {items : List Item} (each : ∀ i ∈ items, ItemBack pl step i) (seen : Reading)
    (plain : t.kind ≠ .keyword .elseKw)
    (others : Takes pl (iterate step n ⟨(items.map (Item.recast .flat)).reverse ++ seen.items,
      seen.count + items.length, seen.clientside⟩) (t :: us) rest p) :
    Takes pl (iterate step (items.length + n) seen)
      (items.flatMap Item.tokens ++ t :: us) rest p := by
  induction items generalizing seen with
  | nil => simpa using others
  | cons i items ih =>
    obtain ⟨next, ts, behind, nextPlain⟩ : ∃ next ts,
        items.flatMap Item.tokens ++ t :: us = next :: ts ∧ next.kind ≠ .keyword .elseKw := by
      cases items with
      | nil => exact ⟨t, us, rfl, plain⟩
      | cons i items =>
        obtain ⟨next, ts, tokens, nextPlain⟩ := item_start i
        rw [List.flatMap_cons, tokens]
        exact ⟨next, _, rfl, nextPlain⟩
    have first := each i List.mem_cons_self seen next ts nextPlain
    rw [List.length_cons, Nat.add_right_comm, List.flatMap_cons, List.append_assoc, behind]
    refine takes_next first ?_
    rw [← behind]
    refine ih (fun i inside => each i (List.mem_cons_of_mem _ inside)) _ ?_
    rwa [List.map_cons, List.reverse_cons, List.append_assoc, List.length_cons, ← Nat.add_assoc,
      Nat.add_right_comm]
      at others

end items

def start (ts : List Token) (limit : Nat) : Place := ⟨ts.length + 1, 0, limit, 0, 0⟩

/-- What one step of reading a program does, by the token in front. -/
structure Steps (pl : Place) (step : Reading → Parser (Reading ⊕ Program)) : Prop where
  last : ∀ seen : Reading, (seen.count = 0 → seen.clientside ≠ none) →
    Takes pl (step seen) [last] [last] (.inr ⟨seen.items.reverse, seen.clientside⟩)
  mark : ∀ (seen : Reading) ts, seen.clientside = none →
    Takes pl (step seen) (.bare .directive "" :: ts) ts
    (.inl { seen with clientside := some seen.count })
  func : ∀ (seen : Reading) t ts mid f, t.kind ∈ [.keyword .functionKw, .keyword .publicKw] →
    Takes pl func (t :: ts) mid f →
    Takes pl (step seen) (t :: ts) mid
      (.inl ⟨.func f :: seen.items, seen.count + 1, seen.clientside⟩)
  stmt : ∀ (seen : Reading) t ts mid s,
    t.kind ∉ [.eos, .directive, .keyword .functionKw, .keyword .publicKw] →
    Takes pl stmt (t :: ts) mid s →
    Takes pl (step seen) (t :: ts) mid
      (.inl ⟨.stmt s :: seen.items, seen.count + 1, seen.clientside⟩)

theorem program_steps (pl : Place) : ∃ step, program = loop ⟨[], 0, none⟩ step ∧ Steps pl step := by
  refine ⟨_, rfl, ⟨fun seen some => ?_, fun seen ts none => ?_, fun seen t ts mid f kind read => ?_,
    fun seen t ts mid s kind read => ?_⟩⟩
  · refine Takes.bind (takes_peek last) ?_
    dsimp only [last, Token.bare]
    rw [if_neg fun h => some h.1 h.2]
    exact takes_pure
  · refine (takes_peek _).bind ((takes_advance _ _).bind ?_)
    rw [none]
    exact takes_pure
  · refine (takes_peek t).bind ?_
    simp only [List.mem_cons, List.not_mem_nil, or_false] at kind
    rcases kind with kind | kind
    all_goals
      rw [kind]
      exact read.bind takes_pure
  · refine (takes_peek t).bind ?_
    generalize t.kind = found at kind
    cases found with
    | eos | directive => simp at kind
    | keyword k => cases k <;> first | exact read.bind takes_pure | simp at kind
    | _ => exact read.bind takes_pure

theorem itemBack_of_formed {step : Reading → Parser (Reading ⊕ Program)} (steps : Steps pl step)
    {i : Item} (formed : i.Formed n) (levels : pl.depth + i.tokens.length < pl.limit)
    (rounds : i.tokens.length ≤ pl.size) (outside : pl.loops = 0 ∧ pl.switches = 0)
    (placed : i.isPlaced = true) : ItemBack pl step i := by
  intro seen t us plain
  cases i with
  | func f =>
    have body : ∀ s ∈ f.body.body, Placed pl.loops pl.switches s := by
      rw [Item.isPlaced, Stmt.allPlaced_eq, List.all_eq_true] at placed
      rw [outside.1, outside.2]
      exact placed
    have read : Takes pl func (f.tokens ++ t :: us) (t :: us) (f.recast .flat) :=
      takes_func formed levels rounds body
    obtain ⟨_, isPublic, _⟩ := f
    cases isPublic <;> exact steps.func seen _ _ _ _ (by decide) read
  | stmt s =>
    obtain ⟨_, _, inside⟩ := formed
    have here : Placed pl.loops pl.switches s := by
      rw [outside.1, outside.2]
      exact placed
    have read :=
      takes_stmt (stmtReadBack_of_formed inside) levels rounds here (t :: us)
        ⟨t, us, rfl, fun _ => plain⟩
    obtain ⟨first, ts, tokens, isStart⟩ := exists_start s
    rw [tokens] at read
    rw [Item.tokens, tokens]
    refine steps.stmt seen _ _ _ _ (fun kind => ?_) read
    generalize first.kind = found at isStart kind
    simp only [List.mem_cons, List.not_mem_nil, or_false] at kind
    rcases kind with rfl | rfl | rfl | rfl <;> cases isStart

theorem takes_unmarked {step : Reading → Parser (Reading ⊕ Program)} (steps : Steps pl step)
    {items : List Item} (some : items ≠ []) (each : ∀ i ∈ items, ItemBack pl step i)
    (rounds : items.length ≤ pl.size) :
    Takes pl (loop ⟨[], 0, none⟩ step) (items.flatMap Item.tokens ++ [last]) [last]
      ⟨items.map (Item.recast .flat), none⟩ := by
  obtain ⟨m, size⟩ := Nat.exists_eq_add_of_le rounds
  refine takes_loop ?_
  rw [size, Nat.add_assoc]
  refine takes_items each _ nofun (takes_done ?_)
  have done := steps.last
    ⟨(items.map (Item.recast .flat)).reverse ++ [], 0 + items.length, none⟩
    fun zero => absurd (List.length_eq_zero_iff.mp (by simpa using zero)) some
  simpa using done

theorem takes_marked {step : Reading → Parser (Reading ⊕ Program)} (steps : Steps pl step)
    {first second : List Item} (eachFirst : ∀ i ∈ first, ItemBack pl step i)
    (eachSecond : ∀ i ∈ second, ItemBack pl step i)
    (rounds : first.length + second.length + 1 ≤ pl.size) :
    Takes pl (loop ⟨[], 0, none⟩ step)
      (first.flatMap Item.tokens ++ .bare .directive "" :: (second.flatMap Item.tokens ++ [last]))
      [last] ⟨(first ++ second).map (Item.recast .flat), some first.length⟩ := by
  obtain ⟨m, size⟩ := Nat.exists_eq_add_of_le rounds
  refine takes_loop ?_
  rw [size, show first.length + second.length + 1 + m + 1 =
    first.length + (second.length + (m + 1) + 1) by omega]
  refine takes_items eachFirst _ nofun (takes_next (steps.mark _ _ rfl) ?_)
  refine takes_items eachSecond _ nofun (takes_done ?_)
  have done := steps.last
    ⟨(second.map (Item.recast .flat)).reverse ++ ((first.map (Item.recast .flat)).reverse ++ []),
      0 + first.length + second.length, some (0 + first.length)⟩ nofun
  simpa using done

theorem length_items (items : List Item) : items.length ≤ (items.flatMap Item.tokens).length := by
  refine count_le_flatMap fun i _ => ?_
  obtain ⟨t, ts, tokens, _⟩ := item_start i
  rw [tokens]
  exact List.cons_ne_nil _ _

theorem takes_program {p : Program} {limit : Nat} (formed : p.Formed n)
    (placed : ∀ i ∈ p.items, i.isPlaced = true) (levels : p.tokens.length < limit) :
    Takes (start p.tokens limit) program (p.tokens ++ [last]) [last] (p.recast .flat) := by
  obtain ⟨step, program, steps⟩ := program_steps (start p.tokens limit)
  have each (items : List Item) (within : items ⊆ p.items)
      (short : (items.flatMap Item.tokens).length ≤ p.tokens.length) :
      ∀ i ∈ items, ItemBack (start p.tokens limit) step i := by
    intro i hi
    have part : i.tokens.length ≤ _ := length_le_flatMap hi
    refine itemBack_of_formed steps (formed.items i (within hi)) ?_ ?_ ⟨rfl, rfl⟩
      (placed i (within hi))
    all_goals
      simp only [start]
      omega
  have size : (start p.tokens limit).size = p.tokens.length + 1 := rfl
  rw [program]
  obtain ⟨items, clientside⟩ := p
  cases clientside with
  | none =>
    have rounds : items.length ≤ (start (Program.tokens ⟨items, none⟩) limit).size :=
      Nat.le_succ_of_le (length_items items)
    exact takes_unmarked steps (fun none => formed.nonempty none rfl)
      (each items (List.Subset.refl _) (Nat.le_refl _)) rounds
  | some k =>
    have tokens : Program.tokens ⟨items, some k⟩ = (items.take k).flatMap Item.tokens ++
      .bare .directive "" :: (items.drop k).flatMap Item.tokens := rfl
    have total := congrArg List.length tokens
    rw [List.length_append, List.length_cons] at total
    have countFirst := length_items (items.take k)
    have countSecond := length_items (items.drop k)
    have read := takes_marked steps (each _ (List.take_subset k items) (by omega))
      (each _ (List.drop_subset k items) (by omega)) (by omega)
    have before : (items.take k).length = k := List.length_take_of_le (formed.clientside k rfl)
    rw [List.take_append_drop, before, ← List.cons_append, ← List.append_assoc, ← tokens] at read
    exact read

end Parser

theorem Program.parse_renderTokens {ts : List Token} (lexed : Lexed ts) {limit : Nat} {q : Program}
    {rest : List Token}
    (takes : Parser.Takes (Parser.start ts limit) Parser.program (ts ++ [Parser.last]) rest q) :
    ∃ p, parse (renderTokens ts) limit = .ok p ∧ p.recast .flat = q := by
  have alike := alike_tokenize_render fun t inside => (lexed t inside).cuts
  have pending : (tokenize (renderTokens ts)).map View.placeless.item =
      (ts ++ [Parser.last]).map .ok := by
    have shown : ((ts ++ [Parser.last]).map Except.ok).map View.placeless.item =
        (ts ++ [Parser.last]).map .ok := by
      rw [List.map_map]
      refine List.map_congr_left fun t inside => ?_
      have same : View.placeless.token t = t := by
        rcases List.mem_append.mp inside with printed | isLast
        · exact (lexed t printed).placeless
        · rw [List.mem_singleton.mp isLast]
          rfl
      exact congrArg _ same
    rw [← shown, ← List.forall₂_eq_eq_eq, List.forall₂_map_left_iff, List.forall₂_map_right_iff]
    exact alike.imp fun _ _ => View.item_placeless
  have size : (tokenize (renderTokens ts)).length = ts.length + 1 := by
    rw [alike.length_eq, List.length_map, List.length_append, List.length_singleton]
  have stream : View.placeless.stream (.ofText (renderTokens ts) limit) =
      (Parser.start ts limit).before (ts ++ [Parser.last]) := by
    simp only [View.stream, Stream.ofText, Stream.ofItems, pending, size]
    rfl
  have agrees :=
    Parser.agrees_program (v := .placeless) ⟨rfl, rfl⟩ (.ofText (renderTokens ts) limit)
  rw [stream, show Parser.program.run _ = _ from takes] at agrees
  have result : .ok q = View.placeless.result (recast .flat) (parse (renderTokens ts) limit) :=
    congrArg Prod.fst agrees
  cases read : parse (renderTokens ts) limit with
  | error e => rw [read] at result; cases result
  | ok p =>
    rw [read] at result
    exact ⟨p, rfl, (Except.ok.inj result).symm⟩

/-- A tree that was read is read again from what it is written to, with any limit above the number
of its tokens. -/
theorem Program.parse_render {source : String} {limit : Nat} {p : Program}
    (h : parse source limit = .ok p) :
    ∀ d > p.tokens.length, ∃ q, parse p.render d = .ok q ∧ q.recast .flat = p.recast .flat := by
  intro d enough
  have formed := formed_of_parse h
  exact parse_renderTokens formed.lexed (Parser.takes_program formed (isPlaced_of_parse h) enough)

/-- The else of an inner if, labels in a group, a comma behind the last element, and a variable
named as a cast. -/
theorem Program.parse_render_switch : ∃ p q,
    parse "if (a) if (b) c = \"\\\"\\n\"; else \x7b\x7d\n//#CLIENTSIDE
      switch (0x1F) \x7bcase 1: default: break;\x7d
      for (var i : \x7b1, 2,\x7d) int = i in |1.50, int(2)|;" 8 = .ok p ∧ p.tokens.length < 128 ∧
    parse p.render 128 = .ok q ∧ q.recast .flat = p.recast .flat := by
  have read (source : String)
      (h : (parse source 8).toOption.any (fun p => p.tokens.length < 128) = true) :
      ∃ p q, parse source 8 = .ok p ∧ p.tokens.length < 128 ∧ parse p.render 128 = .ok q ∧
        q.recast .flat = p.recast .flat := by
    obtain ⟨p, read, small⟩ := exists_ok_of_any h
    obtain ⟨q, again, same⟩ := parse_render read 128 (of_decide_eq_true small)
    exact ⟨p, q, read, of_decide_eq_true small, again, same⟩
  refine read _ ?_
  decide +kernel

end GraalScript
