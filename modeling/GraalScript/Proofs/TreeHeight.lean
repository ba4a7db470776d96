import GraalScript.Proofs.RoundTrip

/-! How high the trees are that the reader accepts. The nesting limit counts the steps from an
expression or a statement into one that stands inside it. It does not count the steps along a chain
of operators, which are read in a loop, and each of which puts one more node on top of the tree. -/
namespace GraalScript

open TokenKind Print

/-- A tree without what stands at its nodes. The children `along` were read on the level of the node
itself, those `below` one level deeper or more. -/
inductive Shape where
  | node (along below : List Shape)

namespace Shape

mutual

/-- The greatest weight of a way down from the root, where a step along weighs `a` and a step below
weighs `b`. -/
def weigh (a b : Nat) : Shape → Nat
  | .node along below => max (weighAll a b a along) (weighAll a b b below)

def weighAll (a b edge : Nat) : List Shape → Nat
  | [] => 0
  | s :: ss => max (edge + s.weigh a b) (weighAll a b edge ss)

end

/-- The nodes on the longest way down. -/
def height (s : Shape) : Nat := s.weigh 1 1 + 1

def nesting (s : Shape) : Nat := s.weigh 0 1

def chain (s : Shape) : Nat := s.weigh 1 0

variable {a b edge k : Nat}

theorem weighAll_le_iff {ss : List Shape} :
    weighAll a b edge ss ≤ k ↔ ∀ s ∈ ss, edge + s.weigh a b ≤ k := by
  induction ss with
  | nil => simp [weighAll]
  | cons s ss ih => rw [weighAll, Nat.max_le, ih, List.forall_mem_cons]

theorem weigh_le_iff {along below : List Shape} : (node along below).weigh a b ≤ k ↔
    (∀ s ∈ along, a + s.weigh a b ≤ k) ∧ ∀ s ∈ below, b + s.weigh a b ≤ k := by
  rw [weigh, Nat.max_le, weighAll_le_iff, weighAll_le_iff]

theorem height_lt_of_along {along below : List Shape} {s : Shape} (h : s ∈ along) :
    s.height < (node along below).height := by
  have step := (weigh_le_iff.mp (Nat.le_refl ((node along below).weigh 1 1))).1 s h
  simp only [height]
  omega

theorem height_lt_of_below {along below : List Shape} {s : Shape} (h : s ∈ below) :
    s.height < (node along below).height := by
  have step := (weigh_le_iff.mp (Nat.le_refl ((node along below).weigh 1 1))).2 s h
  simp only [height]
  omega

/-- The way that weighs most in one sense need not be the one that weighs most in another. -/
theorem weigh_add_le (a b a' b' : Nat) : (s : Shape) →
    s.weigh (a + a') (b + b') ≤ s.weigh a b + s.weigh a' b'
  | node along below => by
    obtain ⟨along₁, below₁⟩ := weigh_le_iff.mp (Nat.le_refl ((node along below).weigh a b))
    obtain ⟨along₂, below₂⟩ := weigh_le_iff.mp (Nat.le_refl ((node along below).weigh a' b'))
    refine weigh_le_iff.mpr ⟨fun s inside => ?_, fun s inside => ?_⟩
    · have := weigh_add_le a b a' b' s
      have := along₁ s inside
      have := along₂ s inside
      omega
    · have := weigh_add_le a b a' b' s
      have := below₁ s inside
      have := below₂ s inside
      omega

theorem height_le (s : Shape) : s.height ≤ s.nesting + s.chain + 1 :=
  Nat.succ_le_succ (weigh_add_le 0 1 1 0 s)

end Shape

mutual

def Expr.shape : Expr → Shape
  | .literal .. | .name .. | .newArray .. => .node [] []
  | .member _ object _ => .node [object.shape] []
  | .index _ object i => .node [object.shape] [i.shape]
  | .call _ callee args => .node [callee.shape] (Expr.shapes args)
  | .array _ items => .node [] (Expr.shapes items)
  | .unary _ _ operand => .node [] [operand.shape]
  | .step _ _ true target => .node [] [target.shape]
  | .step _ _ false target => .node [target.shape] []
  | .binary _ _ lhs rhs => .node [lhs.shape] [rhs.shape]
  | .logical _ _ lhs rhs => .node [lhs.shape] [rhs.shape]
  | .assign _ _ target value => .node [target.shape] [value.shape]
  | .ternary _ cond yes no => .node [cond.shape] [yes.shape, no.shape]
  | .cast _ _ operand => .node [] [operand.shape]
  | .inRange _ value lower upper => .node [value.shape] [lower.shape, upper.shape]
  | .inObject _ value object => .node [value.shape] [object.shape]
  | .new _ _ args => .node [] (Expr.shapes args)

def Expr.shapes : List Expr → List Shape
  | [] => []
  | e :: es => e.shape :: Expr.shapes es

end

theorem Expr.shapes_eq (es : List Expr) : Expr.shapes es = es.map Expr.shape := by
  induction es with
  | nil => rfl
  | cons e es ih => rw [Expr.shapes, ih, List.map_cons]

/-- Declarations and cases are no nodes of their own: what they hold stands below the statement. -/
def VarDecl.shapes (decl : VarDecl) : List Shape :=
  (decl.defs.filterMap VarDef.value).map Expr.shape

def ForInit.shapes : ForInit → List Shape
  | vars decl => decl.shapes
  | expr e => [e.shape]

mutual

def Stmt.shape : Stmt → Shape
  | .block _ body => .node [] (Stmt.shapes body)
  | .ifThen _ cond yes => .node [] [cond.shape, yes.shape]
  | .ifElse _ cond yes no => .node [] [cond.shape, yes.shape, no.shape]
  | .whileLoop _ cond body => .node [] [cond.shape, body.shape]
  | .forLoop _ init cond step body =>
    .node [] (init.elim [] ForInit.shapes ++ (cond.toList ++ step.toList).map Expr.shape ++
      [body.shape])
  | .forEach _ _ _ _ iterable body => .node [] [iterable.shape, body.shape]
  | .withObject _ object body => .node [] [object.shape, body.shape]
  | .switch _ value cases => .node [] (value.shape :: Case.shapes cases)
  | .new _ _ newName _ body => .node [] (newName.shape :: Stmt.shapes body)
  | .ret _ value => .node [] (value.toList.map Expr.shape)
  | .vars decl => .node [] decl.shapes
  | .const _ _ value => .node [] [value.shape]
  | .expr e => .node [e.shape] []
  | .breakOut _ | .continueLoop _ | .empty _ => .node [] []

def Stmt.shapes : List Stmt → List Shape
  | [] => []
  | s :: ss => s.shape :: Stmt.shapes ss

def Case.shapes : List Case → List Shape
  | [] => []
  | .mk _ labels body :: cs =>
    (labels.filterMap id).map Expr.shape ++ Stmt.shapes body ++ Case.shapes cs

end

theorem Stmt.shapes_eq (ss : List Stmt) : Stmt.shapes ss = ss.map Stmt.shape := by
  induction ss with
  | nil => rfl
  | cons s ss ih => rw [Stmt.shapes, ih, List.map_cons]

theorem Case.shapes_eq (cs : List Case) : Case.shapes cs =
    cs.flatMap fun c => (c.labels.filterMap id).map Expr.shape ++ c.body.map Stmt.shape := by
  induction cs with
  | nil => rfl
  | cons c cs ih =>
    obtain ⟨_, labels, body⟩ := c
    rw [Case.shapes, ih, List.flatMap_cons, Stmt.shapes_eq]
    rfl

def Item.shapes : Item → List Shape
  | func f => f.body.body.map Stmt.shape
  | stmt s => [s.shape]

def Program.shape (p : Program) : Shape := .node [] (p.items.flatMap Item.shapes)

section nesting

variable {n : Nat}

theorem Shape.nesting_le_iff {along below : List Shape} : (node along below).nesting ≤ n ↔
    (∀ s ∈ along, s.nesting ≤ n) ∧ ∀ s ∈ below, s.nesting < n := by
  simp only [nesting, weigh_le_iff, Nat.zero_add, Nat.add_comm 1, Nat.succ_le_iff]

theorem Shape.nesting_le_of_below {below : List Shape} (h : ∀ s ∈ below, s.nesting < n) :
    (node [] below).nesting ≤ n := nesting_le_iff.mpr ⟨nofun, h⟩

theorem Expr.nesting_le {e : Expr} (h : e.Formed n) : e.shape.nesting ≤ n := by
  have below {e : Expr} {m n : Nat} (h : e.shape.nesting ≤ m) (less : m < n) :
      ∀ s ∈ [e.shape], s.nesting < n :=
    List.forall_mem_singleton.mpr (Nat.lt_of_le_of_lt h less)
  have belowAll {es : List Expr} {m n : Nat} (h : ∀ e ∈ es, e.shape.nesting ≤ m)
      (less : ∀ e ∈ es, m < n) :
      ∀ s ∈ Expr.shapes es, s.nesting < n := by
    rw [Expr.shapes_eq, List.forall_mem_map]
    exact fun e inside => Nat.lt_of_le_of_lt (h e inside) (less e inside)
  induction h with
  | literal | name | newArray => exact Shape.nesting_le_of_below nofun
  | member _ _ object =>
    rw [Expr.shape, Shape.nesting_le_iff]
    exact ⟨List.forall_mem_singleton.mpr object, nofun⟩
  | index _ _ less object inside =>
    rw [Expr.shape, Shape.nesting_le_iff]
    exact ⟨List.forall_mem_singleton.mpr object, below inside less⟩
  | call _ _ less callee inside =>
    rw [Expr.shape, Shape.nesting_le_iff]
    exact ⟨List.forall_mem_singleton.mpr callee, belowAll inside less⟩
  | array _ less inside | new _ _ less inside =>
    exact Shape.nesting_le_of_below (belowAll inside less)
  | unary _ less inside | stepBefore _ less _ inside | cast _ less inside =>
    exact Shape.nesting_le_of_below (below inside less)
  | stepAfter _ _ target =>
    rw [Expr.shape, Shape.nesting_le_iff]
    exact ⟨List.forall_mem_singleton.mpr target, nofun⟩
  | binary _ _ less first inside | logical _ _ less first inside | assign _ _ _ _ less first inside
  | inObject _ _ less first inside =>
    rw [Expr.shape, Shape.nesting_le_iff]
    exact ⟨List.forall_mem_singleton.mpr first, below inside less⟩
  | ternary _ _ _ less cond yes no =>
    rw [Expr.shape, Shape.nesting_le_iff]
    exact ⟨List.forall_mem_singleton.mpr cond,
      List.forall_mem_cons.mpr ⟨Nat.lt_of_le_of_lt yes less, below no less⟩⟩
  | inRange _ _ _ less value lower upper =>
    have less := Nat.lt_of_succ_lt less
    rw [Expr.shape, Shape.nesting_le_iff]
    exact ⟨List.forall_mem_singleton.mpr value,
      List.forall_mem_cons.mpr ⟨Nat.lt_of_le_of_lt lower less, below upper less⟩⟩

theorem Expr.Deeper.nesting_lt {e : Expr} (h : e.Deeper n) : e.shape.nesting < n := by
  obtain ⟨m, less, formed⟩ := h
  exact Nat.lt_of_le_of_lt (Expr.nesting_le formed) less

theorem VarDecl.Formed.nesting_lt {decl : VarDecl} (h : decl.Formed n) :
    ∀ s ∈ decl.shapes, s.nesting < n := by
  rw [VarDecl.shapes, List.forall_mem_map]
  intro e inside
  obtain ⟨d, hd, value⟩ := List.mem_filterMap.mp inside
  exact (h.values d hd e value).nesting_lt

theorem ForInit.Formed.nesting_lt {i : ForInit} (h : i.Formed n) :
    ∀ s ∈ i.shapes, s.nesting < n := by
  cases i with
  | vars decl => exact VarDecl.Formed.nesting_lt h
  | expr e => exact List.forall_mem_singleton.mpr (Expr.Deeper.nesting_lt h)

theorem Expr.nesting_lt_of_option {value : Option Expr} (h : ∀ e ∈ value, e.Deeper n) :
    ∀ s ∈ value.toList.map Expr.shape, s.nesting < n := by
  rw [List.forall_mem_map]
  exact fun e inside => (h e (Option.mem_toList.mp inside)).nesting_lt

theorem Stmt.nesting_le {s : Stmt} (h : s.Formed n) : s.shape.nesting ≤ n := by
  have belowAll {ss : List Stmt} {m n : Nat} (h : ∀ s ∈ ss, s.shape.nesting ≤ m)
      (less : ∀ s ∈ ss, m < n) :
      ∀ s ∈ ss.map Stmt.shape, s.nesting < n := by
    rw [List.forall_mem_map]
    exact fun s inside => Nat.lt_of_le_of_lt (h s inside) (less s inside)
  induction h with
  | block _ less inside =>
    rw [Stmt.shape, Stmt.shapes_eq]
    exact Shape.nesting_le_of_below (belowAll inside less)
  | ifThen head _ less inside | whileLoop head _ less inside | forEach _ head _ less inside
  | withObject head _ less inside =>
    rw [Stmt.shape]
    refine Shape.nesting_le_of_below (List.forall_mem_cons.mpr ⟨head.nesting_lt, ?_⟩)
    exact List.forall_mem_singleton.mpr (Nat.lt_of_le_of_lt inside less)
  | ifElse head _ _ _ less yes no =>
    rw [Stmt.shape]
    refine Shape.nesting_le_of_below
      (List.forall_mem_cons.mpr ⟨head.nesting_lt, List.forall_mem_cons.mpr ?_⟩)
    exact ⟨Nat.lt_of_le_of_lt yes less, List.forall_mem_singleton.mpr (Nat.lt_of_le_of_lt no less)⟩
  | @forLoop n _ _ init _ _ _ first test next _ less inside =>
    have inInit : ∀ s ∈ init.elim [] ForInit.shapes, s.nesting < n := by
      cases init with
      | none => exact nofun
      | some i => exact (first i rfl).nesting_lt
    rw [Stmt.shape, List.map_append]
    refine Shape.nesting_le_of_below
      (List.forall_mem_append.mpr ⟨List.forall_mem_append.mpr ⟨inInit, ?_⟩, ?_⟩)
    · exact List.forall_mem_append.mpr ⟨Expr.nesting_lt_of_option test,
        Expr.nesting_lt_of_option next⟩
    · exact List.forall_mem_singleton.mpr (Nat.lt_of_le_of_lt inside less)
  | @switch n _ _ _ _ head labels _ _ less inside =>
    rw [Stmt.shape, Case.shapes_eq]
    refine Shape.nesting_le_of_below (List.forall_mem_cons.mpr ⟨head.nesting_lt, fun s found => ?_⟩)
    obtain ⟨c, hc, part⟩ := List.mem_flatMap.mp found
    have inLabels : ∀ s ∈ (c.labels.filterMap id).map Expr.shape, s.nesting < n := by
      rw [List.forall_mem_map]
      intro e found
      obtain ⟨label, hl, value⟩ := List.mem_filterMap.mp found
      exact ((labels c hc).labels label hl e value).nesting_lt
    exact List.forall_mem_append.mpr ⟨inLabels, belowAll (inside c hc) (less c hc)⟩ s part
  | new _ head _ less inside =>
    rw [Stmt.shape, Stmt.shapes_eq]
    exact Shape.nesting_le_of_below
      (List.forall_mem_cons.mpr ⟨head.nesting_lt, belowAll inside less⟩)
  | ret head => exact Shape.nesting_le_of_below (Expr.nesting_lt_of_option head)
  | breakOut | continueLoop | empty => exact Shape.nesting_le_of_below nofun
  | vars formed => exact Shape.nesting_le_of_below formed.nesting_lt
  | const _ head => exact Shape.nesting_le_of_below (List.forall_mem_singleton.mpr head.nesting_lt)
  | expr formed =>
    rw [Stmt.shape, Shape.nesting_le_iff]
    exact ⟨List.forall_mem_singleton.mpr (Expr.nesting_le formed), nofun⟩

theorem Stmt.Deeper.nesting_lt {s : Stmt} (h : s.Deeper n) : s.shape.nesting < n := by
  obtain ⟨m, less, formed⟩ := h
  exact Nat.lt_of_le_of_lt (Stmt.nesting_le formed) less

theorem Program.nesting_le {p : Program} (h : p.Formed n) : p.shape.nesting ≤ n := by
  refine Shape.nesting_le_of_below fun s found => ?_
  obtain ⟨i, hi, part⟩ := List.mem_flatMap.mp found
  cases i with
  | func f =>
    obtain ⟨stmt, hs, rfl⟩ := List.mem_map.mp part
    exact ((h.items _ hi : f.Formed n).body stmt hs).nesting_lt
  | stmt stmt =>
    rw [List.mem_singleton.mp part]
    exact (h.items _ hi : stmt.Deeper n).nesting_lt

end nesting

/-- The limit bounds the steps below on every way down a tree that was read. Only the steps along a
chain of operators add to the height beyond it. -/
theorem Program.height_le_of_parse {source : String} {limit : Nat} {p : Program}
    (h : parse source limit = .ok p) :
    p.shape.nesting ≤ limit ∧ p.shape.height ≤ limit + p.shape.chain + 1 := by
  have nesting : p.shape.nesting ≤ limit := nesting_le (formed_of_parse h)
  refine ⟨nesting, ?_⟩
  calc p.shape.height ≤ p.shape.nesting + p.shape.chain + 1 := p.shape.height_le
    _ ≤ limit + p.shape.chain + 1 := by omega

theorem Program.height_le_of_parse_sum : ∃ p, parse "x = a.b + f(1)[2];" 5 = .ok p ∧
    p.shape.nesting ≤ 5 ∧ p.shape.height ≤ 5 + p.shape.chain + 1 := by
  refine (exists_ok_of_isSome ?_).imp fun p read => ⟨read, height_le_of_parse read⟩
  decide +kernel

namespace Parser

def field (e : Expr) : Expr := .member e.line e ⟨"b", Pos.origin.line⟩

/-- The tokens of `n` more fields. -/
def fields : Nat → List Token
  | 0 => []
  | n + 1 => dot.bare :: named "b" :: fields n

variable {pl : Place} {deeper : Goal → Parser Expr} {rest : List Token} {t : Token}

theorem takes_fields (stop : isSuffix t.kind = false) (n m : Nat) (e : Expr) :
    Takes pl (iterate (suffix deeper) (n + (m + 1)) e) (fields n ++ t :: rest) (t :: rest)
      (field^[n] e) := by
  induction n generalizing e with
  | zero =>
    rw [Nat.zero_add]
    exact takes_done (takes_suffix_end stop)
  | succ n ih =>
    have step : Takes pl (suffix deeper e) (fields (n + 1) ++ t :: rest) (fields n ++ t :: rest)
        (.inl (field e)) :=
      (takes_peekKind _).bind ((takes_advance _ _).bind ((takes_ident _).bind takes_pure))
    rw [Nat.add_right_comm, Function.iterate_succ_apply]
    exact takes_next step (ih (field e))

theorem length_fields (n : Nat) : (fields n).length = 2 * n := by
  induction n with
  | zero => rfl
  | succ n ih => rw [fields, List.length_cons, List.length_cons, ih]; omega

/-- The text `a.b.b…b;`. -/
def chained (n : Nat) : List Token := named "a" :: (fields n ++ [semicolon.bare])

theorem lexed_chained (n : Nat) : Lexed (chained n) := by
  have names : (named "a").Printed ∧ (named "b").Printed :=
    ⟨printed_named ⟨⟨'a', rfl, rfl⟩, by simp; rfl, rfl⟩,
      printed_named ⟨⟨'b', rfl, rfl⟩, by simp; rfl, rfl⟩⟩
  have inFields : Lexed (fields n) := by
    induction n with
    | zero => exact lexed_nil
    | succ n ih => simp [fields, names.2, ih]
  simp [chained, names.1, inFields]

theorem takes_name {x : String} (plain : CastKind.ofName? x = none) :
    Takes pl (primary deeper) (named x :: t :: rest) (t :: rest)
      (.name Pos.origin.line x .unresolved) := by
  refine (takes_peek _).bind ((takes_ident x).bind ((takes_peekKind t).bind ?_))
  dsimp only
  rw [plain]
  exact takes_pure

theorem takes_chain {n : Nat} (rounds : 2 * n ≤ pl.size) :
    Takes pl (assignment deeper) (named "a" :: (fields n ++ semicolon.bare :: rest))
      (semicolon.bare :: rest)
      (field^[n] (.name Pos.origin.line "a" .unresolved)) := by
  have first : Takes pl (primary deeper) (named "a" :: (fields n ++ semicolon.bare :: rest))
      (fields n ++ semicolon.bare :: rest) (.name Pos.origin.line "a" .unresolved) := by
    cases n <;> exact takes_name rfl
  refine takes_assignment_of_unary (ends_bare rfl _ _)
    (takes_unary_of_suffixed ⟨rfl, rfl⟩ (first.bind (takes_loop ?_)))
  rw [show pl.size + 1 = n + (pl.size - n + 1) by omega]
  exact takes_fields rfl n _ _

theorem takes_chained (n d : Nat) :
    Takes (start (chained n) (d + 2)) program (chained n ++ [last]) [last]
      ⟨[.stmt (.expr (field^[n] (.name Pos.origin.line "a" .unresolved)))], none⟩ := by
  have tokens : chained n ++ [last] = named "a" :: (fields n ++ semicolon.bare :: [last]) := by
    simp [chained]
  have rounds : 2 * n ≤ (chained n).length + 1 := by
    simp only [chained, List.length_cons, List.length_append, length_fields]
    omega
  have expr :
      Takes (start (chained n) (d + 2)).deeper expr
        (named "a" :: (fields n ++ semicolon.bare :: [last]))
      [semicolon.bare, last] (field^[n] (.name Pos.origin.line "a" .unresolved)) := by
    have level : (start (chained n) (d + 2)).deeper.depth < d + 2 :=
      Nat.succ_lt_succ (Nat.succ_pos d)
    have inside : Takes (start (chained n) (d + 2)).deeper.deeper (exprAt (d + 1) .assignment)
        (named "a" :: (fields n ++ semicolon.bare :: [last])) [semicolon.bare, last]
        (field^[n] (.name Pos.origin.line "a" .unresolved)) := takes_chain rounds
    exact (takes_room : Takes _ room _ _ (d + 1)).bind (takes_nested level inside)
  have stmt :
      Takes (start (chained n) (d + 2)) stmt
        (named "a" :: (fields n ++ semicolon.bare :: [last])) [last]
      (.expr (field^[n] (.name Pos.origin.line "a" .unresolved))) := by
    have inside : Takes (start (chained n) (d + 2)).deeper (stmtAt (d + 2))
        (named "a" :: (fields n ++ semicolon.bare :: [last])) [last]
        (.expr (field^[n] (.name Pos.origin.line "a" .unresolved))) :=
      (takes_peek _).bind (expr.bind ((takes_fixed .semicolon).bind takes_pure))
    exact (takes_room : Takes _ room _ _ (d + 2)).bind (takes_nested (Nat.succ_pos _) inside)
  obtain ⟨step, program, steps⟩ := program_steps (start (chained n) (d + 2))
  rw [program, tokens]
  exact takes_twice (Nat.succ_pos _) (steps.stmt ⟨[], 0, none⟩ _ _ _ _ nofun stmt)
    (steps.last _ nofun)

end Parser

theorem Expr.lt_height_of_recast {n : Nat} {e start : Expr}
    (h : e.recast .flat = Parser.field^[n] start) : n < e.shape.height := by
  induction n generalizing e with
  | zero => exact Nat.succ_pos _
  | succ n ih =>
    rw [Function.iterate_succ_apply'] at h
    cases e with
    | member line object field =>
      have inner := ih (Expr.member.inj h).2.1
      exact Nat.lt_of_le_of_lt inner (Shape.height_lt_of_along List.mem_cons_self)
    | _ => cases h

/-- On two levels or more the trees that are read have no greatest height. -/
theorem Program.exists_higher (d bound : Nat) :
    ∃ source p, parse source (d + 2) = .ok p ∧ bound < p.shape.height := by
  obtain ⟨p, read, same⟩ :=
    parse_renderTokens (Parser.lexed_chained bound) (Parser.takes_chained bound d)
  obtain ⟨items, clientside⟩ := p
  obtain ⟨i, rfl, item⟩ := List.map_eq_singleton_iff.mp (Program.mk.inj same).1
  cases i with
  | func f => cases item
  | stmt s =>
    cases s with
    | expr e =>
      have chain : e.recast .flat = _ := Stmt.expr.inj (Item.stmt.inj item)
      refine ⟨_, _, read, ?_⟩
      calc bound < e.shape.height := Expr.lt_height_of_recast chain
        _ < (Stmt.expr e).shape.height := Shape.height_lt_of_along List.mem_cons_self
        _ < Shape.height _ := Shape.height_lt_of_below List.mem_cons_self
    | _ => cases item

/-- The limit on nesting alone does not bound the height of a tree. -/
theorem Program.height_unbounded :
    ¬∃ bound : Nat → Nat, ∀ d source p, parse source d = .ok p → p.shape.height ≤ bound d := by
  rintro ⟨bound, bounded⟩
  obtain ⟨source, p, read, higher⟩ := exists_higher 0 (bound 2)
  have lower := bounded 2 source p read
  omega

end GraalScript
