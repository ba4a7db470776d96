import GraalScript.Proofs.Token.Render
import GraalScript.Proofs.Tree.Formed

/-! Trees written back to tokens, every expression in parentheses. The tokens of a formed tree can
be written to a text that is cut into them again. -/
namespace GraalScript

open TokenKind

def Literal.token : Literal → Token
  | int value => .bare .int (Nat.repr value.toNat)
  | float text => .bare (if '.' ∈ text.toList then .float else .int) text
  | str value => .bare .str (Text.literal value)
  | bool true => (keyword .trueKw).bare
  | bool false => (keyword .falseKw).bare
  | null => (keyword .nullKw).bare

def UnaryOp.kind : UnaryOp → TokenKind
  | neg => minus
  | not => bang

def StepOp.kind : StepOp → TokenKind
  | inc => plusPlus
  | dec => minusMinus

def BinaryOp.kind : BinaryOp → TokenKind
  | add => plus
  | sub => minus
  | mul => star
  | div => slash
  | mod => percent
  | pow => caret
  | concat => atSign
  | eq => eqEq
  | notEq => bangEq
  | less => TokenKind.less
  | greater => TokenKind.greater
  | lessEq => TokenKind.lessEq
  | greaterEq => TokenKind.greaterEq

def LogicalOp.kind : LogicalOp → TokenKind
  | and => andAnd
  | or => orOr

/-- The operator of an assignment; there is none for powers and comparisons. -/
def BinaryOp.assignKind : Option BinaryOp → TokenKind
  | some add => plusEq
  | some sub => minusEq
  | some mul => starEq
  | some div => slashEq
  | some mod => percentEq
  | some concat => atEq
  | _ => TokenKind.eq

def CastKind.name : CastKind → String
  | int => "int"
  | float => "float"
  | string => "string"

namespace Print

def named (x : String) : Token := .bare .ident x

def word (k : Keyword) : Token := (keyword k).bare

def parens (ts : List Token) : List Token := leftParen.bare :: ts ++ [rightParen.bare]

def braces (ts : List Token) : List Token := leftBrace.bare :: ts ++ [rightBrace.bare]

def commas : List (List Token) → List Token
  | [] => []
  | [part] => part
  | part :: next :: parts => part ++ comma.bare :: commas (next :: parts)

def dimension (size : UInt32) : List Token :=
  [leftBracket.bare, (Literal.int size).token, rightBracket.bare]

end Print

open Print

mutual

/-- The tokens of an expression, without parentheses around the whole. -/
def Expr.tokens : Expr → List Token
  | .literal _ value => [value.token]
  | .name _ x _ => [named x]
  | .member _ object field => parens object.tokens ++ [dot.bare, named field.name]
  | .index _ object i =>
    parens object.tokens ++ leftBracket.bare :: parens i.tokens ++ [rightBracket.bare]
  | .call _ callee args => parens callee.tokens ++ parens (commas (Expr.tokensAll args))
  | .array _ items => braces (commas (Expr.tokensAll items))
  | .unary _ op operand => op.kind.bare :: parens operand.tokens
  | .step _ op true target => op.kind.bare :: parens target.tokens
  | .step _ op false target => parens target.tokens ++ [op.kind.bare]
  | .binary _ op lhs rhs => parens lhs.tokens ++ op.kind.bare :: parens rhs.tokens
  | .logical _ op lhs rhs => parens lhs.tokens ++ op.kind.bare :: parens rhs.tokens
  | .assign _ op target value =>
    parens target.tokens ++ (BinaryOp.assignKind op).bare :: parens value.tokens
  | .ternary _ cond yes no =>
    parens cond.tokens ++ question.bare :: parens yes.tokens ++ colon.bare :: parens no.tokens
  | .cast _ kind operand => named kind.name :: parens (parens operand.tokens)
  | .inRange _ value lower upper =>
    parens value.tokens ++ word .inKw :: pipe.bare :: parens lower.tokens ++
      comma.bare :: parens upper.tokens ++ [pipe.bare]
  | .inObject _ value object => parens value.tokens ++ word .inKw :: parens object.tokens
  | .new _ cls args => word .newKw :: named cls.name :: parens (commas (Expr.tokensAll args))
  | .newArray _ dims => word .newKw :: dims.flatMap dimension

def Expr.tokensAll : List Expr → List (List Token)
  | [] => []
  | e :: es => parens e.tokens :: Expr.tokensAll es

end

def Expr.print (e : Expr) : List Token := parens e.tokens

theorem Expr.tokensAll_eq (es : List Expr) : Expr.tokensAll es = es.map Expr.print := by
  induction es with
  | nil => rfl
  | cons e es ih => rw [Expr.tokensAll, ih, List.map_cons, Expr.print]

def VarDef.tokens (d : VarDef) : List Token :=
  named d.name.name :: d.value.elim [] fun e => TokenKind.eq.bare :: e.print

def VarDecl.tokens (decl : VarDecl) : List Token :=
  word .varKw :: commas (decl.defs.map VarDef.tokens)

def ForInit.tokens : ForInit → List Token
  | vars decl => decl.tokens
  | expr e => e.print

def Case.labelTokens : Option Expr → List Token
  | some e => word .caseKw :: e.print ++ [colon.bare]
  | none => [word .defaultKw, colon.bare]

mutual

def Stmt.tokens : Stmt → List Token
  | .block _ body => braces (Stmt.tokensAll body)
  | .ifThen _ cond yes => word .ifKw :: parens cond.print ++ yes.tokens
  | .ifElse _ cond yes no =>
    word .ifKw :: parens cond.print ++ yes.tokens ++ word .elseKw :: no.tokens
  | .whileLoop _ cond body => word .whileKw :: parens cond.print ++ body.tokens
  | .forLoop _ init cond step body =>
    word .forKw :: parens (init.elim [] ForInit.tokens ++
      semicolon.bare :: cond.elim [] Expr.print ++
      semicolon.bare :: step.elim [] Expr.print) ++ body.tokens
  | .forEach _ declared item _ iterable body =>
    word .forKw :: parens ((if declared then [word .varKw] else []) ++
      named item :: colon.bare :: iterable.print) ++ body.tokens
  | .withObject _ object body => word .withKw :: parens object.print ++ body.tokens
  | .switch _ value cases => word .switchKw :: parens value.print ++ braces (Case.tokensAll cases)
  | .new _ cls newName _ body =>
    word .newKw :: named cls.name :: parens newName.print ++ braces (Stmt.tokensAll body)
  | .ret _ value => word .returnKw :: value.elim [] Expr.print ++ [semicolon.bare]
  | .breakOut _ => [word .breakKw, semicolon.bare]
  | .continueLoop _ => [word .continueKw, semicolon.bare]
  | .vars decl => decl.tokens ++ [semicolon.bare]
  | .const _ constName value =>
    word .constKw :: named constName.name :: TokenKind.eq.bare :: value.print ++ [semicolon.bare]
  | .expr e => e.print ++ [semicolon.bare]
  | .empty _ => [semicolon.bare]

def Stmt.tokensAll : List Stmt → List Token
  | [] => []
  | s :: ss => s.tokens ++ Stmt.tokensAll ss

def Case.tokens : Case → List Token
  | .mk _ labels body => labels.flatMap Case.labelTokens ++ Stmt.tokensAll body

def Case.tokensAll : List Case → List Token
  | [] => []
  | c :: cs => c.tokens ++ Case.tokensAll cs

end

theorem Stmt.tokensAll_eq (ss : List Stmt) : Stmt.tokensAll ss = ss.flatMap Stmt.tokens := by
  induction ss with
  | nil => rfl
  | cons s ss ih => rw [Stmt.tokensAll, ih, List.flatMap_cons]

theorem Case.tokensAll_eq (cs : List Case) : Case.tokensAll cs = cs.flatMap Case.tokens := by
  induction cs with
  | nil => rfl
  | cons c cs ih => rw [Case.tokensAll, ih, List.flatMap_cons]

def Func.tokens (f : Func) : List Token :=
  (if f.isPublic then [word .publicKw] else []) ++ word .functionKw ::
    (f.object.elim [] fun object => [named object.name, dot.bare]) ++
    named f.name.name :: parens (commas (f.params.map fun id => [named id.name])) ++
    braces (Stmt.tokensAll f.body.body)

def Item.tokens : Item → List Token
  | func f => f.tokens
  | stmt s => s.tokens

/-- The mark stands in front of the item with its number. -/
def Program.tokens (p : Program) : List Token :=
  match p.clientside with
  | none => p.items.flatMap Item.tokens
  | some k =>
    (p.items.take k).flatMap Item.tokens ++ .bare .directive "" ::
      (p.items.drop k).flatMap Item.tokens

/-- The text that a tree is written back to. -/
def Program.render (p : Program) : String := renderTokens p.tokens

/-- The kinds whose tokens are not all written in one way, and those that are not read as a part of
a tree. -/
@[simp] def TokenKind.free : List TokenKind := [int, float, str, ident, directive, eos]

/-- A token that is cut from what it is written to, and has no place. -/
structure Token.Printed (t : Token) : Prop where
  cuts : t.Cuts
  placeless : View.placeless.token t = t

namespace Print

theorem printed_bare {kind : TokenKind} {text : String} (cuts : (Token.bare kind text).Cuts)
    (other : kind ≠ .directive) : (Token.bare kind text).Printed := by
  refine ⟨cuts, ?_⟩
  simp [View.placeless, Token.bare, other]

@[simp] theorem printed_fixed {k : TokenKind} (h : k ∉ free) : k.bare.Printed := by
  cases k with
  | keyword k => exact printed_bare (Token.cuts_keyword k) nofun
  | int | float | str | ident | directive | eos => exact absurd (by decide) h
  | _ => exact printed_bare (Token.cuts_symbol (by decide)) nofun

@[simp] theorem printed_word (k : Keyword) : (word k).Printed :=
  printed_bare (Token.cuts_keyword k) nofun

theorem printed_named {x : String} (h : Lexer.IsName x) : (named x).Printed :=
  printed_bare (Token.cuts_name h) nofun

def Lexed (ts : List Token) : Prop := ∀ t ∈ ts, t.Printed

@[simp] theorem lexed_nil : Lexed [] := nofun

@[simp] theorem lexed_cons {t : Token} {ts : List Token} : Lexed (t :: ts) ↔ t.Printed ∧ Lexed ts :=
  List.forall_mem_cons

@[simp] theorem lexed_append {ts us : List Token} : Lexed (ts ++ us) ↔ Lexed ts ∧ Lexed us :=
  List.forall_mem_append

@[simp] theorem lexed_parens {ts : List Token} : Lexed (parens ts) ↔ Lexed ts := by
  simp [parens]

@[simp] theorem lexed_braces {ts : List Token} : Lexed (braces ts) ↔ Lexed ts := by
  simp [braces]

theorem lexed_commas {parts : List (List Token)} (h : ∀ part ∈ parts, Lexed part) :
    Lexed (commas parts) := by
  fun_induction commas parts with
  | case1 => exact lexed_nil
  | case2 part => exact h part List.mem_cons_self
  | case3 part next parts ih =>
    rw [List.forall_mem_cons] at h
    simp [h.1, ih h.2]

theorem lexed_flatMap {α : Type} {f : α → List Token} {xs : List α} (h : ∀ x ∈ xs, Lexed (f x)) :
    Lexed (xs.flatMap f) := by
  intro t inside
  obtain ⟨x, hx, ht⟩ := List.mem_flatMap.mp inside
  exact h x hx t ht

theorem isDigits_repr (n : Nat) : Lexer.IsDigits (Nat.repr n).toList := by
  rw [Nat.repr, String.toList_ofList]
  exact ⟨Nat.toDigits_ne_nil,
    fun c inside => Nat.isDigit_of_mem_toDigits (by decide) (by decide) inside⟩

theorem point_notMem {cs : List Char} (h : Lexer.IsDigits cs) : '.' ∉ cs := by
  intro inside
  exact absurd (h.digits '.' inside) (by decide)

theorem printed_literal {value : Literal} (h : value.Written) : value.token.Printed := by
  cases value with
  | int n => exact printed_bare (Token.cuts_int (isDigits_repr n.toNat)) nofun
  | float text =>
    rcases h with fraction | ⟨digits, _⟩
    · have point : '.' ∈ text.toList := by
        obtain ⟨whole, part, chars, _⟩ := fraction
        simp [chars]
      rw [Literal.token, if_pos point]
      exact printed_bare (Token.cuts_float fraction) nofun
    · rw [Literal.token, if_neg (point_notMem digits)]
      exact printed_bare (Token.cuts_int digits) nofun
  | str value => exact printed_bare (Token.cuts_str value) nofun
  | bool value => cases value <;> exact printed_word _
  | null => exact printed_word _

@[simp] theorem printed_unary (op : UnaryOp) : op.kind.bare.Printed :=
  printed_fixed (by cases op <;> decide)

@[simp] theorem printed_step (op : StepOp) : op.kind.bare.Printed :=
  printed_fixed (by cases op <;> decide)

@[simp] theorem printed_binary (op : BinaryOp) : op.kind.bare.Printed :=
  printed_fixed (by cases op <;> decide)

@[simp] theorem printed_logical (op : LogicalOp) : op.kind.bare.Printed :=
  printed_fixed (by cases op <;> decide)

@[simp] theorem printed_assign (op : Option BinaryOp) : (BinaryOp.assignKind op).bare.Printed := by
  refine printed_fixed ?_
  rcases op with _ | op
  · decide
  · cases op <;> decide

theorem isName_cast (kind : CastKind) : Lexer.IsName kind.name := by
  cases kind <;> exact ⟨⟨_, rfl, rfl⟩, by simp only [← List.all_eq_true]; rfl, rfl⟩

end Print

theorem Expr.Formed.lexed {n : Nat} {e : Expr} (h : e.Formed n) : Lexed e.tokens := by
  have list {es : List Expr} (each : ∀ a ∈ es, Lexed a.tokens) :
      Lexed (commas (Expr.tokensAll es)) := by
    refine lexed_commas fun part inside => ?_
    rw [Expr.tokensAll_eq] at inside
    obtain ⟨a, ha, rfl⟩ := List.mem_map.mp inside
    exact lexed_parens.mpr (each a ha)
  induction h with
  | literal written => simp [Expr.tokens, printed_literal written]
  | name isName => simp [Expr.tokens, printed_named isName]
  | member _ isName object => simp [Expr.tokens, printed_named isName, object]
  | index _ _ _ object inside => simp [Expr.tokens, object, inside]
  | call _ _ _ callee args => simp [Expr.tokens, callee, list args]
  | array _ _ items => simp [Expr.tokens, list items]
  | unary _ _ operand => simp [Expr.tokens, operand]
  | stepBefore _ _ _ target => simp [Expr.tokens, target]
  | stepAfter _ _ target => simp [Expr.tokens, target]
  | binary _ _ _ lhs rhs => simp [Expr.tokens, lhs, rhs]
  | logical _ _ _ lhs rhs => simp [Expr.tokens, lhs, rhs]
  | assign _ _ _ _ _ target value => simp [Expr.tokens, target, value]
  | ternary _ _ _ _ cond yes no => simp [Expr.tokens, cond, yes, no]
  | cast _ _ operand => simp [Expr.tokens, printed_named (isName_cast _), operand]
  | inRange _ _ _ _ value lower upper => simp [Expr.tokens, value, lower, upper]
  | inObject _ _ _ value object => simp [Expr.tokens, value, object]
  | new isName _ _ args => simp [Expr.tokens, printed_named isName, list args]
  | newArray _ =>
    have sizes (size : UInt32) : Lexed (dimension size) := by
      have number : (Literal.int size).token.Printed := printed_literal trivial
      simp [dimension, number]
    simp [Expr.tokens, lexed_flatMap fun size _ => sizes size]

theorem Expr.Deeper.lexed {n : Nat} {e : Expr} (h : e.Deeper n) : Lexed e.print :=
  lexed_parens.mpr h.formed.lexed

theorem Expr.lexed_elim {n : Nat} {e : Option Expr} (h : ∀ x ∈ e, x.Deeper n) :
    Lexed (e.elim [] Expr.print) := by
  cases e with
  | none => exact lexed_nil
  | some e => exact (h e rfl).lexed

theorem VarDecl.Formed.lexed {n : Nat} {decl : VarDecl} (h : decl.Formed n) :
    Lexed decl.tokens := by
  refine lexed_cons.mpr ⟨printed_word _, lexed_commas fun part inside => ?_⟩
  obtain ⟨d, hd, rfl⟩ := List.mem_map.mp inside
  have name := printed_named (h.names d hd)
  unfold VarDef.tokens
  cases found : d.value with
  | none => simp [name]
  | some e => simp [name, (h.values d hd e found).lexed]

theorem ForInit.lexed_elim {n : Nat} {init : Option ForInit} (h : ∀ i ∈ init, i.Formed n) :
    Lexed (init.elim [] ForInit.tokens) := by
  rcases init with _ | decl | e
  · exact lexed_nil
  · exact VarDecl.Formed.lexed (h _ rfl)
  · exact Expr.Deeper.lexed (h _ rfl)

theorem Case.HeadFormed.lexed {n : Nat} {c : Case} (h : c.HeadFormed n) :
    Lexed (c.labels.flatMap Case.labelTokens) := by
  refine lexed_flatMap fun label inside => ?_
  have value := h.labels label inside
  cases label with
  | none => simp [labelTokens]
  | some e => simp [labelTokens, (value e rfl).lexed]

theorem Stmt.lexed_all {ss : List Stmt} (h : ∀ s ∈ ss, Lexed s.tokens) :
    Lexed (Stmt.tokensAll ss) := by
  rw [Stmt.tokensAll_eq]
  exact lexed_flatMap h

theorem Stmt.Formed.lexed {n : Nat} {s : Stmt} (h : s.Formed n) : Lexed s.tokens := by
  induction h with
  | block _ _ body => simp [Stmt.tokens, lexed_all body]
  | ifThen head _ _ yes => simp [Stmt.tokens, head.lexed, yes]
  | ifElse head _ _ _ _ yes no => simp [Stmt.tokens, head.lexed, yes, no]
  | whileLoop head _ _ body => simp [Stmt.tokens, head.lexed, body]
  | forLoop first test next _ _ body =>
    simp [Stmt.tokens, ForInit.lexed_elim first, Expr.lexed_elim test, Expr.lexed_elim next, body]
  | @forEach _ _ _ declared _ _ _ isName head _ _ body =>
    cases declared <;> simp [Stmt.tokens, printed_named isName, head.lexed, body]
  | withObject head _ _ body => simp [Stmt.tokens, head.lexed, body]
  | @switch _ _ _ _ cases head labels _ _ _ bodies =>
    have each : ∀ c ∈ cases, Lexed c.tokens := by
      intro c hc
      have front := (labels c hc).lexed
      have back := lexed_all (bodies c hc)
      obtain ⟨line, labels, body⟩ := c
      exact lexed_append.mpr ⟨front, back⟩
    simp [Stmt.tokens, head.lexed, Case.tokensAll_eq, lexed_flatMap each]
  | new isName head _ _ body => simp [Stmt.tokens, printed_named isName, head.lexed, lexed_all body]
  | ret head => simp [Stmt.tokens, Expr.lexed_elim head]
  | breakOut => simp [Stmt.tokens]
  | continueLoop => simp [Stmt.tokens]
  | vars formed => simp [Stmt.tokens, formed.lexed]
  | const isName head => simp [Stmt.tokens, printed_named isName, head.lexed]
  | expr formed => simp [Stmt.tokens, Expr.print, formed.lexed]
  | empty => simp [Stmt.tokens]

theorem Stmt.Deeper.lexed {n : Nat} {s : Stmt} (h : s.Deeper n) : Lexed s.tokens := by
  obtain ⟨m, _, formed⟩ := h
  exact formed.lexed

theorem Func.Formed.lexed {n : Nat} {f : Func} (h : f.Formed n) : Lexed f.tokens := by
  have params : Lexed (commas (f.params.map fun id => [named id.name])) := by
    refine lexed_commas fun part inside => ?_
    obtain ⟨id, hid, rfl⟩ := List.mem_map.mp inside
    simp [printed_named (h.params id hid)]
  have body := Stmt.lexed_all fun s hs => (h.body s hs).lexed
  have object : Lexed (f.object.elim [] fun object => [named object.name, dot.bare]) := by
    cases found : f.object with
    | none => exact lexed_nil
    | some id => simp [printed_named (h.object id found)]
  have visibility : Lexed (if f.isPublic then [word .publicKw] else []) := by
    split <;> simp
  simp [Func.tokens, visibility, object, printed_named h.name, params, body]

theorem Item.Formed.lexed {n : Nat} {i : Item} (h : i.Formed n) : Lexed i.tokens := by
  cases i with
  | func f => exact Func.Formed.lexed h
  | stmt s => exact Stmt.Deeper.lexed h

theorem Program.Formed.lexed {n : Nat} {p : Program} (h : p.Formed n) : Lexed p.tokens := by
  have mark : (Token.bare .directive "").Printed := ⟨Token.cuts_directive "", rfl⟩
  have each : ∀ i ∈ p.items, Lexed i.tokens := fun i hi => (h.items i hi).lexed
  unfold tokens
  cases p.clientside with
  | none => exact lexed_flatMap each
  | some k =>
    refine lexed_append.mpr ⟨lexed_flatMap fun i hi => each i (List.mem_of_mem_take hi), ?_⟩
    exact lexed_cons.mpr ⟨mark, lexed_flatMap fun i hi => each i (List.mem_of_mem_drop hi)⟩

end GraalScript
