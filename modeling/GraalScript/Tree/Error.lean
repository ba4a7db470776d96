import GraalScript.Token.Stream

/-! Why a text is not a script. -/
namespace GraalScript

inductive Expected where
  | expression | literal | statement | caseLabel | semicolonAfterNew
  deriving DecidableEq, Repr

def Expected.text : Expected → String
  | expression => "expression"
  | literal => "literal"
  | statement => "statement"
  | caseLabel => "case label"
  | semicolonAfterNew => "';' after new expression"

/-- A construct that is right by itself and stands in the wrong place. -/
inductive Misplaced where
  | breakOut | continueLoop | function | directive | secondDirective | secondDefault
  deriving DecidableEq, Repr

def Misplaced.text : Misplaced → String
  | breakOut => "break"
  | continueLoop => "continue"
  | function => "function declaration"
  | directive => "client side directive"
  | secondDirective => "second client side directive"
  | secondDefault => "second default label"

inductive ParseError where
  | token (error : TokenError)
  | unexpected (expected : Expected) (found : TokenKind) (line : Nat)
  | invalidTarget (line : Nat)
  | misplaced (what : Misplaced) (line : Nat)
  | invalidLiteral (line : Nat)
  | nestingTooDeep (limit line : Nat)
  | emptySource
  deriving DecidableEq, Repr

namespace ParseError

def line : ParseError → Nat
  | token e => e.line
  | unexpected _ _ line | invalidTarget line | misplaced _ line | invalidLiteral line
  | nestingTooDeep _ line => line
  | emptySource => 0

def message : ParseError → String
  | token e => e.message
  | unexpected expected found line =>
    s!"expected {expected.text}, found '{found.text}' at line {line}"
  | invalidTarget line => s!"invalid assignment target at line {line}"
  | misplaced what line => s!"{what.text} not allowed here at line {line}"
  | invalidLiteral line => s!"invalid literal at line {line}"
  | nestingTooDeep limit line => s!"nesting deeper than {limit} levels at line {line}"
  | emptySource => "source is empty"

end ParseError

end GraalScript
