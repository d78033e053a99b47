/-
# Syntax errors

What can be wrong with a source and where.  An error keeps its cause and the
byte position of the token that gave rise to it; its name, its message and the
advice that may follow the message are read off the cause.  Main definitions:
`SyntaxError`, `SyntaxError.message`, `SyntaxError.advice?`.
-/
import ExprLang.Token.Kind
import ExprLang.Text.Quoted

namespace ExprLang

/-- Why a source is refused. -/
inductive SyntaxError.Cause : Type where
  /-- One kind of token was required and another was found. -/
  | unexpected (expected found : Token.Kind)
  /-- An expression was required and the token found cannot start one. -/
  | noExpression (found : Token.Kind)
  /-- The text of an integer is not one, or does not fit. -/
  | badInteger (text : String)
  deriving DecidableEq, Repr, Inhabited

/-- A syntax error: its cause and the byte position that it points at, as tokens
keep it. -/
structure SyntaxError : Type where
  cause : SyntaxError.Cause
  position : UInt32
  deriving DecidableEq, Repr, Inhabited

namespace SyntaxError

/-- The name of the kind of error, as reports show it. -/
def name (e : SyntaxError) : String :=
  match e.cause with
  | .unexpected _ _ => "UnexpectedToken"
  | .noExpression _ => "NoPrefixParseFn"
  | .badInteger _ => "IntegerParseError"

/-- The message of an error. -/
def message (e : SyntaxError) : String :=
  match e.cause with
  | .unexpected expected found => "expected " ++ expected.describe ++ " but got " ++ found.describe
  | .noExpression found => "no prefix parse function for " ++ found.describe ++ " found"
  | .badInteger text => "could not parse " ++ Text.quoted text ++ " as integer"

/-- The advice for an error, where there is any to give. -/
def advice? (e : SyntaxError) : Option String :=
  match e.cause with
  | .unexpected .closeParen _ => some "is a closing `)` missing?"
  | .unexpected _ _ => none
  | .noExpression .illegal => some "this character is not part of the language"
  | .noExpression .eof => some "the input ended in the middle of an expression"
  | .noExpression _ => none
  | .badInteger _ => some "integer literals must fit in a signed 64-bit integer"

/-- The message and, in parentheses behind it, the advice. -/
def fullMessage (e : SyntaxError) : String :=
  match e.advice? with
  | none => e.message
  | some advice => e.message ++ " (" ++ advice ++ ")"

end SyntaxError

end ExprLang
