/-
# Expressions

The rules for expressions.  An expression starts with a leading form and is then
continued, as long as the token behind it binds tighter than the floor, by
trailing forms that take what was read so far as their left operand.  Every rule
starts with its first token current and leaves its last token current.  Main
definitions: `Rule.leading`, `Rule.trailing`, `Rule.expression`.
-/
import ExprLang.Parser.Rule
import ExprLang.Text.Decimal

namespace ExprLang.Rule

open Parse

/-! ## Leading forms -/

/-- The name at the current token. -/
def identifier : Rule Expr := fun _ => do
  let token ← current
  pure (.identifier ⟨token, token.text⟩)

/-- The integer at the current token.  A text that is no integer, or too large,
is an error on the token. -/
def integer : Rule Expr := fun _ => do
  let token ← current
  match Text.integer? token.text with
  | some value => pure (.integer token value)
  | none => refuse (.badInteger token.text) token.start

/-- The truth value at the current token. -/
def boolean : Rule Expr := fun _ => do
  let token ← current
  pure (.boolean token (token.kind = .kwTrue))

/-- An operator and the operand behind it. -/
def unary : Rule Expr := fun nested => do
  let token ← current
  advance
  let operand ← nested.expr .unary
  pure (.unary token token.text operand)

/-- An expression between parentheses; the parentheses leave no node. -/
def grouping : Rule Expr := fun nested => do
  advance
  let inner ← nested.expr .lowest
  let _ ← expect .closeParen
  pure inner

/-- The block that an opening brace behind the current token starts. -/
def bracedBlock : Rule Block := fun nested => do
  let _ ← expect .openCurly
  nested.block

/-- The second branch of a conditional, if the next token announces one. -/
def alternative : Rule (Option Block) := fun nested => do
  if (← peek).kind = .kwEl then
    advance
    some <$> bracedBlock nested
  else
    pure none

/-- A condition between parentheses, a block, and perhaps a second branch. -/
def conditional : Rule Expr := fun nested => do
  let token ← current
  let _ ← expect .openParen
  advance
  let condition ← nested.expr .lowest
  let _ ← expect .closeParen
  let consequence ← bracedBlock nested
  let alternative ← alternative nested
  pure (.conditional token condition consequence alternative)

/-- A parameter, which has to be a name. -/
def parameter : Parse Identifier := do
  let token ← expect .identifier
  pure ⟨token, token.text⟩

/-- A comma and the parameter behind it, if a comma is next. -/
def furtherParameter : Parse (Option Identifier) := do
  if (← peek).kind = .comma then
    advance
    some <$> parameter
  else
    pure none

/-- The parameters and the closing parenthesis, behind the opening one. -/
def parameters : Parse (List Identifier) := do
  if (← peek).kind = .closeParen then
    advance
    pure []
  else
    let first ← parameter
    let others ← bounded (many furtherParameter)
    let _ ← expect .closeParen
    pure (first :: others)

/-- Parameters between parentheses and a block. -/
def function : Rule Expr := fun nested => do
  let token ← current
  let _ ← expect .openParen
  let parameters ← parameters
  let body ← bracedBlock nested
  pure (.function token parameters body)

/-- The rule of a leading form. -/
def leading : LeadingForm → Rule Expr
  | .identifier => identifier
  | .integer => integer
  | .boolean => boolean
  | .unary => unary
  | .grouping => grouping
  | .conditional => conditional
  | .function => function

/-! ## Trailing forms -/

/-- The operator at the current token and its right operand, in which only what
binds tighter than the operator is taken in: operators of one strength group to
the left. -/
def binary (left : Expr) : Rule Expr := fun nested => do
  let token ← current
  advance
  let right ← nested.expr token.precedence
  pure (.binary token token.text left right)

/-- A comma and the argument behind it, if a comma is next. -/
def furtherArgument : Rule (Option Expr) := fun nested => do
  if (← peek).kind = .comma then
    advance
    advance
    some <$> nested.expr .lowest
  else
    pure none

/-- The arguments and the closing parenthesis, behind the opening one. -/
def arguments : Rule (List Expr) := fun nested => do
  if (← peek).kind = .closeParen then
    advance
    pure []
  else
    advance
    let first ← nested.expr .lowest
    let others ← bounded (many (furtherArgument nested))
    let _ ← expect .closeParen
    pure (first :: others)

/-- The arguments of a call, with their opening parenthesis current. -/
def call (callee : Expr) : Rule Expr := fun nested => do
  let token ← current
  let arguments ← arguments nested
  pure (.call token callee arguments)

/-- The rule of a trailing form, with what stands to its left. -/
def trailing : TrailingForm → Expr → Rule Expr
  | .binary => binary
  | .call => call

/-! ## Expressions -/

/-- The trailing form for the token behind the current one, if that token is no
semicolon, binds tighter than the floor and has such a form. -/
def continuation? (floor : Precedence) (p : Parser) : Option TrailingForm :=
  if p.peek.kind ≠ .semicolon ∧ floor < p.peek.precedence then p.trailingForm? else none

/-- Continues an expression by one trailing form, if there is one. -/
def continue? (floor : Precedence) (left : Expr) : Rule (Option Expr) := fun nested => do
  match ← get (continuation? floor) with
  | none => pure none
  | some form =>
    advance
    some <$> trailing form left nested

/-- The leading form at the current token.  A token that cannot start an
expression is an error. -/
def operand : Rule Expr := fun nested => do
  let token ← current
  match ← get Parser.leadingForm? with
  | none => refuse (.noExpression token.kind) token.start
  | some form => leading form nested

/-- An expression whose operators bind tighter than the floor. -/
def expression (floor : Precedence) : Rule Expr := fun nested => do
  let left ← operand nested
  bounded fun bound => iterate (fun left => continue? floor left nested) bound left

end ExprLang.Rule
