/-
# Statements and blocks

The rules for statements and for the blocks that hold them.  A statement that
cannot be read is skipped and leaves nothing but its error; reading goes on
behind it, so that one run finds the errors of all statements.  Both rules are
entered in the log of visits.  Main definitions: `Rule.statement`, `Rule.block`.
-/
import ExprLang.Parser.Rule

namespace ExprLang.Rule

open Parse

/-! ## The forms of statements -/

/-- A name, an assignment sign and a value, with the sign of bindings current. -/
def binding : Rule Stmt := fun nested => do
  let token ← current
  let name ← expect .identifier
  let _ ← expect .assign
  advance
  let value ← nested.expr .lowest
  optional .semicolon
  pure (.binding token ⟨name, name.text⟩ value)

/-- Whether a return without a value may end before a token. -/
def endsReturn (k : Token.Kind) : Bool :=
  k = .semicolon || k = .closeCurly || k = .eof

/-- The value of a return, if there is one. -/
def returnedValue : Rule (Option Expr) := fun nested => do
  if endsReturn (← peek).kind then
    pure none
  else
    advance
    some <$> nested.expr .lowest

/-- A return, with its keyword current. -/
def ret : Rule Stmt := fun nested => do
  let token ← current
  let value ← returnedValue nested
  optional .semicolon
  pure (.ret token value)

/-- An expression that stands as a statement. -/
def expressionStatement : Rule Stmt := fun nested => do
  let token ← current
  let value ← nested.expr .lowest
  optional .semicolon
  pure (.expression token value)

/-- The rule of a statement form. -/
def statementForm : StatementForm → Rule Stmt
  | .binding => binding
  | .ret => ret
  | .expression => expressionStatement

/-! ## Statements -/

/-- The entry that a statement makes in the log. -/
def statementVisit (before after : Parser) (result : Option Stmt) : Visit :=
  .statement before.ahead after.ahead result (after.errors.drop before.errors.length) after.visits

/-- The statement at the current token, of whichever form.  One that cannot be
read is skipped and gives `none`. -/
def statement : Rule (Option Stmt) := fun nested =>
  logged statementVisit do
    let form ← get Parser.statementForm
    match ← attempt (statementForm form nested) with
    | some statement => pure (some statement)
    | none =>
      modify Parser.recover
      pure none

/-! ## Blocks -/

/-- Whether a block ends at a token: at its closing brace, or with the input. -/
def endsBlock (k : Token.Kind) : Bool :=
  k = .closeCurly || k = .eof

/-- The statement at the current token of a block, or `some none` where one was
skipped.  The block is over where it ends, and where a statement broke on the
closing brace; otherwise the token behind the statement becomes current. -/
def blockItem : Rule (Option (Option Stmt)) := fun nested => do
  if endsBlock (← current).kind then
    pure none
  else
    match ← statement nested with
    | some statement =>
      advance
      pure (some (some statement))
    | none =>
      if ← get Parser.ranIntoClosingBrace then
        pure none
      else
        advance
        pure (some none)

/-- The entry that a block makes in the log. -/
def blockVisit (before after : Parser) (_ : Block) : Visit :=
  .block before.ahead after.ahead after.visits

/-- The statements up to a closing brace or the end of the input, with the
opening brace current.  The closing brace is left current. -/
def block : Rule Block := fun nested =>
  logged blockVisit do
    let token ← current
    advance
    let items ← bounded (many (blockItem nested))
    pure (.mk token (items.filterMap id))

end ExprLang.Rule
