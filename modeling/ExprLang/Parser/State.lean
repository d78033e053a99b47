/-
# The state of a parser

A parser looks at its source through a window of two tokens, the *current* one
and the one behind it, and moves the window forward one token at a time.  Past
the last token the window shows the end marker for ever.  Besides the tokens the
state holds the errors found so far, the tables of forms and the log of visits.
Main definitions: `Parser`, `Parser.current`, `Parser.peek`, `Parser.advance`.
-/
import ExprLang.Parser.Forms
import ExprLang.Parser.Visit
import ExprLang.Token.Lexer

namespace ExprLang

/-- The state of a parser.  `ahead` holds the tokens from the current one on,
without the end marker; `errors` is in the order of discovery; `visits` has the
latest first. -/
structure Parser : Type where
  ahead : List Token
  eof : Token
  errors : List SyntaxError := []
  forms : Forms := .standard
  visits : List Visit := []

namespace Parser

/-- A parser at the start of a source. -/
def ofSource (source : String) : Parser :=
  let drained := (Lexer.ofSource source).drain
  { ahead := drained.1, eof := drained.2.next.1 }

/-- The first token is the current one, and the tokens of the source are those
ahead with the end marker behind them. -/
theorem ahead_ofSource (source : String) :
    (ofSource source).ahead ++ [(ofSource source).eof] = Lexer.tokenize source :=
  rfl

/-! ## The window -/

/-- The current token. -/
def current (p : Parser) : Token :=
  p.ahead.headD p.eof

/-- The token behind the current one. -/
def peek (p : Parser) : Token :=
  p.ahead.tail.headD p.eof

/-- Moves the window one token forward. -/
def advance (p : Parser) : Parser :=
  { p with ahead := p.ahead.tail }

/-- After a move the token that was behind the current one is current. -/
@[simp]
theorem current_advance (p : Parser) : p.advance.current = p.peek := rfl

@[simp]
theorem ahead_advance (p : Parser) : p.advance.ahead = p.ahead.tail := rfl

@[simp]
theorem errors_advance (p : Parser) : p.advance.errors = p.errors := rfl

/-! ## Errors -/

/-- Records an error behind those found before. -/
def report (p : Parser) (error : SyntaxError) : Parser :=
  { p with errors := p.errors ++ [error] }

@[simp]
theorem errors_report (p : Parser) (error : SyntaxError) :
    (p.report error).errors = p.errors ++ [error] := rfl

@[simp]
theorem ahead_report (p : Parser) (error : SyntaxError) : (p.report error).ahead = p.ahead := rfl

/-- Whether the current token is a closing brace on which the last error was
found.  Such a brace was no part of the broken statement: it closes the block
around it. -/
def ranIntoClosingBrace (p : Parser) : Bool :=
  p.current.kind = .closeCurly && p.errors.getLast?.any (·.position = p.current.start)

/-! ## The form of what comes next -/

/-- The leading form for the current token. -/
def leadingForm? (p : Parser) : Option LeadingForm :=
  p.forms.leading p.current.kind

/-- The trailing form for the token behind the current one. -/
def trailingForm? (p : Parser) : Option TrailingForm :=
  p.forms.trailing p.peek.kind

/-- The statement form for the current token; an expression unless the table
has another. -/
def statementForm (p : Parser) : StatementForm :=
  (p.forms.statement p.current.kind).getD .expression

end Parser

end ExprLang
