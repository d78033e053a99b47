/-
# Programs

Reading a whole source: statements until the end of the input, whatever errors
are met on the way.  Main definitions: `Rule.program`, `Parsed`, `parse`.
-/
import ExprLang.Parser.Nesting

namespace ExprLang

open Parse

/-- The statement at the current token of a program, or `some none` where one
was skipped; `none` at the end of the input.  The token behind the statement
becomes current. -/
def Rule.programItem : Rule (Option (Option Stmt)) := fun nested => do
  if (← current).kind = .eof then
    pure none
  else
    let statement ← Rule.statement nested
    advance
    pure (some statement)

/-- The statements that can be read, up to the end of the input. -/
def Rule.program : Rule Program := fun nested => do
  let items ← bounded (many (Rule.programItem nested))
  pure ⟨items.filterMap id⟩

/-! ## Parsing a source -/

/-- What comes of a source: the program made of the statements that could be
read, the errors in the order of discovery, and the visits, the latest first. -/
structure Parsed : Type where
  program : Program
  errors : List SyntaxError
  visits : List Visit

/-- The result of a run over a whole program. -/
def Parsed.ofOutcome : Outcome Program → Parsed
  | .done program p => ⟨program, p.errors, p.visits⟩
  | .failed p => ⟨{}, p.errors, p.visits⟩
  | .exhausted => ⟨{}, [], []⟩

/-- Reads a whole source. -/
def parse (source : String) : Parsed :=
  .ofOutcome (Rule.program.run (Parser.ofSource source))

/-- The messages of the errors, in the order of discovery. -/
def Parsed.messages (r : Parsed) : List String :=
  r.errors.map SyntaxError.message

end ExprLang
