/-
# The visits of a run

While it runs, the parser keeps a log of the statements and blocks that it goes
through: where each began and ended, what came of it, and the visits made inside
it.  The log decides nothing.  It is what a verbose run shows, and what a
statement about "every block read on the way" is about.
-/
import ExprLang.SyntaxError
import ExprLang.Tree.Basic

namespace ExprLang

/-- One statement or block gone through.  `before` and `after` are the tokens
left from the current one on, end marker excluded, when it began and when it
was over; `inner` holds the visits made inside it, the latest first. -/
inductive Visit : Type where
  /-- A statement with its result, if it could be read, and the errors recorded
  meanwhile. -/
  | statement (before after : List Token) (result : Option Stmt) (errors : List SyntaxError)
      (inner : List Visit)
  /-- A block. -/
  | block (before after : List Token) (inner : List Visit)
  deriving Repr, Inhabited

namespace Visit

/-- The visits made inside a visit, the latest first. -/
def inner : Visit → List Visit
  | statement _ _ _ _ inner => inner
  | block _ _ inner => inner

mutual

/-- The positions at which statements that could not be read began, in source
order: a visit's own place first, then those inside it. -/
def skipped : Visit → List UInt32
  | statement before _ result _ inner =>
      (if result.isNone then before.head?.toList.map Token.start else []) ++ skippedAll inner
  | block _ _ inner => skippedAll inner

/-- The positions at which the skipped statements of a log began. -/
def skippedAll : List Visit → List UInt32
  | [] => []
  | visit :: earlier => skippedAll earlier ++ skipped visit

end

end Visit

end ExprLang
