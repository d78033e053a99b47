/-
# Rules

A rule of the grammar says how one construct is read, given how the constructs
nested in it are read.  Keeping the two apart makes every rule a plain
definition, without recursion: the recursion of the grammar is tied once, in
`ExprLang.Parser.Nesting`.  Main definitions: `Nested`, `Rule`.
-/
import ExprLang.Parser.Procedure

namespace ExprLang

/-- How nested constructs are read: an expression whose operators bind tighter
than a floor, starting at the current token, and a block whose opening brace is
the current token.  Each leaves its last token current. -/
structure Nested : Type where
  expr : Precedence → Parse Expr
  block : Parse Block

/-- A rule: a procedure that is given the procedures for what is nested in it. -/
abbrev Rule (α : Type) : Type :=
  Nested → Parse α

end ExprLang
