/-
# Rendering

A tree as text again: every unary and binary operation between parentheses, one
space around binary operators and between the parts of a block, and one line
for each top-level statement.  The keyword of a binding, a return and a function
is the text of the node's token; everything else is written from the meaning.
Main definition: `Program.render`.
-/
import ExprLang.Tree.Basic

namespace ExprLang

mutual

/-- The text of an expression. -/
def Expr.render : Expr → String
  | .identifier name => name.name
  | .integer _ value => toString value
  | .boolean _ value => if value then "true" else "false"
  | .unary _ operator operand => "(" ++ operator ++ operand.render ++ ")"
  | .binary _ operator left right =>
      "(" ++ left.render ++ " " ++ operator ++ " " ++ right.render ++ ")"
  | .conditional _ condition consequence alternative =>
      "if " ++ condition.render ++ " " ++ consequence.render ++ Expr.renderElse alternative
  | .function token parameters body =>
      token.text ++ "(" ++ ", ".intercalate (parameters.map (·.name)) ++ ") " ++ body.render
  | .call _ callee arguments =>
      callee.render ++ "(" ++ ", ".intercalate (Expr.renderAll arguments) ++ ")"

/-- The texts of some expressions, one by one. -/
def Expr.renderAll : List Expr → List String
  | [] => []
  | x :: xs => x.render :: Expr.renderAll xs

/-- The text of the second branch of a conditional, empty when there is none. -/
def Expr.renderElse : Option Block → String
  | none => ""
  | some block => " el " ++ block.render

/-- The text of a statement. -/
def Stmt.render : Stmt → String
  | .binding token name value => token.text ++ " " ++ name.name ++ " = " ++ value.render ++ ";"
  | .ret token value => token.text ++ Stmt.renderValue value ++ ";"
  | .expression _ value => value.render

/-- The text of a returned value, empty when there is none. -/
def Stmt.renderValue : Option Expr → String
  | none => ""
  | some value => " " ++ value.render

/-- The texts of some statements, each after a space. -/
def Stmt.renderSpaced : List Stmt → String
  | [] => ""
  | s :: ss => " " ++ s.render ++ Stmt.renderSpaced ss

/-- The text of a block. -/
def Block.render : Block → String
  | .mk _ body => "\x7b" ++ Stmt.renderSpaced body ++ " \x7d"

end

/-- The texts of some expressions are the text of each. -/
theorem Expr.renderAll_eq_map (xs : List Expr) : Expr.renderAll xs = xs.map Expr.render := by
  induction xs with
  | nil => rfl
  | cons x xs ih => rw [Expr.renderAll, ih, List.map_cons]

/-- The text of a program: its statements, one on each line. -/
def Program.render (p : Program) : String :=
  "\n".intercalate (p.statements.map Stmt.render)

/-- A program without statements has no text. -/
theorem Program.render_of_isEmpty {p : Program} (h : p.isEmpty) : p.render = "" := by
  rw [isEmpty, List.isEmpty_iff] at h
  rw [render, h]
  rfl

end ExprLang
