/-
# Syntax trees

The tree of a program: expressions, statements and the blocks that bring them
together.  Every node keeps the token that introduced it beside the meaning
read from it, so that a tree can be traced back to its source and can also be
built by hand.  Main definitions: `Expr`, `Stmt`, `Block`, `Program`.
-/
import ExprLang.Token.Basic

namespace ExprLang

/-! ## Nodes -/

/-- A name where it stands: a reference, the target of a binding or a parameter. -/
structure Identifier : Type where
  token : Token
  name : String
  deriving DecidableEq, Repr, Inhabited

mutual

/-- An expression.  The token of a binary operation is its operator and the
token of a call is the parenthesis that opens its arguments. -/
inductive Expr : Type where
  | identifier (name : Identifier)
  | integer (token : Token) (value : Int)
  | boolean (token : Token) (value : Bool)
  | unary (token : Token) (operator : String) (operand : Expr)
  | binary (token : Token) (operator : String) (left right : Expr)
  | conditional (token : Token) (condition : Expr) (consequence : Block)
      (alternative : Option Block)
  | function (token : Token) (parameters : List Identifier) (body : Block)
  | call (token : Token) (callee : Expr) (arguments : List Expr)

/-- A statement.  The token of an expression statement is the first token that
was read for it, which can be a grouping's parenthesis. -/
inductive Stmt : Type where
  | binding (token : Token) (name : Identifier) (value : Expr)
  | ret (token : Token) (value : Option Expr)
  | expression (token : Token) (value : Expr)

/-- A list of statements between braces, with its opening brace. -/
inductive Block : Type where
  | mk (token : Token) (body : List Stmt)

end

deriving instance Repr, Inhabited for Expr, Stmt, Block

/-- A whole program: its top-level statements in source order. -/
structure Program : Type where
  statements : List Stmt := []
  deriving Repr, Inhabited

/-! ## The introducing token -/

/-- The token that introduced an expression. -/
def Expr.token : Expr → Token
  | identifier name => name.token
  | integer token _ => token
  | boolean token _ => token
  | unary token _ _ => token
  | binary token _ _ _ => token
  | conditional token _ _ _ => token
  | function token _ _ => token
  | call token _ _ => token

/-- The token that introduced a statement. -/
def Stmt.token : Stmt → Token
  | binding token _ _ => token
  | ret token _ => token
  | expression token _ => token

/-- The brace that opened a block. -/
def Block.token : Block → Token
  | mk token _ => token

/-- The statements of a block, in source order. -/
def Block.body : Block → List Stmt
  | mk _ body => body

/-- A block is its brace and its statements. -/
theorem Block.eta (b : Block) : Block.mk b.token b.body = b := by
  cases b
  rfl

/-- Whether a program has no statements. -/
def Program.isEmpty (p : Program) : Bool :=
  p.statements.isEmpty

/-- The text of the token that introduced a program's first statement; the
empty text when there is none. -/
def Program.literal (p : Program) : String :=
  (p.statements.head?.map (·.token.text)).getD ""

/-- A program without statements has no introducing text. -/
theorem Program.literal_of_isEmpty {p : Program} (h : p.isEmpty) : p.literal = "" := by
  rw [isEmpty, List.isEmpty_iff] at h
  rw [literal, h]
  rfl

end ExprLang
