/-
# The forms of the language

Which form an expression or a statement takes is decided by the kind of one
token: a *leading* form is chosen by the token that an expression starts with, a
*trailing* form by the token that continues it, a *statement* form by the token
that a statement starts with.  `Forms` holds the three tables, `Forms.standard`
those of the language; entries can be replaced.
-/
import ExprLang.Token.Kind

namespace ExprLang

/-! ## The forms -/

/-- How an expression can start. -/
inductive LeadingForm : Type where
  | identifier
  | integer
  | boolean
  | unary
  | grouping
  | conditional
  | function
  deriving DecidableEq, Repr

/-- How an expression can go on after its left operand. -/
inductive TrailingForm : Type where
  | binary
  | call
  deriving DecidableEq, Repr

/-- How a statement can start. -/
inductive StatementForm : Type where
  | binding
  | ret
  | expression
  deriving DecidableEq, Repr

/-! ## The tables -/

/-- The tables that choose a form by the kind of a token. -/
structure Forms : Type where
  leading : Token.Kind → Option LeadingForm
  trailing : Token.Kind → Option TrailingForm
  statement : Token.Kind → Option StatementForm

namespace Forms

/-- The tables of the language. -/
def standard : Forms where
  leading
    | .identifier => some .identifier
    | .integer => some .integer
    | .kwTrue | .kwFalse => some .boolean
    | .bang | .minus => some .unary
    | .openParen => some .grouping
    | .kwIf => some .conditional
    | .kwFn => some .function
    | _ => none
  trailing
    | .equal | .notEqual | .less | .greater | .plus | .minus | .star | .slash => some .binary
    | .openParen => some .call
    | _ => none
  statement
    | .atSign => some .binding
    | .kwRet => some .ret
    | _ => none

/-- The tables with another leading form for a kind. -/
def setLeading (f : Forms) (kind : Token.Kind) (form : LeadingForm) : Forms :=
  { f with leading := fun k => if k = kind then some form else f.leading k }

/-- The tables with another trailing form for a kind. -/
def setTrailing (f : Forms) (kind : Token.Kind) (form : TrailingForm) : Forms :=
  { f with trailing := fun k => if k = kind then some form else f.trailing k }

/-- The tables with another statement form for a kind. -/
def setStatement (f : Forms) (kind : Token.Kind) (form : StatementForm) : Forms :=
  { f with statement := fun k => if k = kind then some form else f.statement k }

@[simp]
theorem leading_setLeading (f : Forms) (kind : Token.Kind) (form : LeadingForm) :
    (f.setLeading kind form).leading kind = some form := by
  simp [setLeading]

@[simp]
theorem trailing_setTrailing (f : Forms) (kind : Token.Kind) (form : TrailingForm) :
    (f.setTrailing kind form).trailing kind = some form := by
  simp [setTrailing]

@[simp]
theorem statement_setStatement (f : Forms) (kind : Token.Kind) (form : StatementForm) :
    (f.setStatement kind form).statement kind = some form := by
  simp [setStatement]

end Forms

end ExprLang
