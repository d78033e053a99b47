/-
# Tokens

A token is a kind, the text it was read from and the half-open range of bytes
that the text takes in the source.  The ends of the range are kept in 32 bits, so
that in a source of 4 GiB or more they are known up to a multiple of that only.
Main statements: the strength of a token is that of its text (`Token.precedence`),
and the end marker never binds.
-/
import ExprLang.Token.Kind
import ExprLang.Precedence

namespace ExprLang

/-- A token: its kind, its text, and the bytes from `start` to just before
`stop` that it covers, both modulo 2 ^ 32. -/
structure Token : Type where
  kind : Token.Kind
  text : String
  start : UInt32
  stop : UInt32
  deriving DecidableEq, Repr, Inhabited

namespace Token

/-- The end marker of a source of `size` bytes: no text, no bytes. -/
def endOfInput (size : Nat) : Token :=
  ⟨.eof, "", size.toUInt32, size.toUInt32⟩

@[simp]
theorem kind_endOfInput (size : Nat) : (endOfInput size).kind = .eof := rfl

@[simp]
theorem text_endOfInput (size : Nat) : (endOfInput size).text = "" := rfl

@[simp]
theorem start_endOfInput (size : Nat) : (endOfInput size).start = size.toUInt32 := rfl

/-- The binding strength of a token in infix position, decided by its text. -/
def precedence (t : Token) : Precedence :=
  .ofText t.text

/-- The end marker has the lowest strength. -/
@[simp]
theorem precedence_endOfInput (size : Nat) : (endOfInput size).precedence = .lowest := by
  rfl

/-- A token in a listing: the name of its kind and, where the kind leaves the
text open, the text in parentheses. -/
def display (t : Token) : String :=
  match t.kind with
  | .integer | .identifier | .illegal => t.kind.name ++ " (" ++ t.text ++ ")"
  | k => k.name

end Token

end ExprLang
