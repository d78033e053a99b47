/-
# The token stream

A `Lexer` is a cursor into a source: the characters still to be read and the
byte position of the first of them, which is cut to 32 bits only in the tokens
that are read.  It can be asked for the next token again
and again (`Lexer.next`, which repeats the end marker for ever), or used up as
a sequence that ends before the end marker (`Lexer.next?`, `Lexer.drain`).
Main statements: `Lexer.next_next_of_kind_eq_eof`
(the end marker is repeated) and `Lexer.drain_of_next?_eq_some` (a drained
stream, one token at a time).
-/
import ExprLang.Text.Bytes
import ExprLang.Token.Basic
import ExprLang.Token.Lexeme

namespace ExprLang

/-! ## The cursor -/

/-- A cursor into a source.  `drained` records that the sequence of tokens
before the end marker has been used up. -/
structure Lexer : Type where
  position : Nat
  rest : List Char
  drained : Bool := false
  deriving DecidableEq, Repr

namespace Lexer

/-- The cursor at the start of a source. -/
def ofSource (source : String) : Lexer :=
  { position := 0, rest := source.toList }

/-- Whether nothing at all is left to read, blanks included. -/
def atEnd (l : Lexer) : Bool :=
  l.rest.isEmpty

/-- Moves past spaces, tabs, line feeds and carriage returns. -/
def skipBlanks (l : Lexer) : Lexer :=
  { l with
    position := l.position + Text.byteLength (l.rest.takeWhile Char.isWhitespace)
    rest := l.rest.dropWhile Char.isWhitespace }

/-- Skipping blanks reads forward. -/
theorem length_rest_skipBlanks_le (l : Lexer) : l.skipBlanks.rest.length ≤ l.rest.length :=
  (List.dropWhile_sublist _).length_le

/-- What is left after the blanks does not start with one. -/
theorem isWhitespace_of_rest_skipBlanks {l : Lexer} {c : Char} {rest : List Char}
    (h : l.skipBlanks.rest = c :: rest) : c.isWhitespace = false := by
  have hhead := List.head?_dropWhile_not Char.isWhitespace l.rest
  rw [show l.rest.dropWhile Char.isWhitespace = c :: rest from h] at hhead
  simpa using hhead

/-- A cursor that stands on no blank has none to skip. -/
theorem skipBlanks_skipBlanks (l : Lexer) : l.skipBlanks.skipBlanks = l.skipBlanks := by
  cases h : l.skipBlanks with
  | mk position rest drained =>
      cases rest with
      | nil => rfl
      | cons c rest =>
          have hc : c.isWhitespace = false :=
            isWhitespace_of_rest_skipBlanks (congrArg Lexer.rest h)
          simp [skipBlanks, hc]

/-! ## Reading a token -/

/-- Reads a token off a cursor that stands on no blank. -/
def read (l : Lexer) : Token × Lexer :=
  match l.rest with
  | [] => (Token.endOfInput l.position, l)
  | c :: rest =>
      let taken := Lexeme.take c rest
      let stop := l.position + Text.byteLength taken.1.chars
      (⟨taken.1.kind, String.ofList taken.1.chars, l.position.toUInt32, stop.toUInt32⟩,
        { l with position := stop, rest := taken.2 })

/-- At the end of the source there is only the end marker. -/
theorem read_of_rest_eq_nil {l : Lexer} (h : l.rest = []) :
    l.read = (Token.endOfInput l.position, l) := by
  rw [read, h]

/-- Elsewhere the token is made of a lexeme, and the cursor moves behind it. -/
theorem read_of_rest_eq_cons {l : Lexer} {c : Char} {rest : List Char} (h : l.rest = c :: rest) :
    l.read =
      (⟨(Lexeme.take c rest).1.kind, String.ofList (Lexeme.take c rest).1.chars,
          l.position.toUInt32,
          (l.position + Text.byteLength (Lexeme.take c rest).1.chars).toUInt32⟩,
        { l with
          position := l.position + Text.byteLength (Lexeme.take c rest).1.chars
          rest := (Lexeme.take c rest).2 }) := by
  rw [read, h]

/-- The next token and the cursor behind it.  At the end of the source this is
the end marker, as often as it is asked for. -/
def next (l : Lexer) : Token × Lexer :=
  l.skipBlanks.read

/-- Only the end of the source yields the end marker. -/
theorem kind_next_eq_eof_iff (l : Lexer) :
    l.next.1.kind = .eof ↔ l.skipBlanks.rest = [] := by
  cases h : l.skipBlanks.rest with
  | nil => simp [next, read_of_rest_eq_nil h]
  | cons c rest => simp [next, read_of_rest_eq_cons h, Lexeme.kind_take_ne_eof]

/-- Any other token takes something off the text. -/
theorem length_rest_next_lt {l : Lexer} (h : l.next.1.kind ≠ .eof) :
    l.next.2.rest.length < l.rest.length := by
  have hblank := l.length_rest_skipBlanks_le
  rw [Ne, kind_next_eq_eof_iff] at h
  cases hrest : l.skipBlanks.rest with
  | nil => exact absurd hrest h
  | cons c rest =>
      have hlt := Lexeme.length_rest_lt c rest
      rw [hrest] at hblank
      rw [next, read_of_rest_eq_cons hrest]
      exact Nat.lt_of_lt_of_le hlt hblank

/-- At the end of the source the cursor stays where it is. -/
theorem next_next_of_kind_eq_eof {l : Lexer} (h : l.next.1.kind = .eof) :
    l.next.2.next = l.next := by
  have hrest := l.kind_next_eq_eof_iff.mp h
  have hnext : l.next = (Token.endOfInput l.skipBlanks.position, l.skipBlanks) :=
    read_of_rest_eq_nil hrest
  rw [hnext, next, skipBlanks_skipBlanks, read_of_rest_eq_nil hrest]

/-- The next token of the sequence that ends before the end marker.  Once it
has ended it stays ended. -/
def next? (l : Lexer) : Option Token × Lexer :=
  if l.drained then
    (none, l)
  else if l.next.1.kind = .eof then
    (none, { l.next.2 with drained := true })
  else
    (some l.next.1, l.next.2)

/-- A token of the sequence takes something off the text. -/
theorem length_rest_next?_lt {l l' : Lexer} {token : Token} (h : l.next? = (some token, l')) :
    l'.rest.length < l.rest.length := by
  unfold next? at h
  split at h
  · cases h
  · split at h
    · cases h
    · next he =>
        obtain ⟨-, rfl⟩ := Prod.mk.inj h
        exact length_rest_next_lt he

/-! ## Reading a whole source -/

/-- All that is left of the sequence, and the cursor behind it. -/
def drain (l : Lexer) : List Token × Lexer :=
  match _h : l.next? with
  | (none, l') => ([], l')
  | (some token, l') =>
      let tail := l'.drain
      (token :: tail.1, tail.2)
termination_by l.rest.length
decreasing_by exact length_rest_next?_lt _h

/-- A sequence that has ended leaves nothing to drain. -/
theorem drain_of_next?_eq_none {l l' : Lexer} (h : l.next? = (none, l')) : l.drain = ([], l') := by
  rw [drain]
  split <;> simp_all

/-- Otherwise its next token comes first. -/
theorem drain_of_next?_eq_some {l l' : Lexer} {token : Token} (h : l.next? = (some token, l')) :
    l.drain = (token :: l'.drain.1, l'.drain.2) := by
  rw [drain]
  split <;> simp_all

/-- All tokens of a source, the end marker last. -/
def tokenize (source : String) : List Token :=
  let drained := (ofSource source).drain
  drained.1 ++ [drained.2.next.1]

end Lexer

end ExprLang
