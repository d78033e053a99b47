/-
# One lexeme

How the next lexeme is taken off a text that starts with a character that is
not blank: a run of digits, a word, a symbol of two characters, a symbol of one
character, or else a single character that the language has no use for.  Main
statements: `Lexeme.take_append` (nothing is lost) and `Lexeme.length_rest_lt`
(every lexeme takes something, so reading ends).
-/
import ExprLang.Token.Kind

namespace ExprLang

/-! ## Character classes -/

/-- The characters that can begin a word: ASCII letters and the underscore. -/
def isLetter (c : Char) : Bool :=
  c.isAlpha || c == '_'

/-- The characters that can continue a word: letters and ASCII digits. -/
def isWordChar (c : Char) : Bool :=
  isLetter c || c.isDigit

/-! ## Lexemes -/

/-- A run of characters together with the kind of token that it makes. -/
structure Lexeme : Type where
  kind : Token.Kind
  chars : List Char
  deriving DecidableEq, Repr

namespace Lexeme

/-- The lexeme of a text that starts with a symbol, and the rest of the text.
A character that is no symbol makes an illegal token of its own. -/
def takeSymbol : Char → List Char → Lexeme × List Char
  | '=', '=' :: rest => (⟨.equal, ['=', '=']⟩, rest)
  | '!', '=' :: rest => (⟨.notEqual, ['!', '=']⟩, rest)
  | c, rest => (⟨(Token.Kind.ofSymbol? c).getD .illegal, [c]⟩, rest)

/-- The longest lexeme at the start of the text `c :: rest`, and what follows it. -/
def take (c : Char) (rest : List Char) : Lexeme × List Char :=
  if c.isDigit then
    (⟨.integer, c :: rest.takeWhile Char.isDigit⟩, rest.dropWhile Char.isDigit)
  else if isLetter c then
    let word := c :: rest.takeWhile isWordChar
    (⟨.ofWord (String.ofList word), word⟩, rest.dropWhile isWordChar)
  else
    takeSymbol c rest

/-- A symbol and what follows it make up the text. -/
theorem takeSymbol_append (c : Char) (rest : List Char) :
    (takeSymbol c rest).1.chars ++ (takeSymbol c rest).2 = c :: rest := by
  unfold takeSymbol
  split <;> rfl

/-- **Nothing is lost**: a lexeme and what follows it make up the text. -/
theorem take_append (c : Char) (rest : List Char) :
    (take c rest).1.chars ++ (take c rest).2 = c :: rest := by
  unfold take
  split
  · simp
  · split
    · simp
    · exact takeSymbol_append c rest

/-- A symbol has at least one character. -/
theorem chars_takeSymbol_ne_nil (c : Char) (rest : List Char) :
    (takeSymbol c rest).1.chars ≠ [] := by
  unfold takeSymbol
  split <;> simp

/-- A lexeme has at least one character. -/
theorem chars_take_ne_nil (c : Char) (rest : List Char) : (take c rest).1.chars ≠ [] := by
  unfold take
  split
  · simp
  · split
    · simp
    · exact chars_takeSymbol_ne_nil c rest

/-- What follows a lexeme is shorter than the text that it was taken from. -/
theorem length_rest_lt (c : Char) (rest : List Char) :
    (take c rest).2.length < (c :: rest).length := by
  have happ := congrArg List.length (take_append c rest)
  have hpos := List.length_pos_iff.mpr (chars_take_ne_nil c rest)
  rw [List.length_append] at happ
  omega

/-- No symbol has the kind of the end marker. -/
theorem kind_takeSymbol_ne_eof (c : Char) (rest : List Char) :
    (takeSymbol c rest).1.kind ≠ .eof := by
  unfold takeSymbol
  split
  · simp
  · simp
  · cases h : Token.Kind.ofSymbol? c with
    | none => simp
    | some k =>
        rintro rfl
        exact absurd (Token.Kind.ofSymbol?_eq_some_iff.mp h) (by simp [Token.Kind.spelling?])

/-- No lexeme has the kind of the end marker. -/
theorem kind_take_ne_eof (c : Char) (rest : List Char) : (take c rest).1.kind ≠ .eof := by
  unfold take
  split
  · simp
  · split
    · intro heof
      dsimp only at heof
      rcases Token.Kind.ofWord_mem (String.ofList (c :: rest.takeWhile isWordChar)) with h | h <;>
        rw [heof] at h
      · cases h
      · exact absurd h (by decide)
    · exact kind_takeSymbol_ne_eof c rest

end Lexeme

end ExprLang
