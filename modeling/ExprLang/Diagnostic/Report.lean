/-
# Reports

How an error is shown: its name and message, then the line of the source that
it is in, and under the line a caret at the position.  The line is shown without
the spaces and tabs at its start and without the white space at its end; the
caret is moved to the left by as much as was taken off the start.  Main
definitions: `stripStart`, `Report`, `Report.render`.
-/
import ExprLang.Diagnostic.Location
import ExprLang.SyntaxError
import ExprLang.Text.Blank

namespace ExprLang

/-! ## The shown line -/

/-- Whether a character is taken off the start of a shown line. -/
def isIndent (c : Char) : Bool :=
  c = ' ' || c = '\t'

/-- A text without the spaces and tabs at its start, and how many there were. -/
def stripStart (text : String) : String × Nat :=
  (String.ofList (text.toList.dropWhile isIndent), (text.toList.takeWhile isIndent).length)

/-- Spaces and tabs take a byte each, so their number is their length in bytes. -/
theorem snd_stripStart (text : String) :
    (stripStart text).2 = Text.byteLength (text.toList.takeWhile isIndent) := by
  refine (Text.byteLength_eq_length fun c hc => ?_).symm
  have hindent := List.all_eq_true.mp List.all_takeWhile c hc
  simp only [isIndent, Bool.or_eq_true, decide_eq_true_eq] at hindent
  rcases hindent with rfl | rfl <;> rfl

/-- A text of the given width that repeats one character and ends in another. -/
def rightAligned (fill : Char) (width : Nat) (last : Char) : String :=
  String.ofList (List.replicate (width - 1) fill ++ [last])

/-! ## Reports -/

/-- What is shown of an error. -/
structure Report : Type where
  /-- The name of the kind of error. -/
  name : String
  /-- The message, with the advice if there is any. -/
  message : String
  /-- The number of the line. -/
  line : Nat
  /-- The line as it is shown. -/
  shown : String
  /-- The byte column of the caret under the shown line. -/
  caret : Nat
  deriving DecidableEq, Repr

namespace Report

/-- The report on an error of a source. -/
def ofError (source : String) (error : SyntaxError) : Report :=
  let place := locate source error.position.toNat
  let stripped := stripStart place.text
  { name := error.name
    message := error.fullMessage
    line := place.line
    shown := String.ofList (Text.trimEnd stripped.1.toList)
    caret := place.column - stripped.2 }

/-- The bar that stands in the margin where there is no line number. -/
def margin (r : Report) : String :=
  rightAligned ' ' ((toString r.line).length + 2) '|'

/-- The four lines of a report. -/
def lines (r : Report) : List String :=
  ["Error[" ++ r.name ++ "]: " ++ r.message,
    r.margin,
    toString r.line ++ " | " ++ r.shown,
    r.margin ++ " " ++ rightAligned '-' (r.caret + 1) '^']

/-- The text of a report: its lines, each ended by a line feed. -/
def render (r : Report) : String :=
  String.join (r.lines.map (· ++ "\n"))

end Report

end ExprLang
