/-
# Where a position is

A byte position of a source as a line and a column.  Lines are counted from one
and end in a line feed, columns are bytes from the start of the line.  A position
at or behind the end of the source is at the end of the last line.  Main
definitions: `Location`, `locate`.
-/
import ExprLang.Text.Bytes
import ExprLang.Text.Lines

namespace ExprLang

/-- The place of a position in a source: the number of its line, the text of the
line without its end, and the byte column of the position in the line. -/
structure Location : Type where
  line : Nat
  text : String
  column : Nat
  deriving DecidableEq, Repr

namespace Location

/-- The lines of a source, each with its line feed. -/
def lines (source : String) : List (List Char) :=
  Text.cutAfter (· = '\n') source.toList

/-- The place of a position that lies within one of the lines, of which the
first has the given number and starts at position zero. -/
def within (number position : Nat) : List (List Char) → Option Location
  | [] => none
  | line :: rest =>
      if position < Text.byteLength line then
        some ⟨number, String.ofList (Text.trimLineEnds line), position⟩
      else
        within (number + 1) (position - Text.byteLength line) rest

/-- The place behind the last of the lines. -/
def atEnd (lines : List (List Char)) : Location :=
  let text := Text.withoutEnd '\n' '\r' (lines.getLast?.getD [])
  ⟨max lines.length 1, String.ofList text, Text.byteLength text⟩

/-- A position lies within the lines exactly when it is below their length. -/
theorem within_isSome_iff (number position : Nat) (lines : List (List Char)) :
    (within number position lines).isSome ↔ position < Text.byteLength lines.flatten := by
  induction lines generalizing number position with
  | nil => simp [within]
  | cons line rest ih =>
      rw [within, List.flatten_cons, Text.byteLength_append]
      split
      · simp only [Option.isSome_some, true_iff]
        omega
      · rw [ih]
        omega

end Location

/-- The place of a byte position in a source. -/
def locate (source : String) (position : Nat) : Location :=
  let lines := Location.lines source
  (Location.within 1 position lines).getD (Location.atEnd lines)

/-- From the end of the source on, every position is at the end. -/
theorem locate_of_byteLength_le {source : String} {position : Nat}
    (h : Text.byteLength source.toList ≤ position) :
    locate source position = Location.atEnd (Location.lines source) := by
  have hnone : Location.within 1 position (Location.lines source) = none := by
    rw [← Option.not_isSome_iff_eq_none, Location.within_isSome_iff, Location.lines,
      Text.flatten_cutAfter]
    omega
  simp [locate, hnone]

end ExprLang
