/-
# Quoted text

How a message shows a piece of source text: between double quotes, with a
backslash before a quote or a backslash, a letter for the commonest control
characters and the code point of any other character that cannot be seen by
itself: one that prints nothing, or one that is drawn onto the character before
it.  Main statements: `escape_eq_self_iff` (the characters that stand for
themselves) and `isHidden_eq_false_of_ascii` (the visible characters of ASCII
need no code point).
-/
import ExprLang.Text.GraphemeExtend
import ExprLang.Text.Unprintable

namespace ExprLang.Text

/-- Whether a character is shown by its code point: it prints nothing, or it
extends the character before it. -/
def isHidden (c : Char) : Bool :=
  unprintable.contains c || graphemeExtend.contains c

/-- The space and the visible characters of ASCII are not hidden. -/
theorem isHidden_eq_false_of_ascii {c : Char} (hlow : 0x20 ≤ c.toNat) (hhigh : c.toNat < 0x7f) :
    isHidden c = false := by
  rw [isHidden, unprintable_contains_eq_false hlow hhigh,
    graphemeExtend_contains_eq_false (by omega), Bool.or_false]

/-- The code point of a character in lower-case hexadecimal, as an escape. -/
def codePoint (c : Char) : List Char :=
  ['\\', 'u', '\x7b'] ++ Nat.toDigits 16 c.toNat ++ ['\x7d']

/-- A character as it stands between quotes. -/
def escape (c : Char) : List Char :=
  match c with
  | '"' => ['\\', '"']
  | '\\' => ['\\', '\\']
  | '\t' => ['\\', 't']
  | '\r' => ['\\', 'r']
  | '\n' => ['\\', 'n']
  | '\x00' => ['\\', '0']
  | c => if isHidden c then codePoint c else [c]

/-- A character stands for itself unless it is a quote, a backslash or hidden. -/
theorem escape_eq_self_iff {c : Char} :
    escape c = [c] ↔ c ≠ '"' ∧ c ≠ '\\' ∧ isHidden c = false := by
  unfold escape
  split
  · simp
  · simp
  · exact ⟨fun h => by simp at h, fun h => absurd h.2.2 (by decide)⟩
  · exact ⟨fun h => by simp at h, fun h => absurd h.2.2 (by decide)⟩
  · exact ⟨fun h => by simp at h, fun h => absurd h.2.2 (by decide)⟩
  · exact ⟨fun h => by simp at h, fun h => absurd h.2.2 (by decide)⟩
  · next hquote hslash _ _ _ _ =>
      cases h : isHidden c with
      | true => simp [codePoint]
      | false => simp_all

/-- A text between double quotes. -/
def quoted (s : String) : String :=
  "\"" ++ String.ofList (s.toList.flatMap escape) ++ "\""

end ExprLang.Text
