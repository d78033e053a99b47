/-
# Decimal integers

The value of a run of decimal digits, and the reading of an integer that has to
fit in a signed word of 64 bits.  Main statements: `decimalValue_concat` (digits
are positional) and `integer?_eq_some_iff` (which texts are integers).
-/

namespace ExprLang.Text

/-- The value of a decimal digit. -/
def digitValue (c : Char) : Nat :=
  c.toNat - '0'.toNat

/-- The value of a run of decimal digits, the most significant first. -/
def decimalValue (cs : List Char) : Nat :=
  cs.foldl (fun value c => 10 * value + digitValue c) 0

/-- A further digit multiplies the value by ten and adds its own. -/
theorem decimalValue_concat (cs : List Char) (c : Char) :
    decimalValue (cs ++ [c]) = 10 * decimalValue cs + digitValue c := by
  simp [decimalValue]

/-- Leading zeros do not count. -/
theorem decimalValue_zero_cons (cs : List Char) : decimalValue ('0' :: cs) = decimalValue cs :=
  rfl

/-- The largest integer of 64 bits with a sign. -/
def maxInteger : Nat :=
  0x7fffffffffffffff

/-- Whether a text is one or more digits with a value that fits. -/
def isInteger (cs : List Char) : Bool :=
  !cs.isEmpty && cs.all Char.isDigit && decimalValue cs ≤ maxInteger

theorem isInteger_iff {cs : List Char} :
    isInteger cs ↔ cs ≠ [] ∧ (∀ c ∈ cs, c.isDigit) ∧ decimalValue cs ≤ maxInteger := by
  simp [isInteger, and_assoc]

/-- The value of a text that is an integer literal. -/
def integer? (s : String) : Option Int :=
  if isInteger s.toList then some (decimalValue s.toList) else none

/-- **The integer literals**: one or more digits, the value of which fits. -/
theorem integer?_eq_some_iff {s : String} {v : Int} :
    integer? s = some v ↔
      s.toList ≠ [] ∧ (∀ c ∈ s.toList, c.isDigit) ∧ decimalValue s.toList ≤ maxInteger ∧
        v = decimalValue s.toList := by
  rw [integer?, Option.ite_none_right_eq_some, isInteger_iff, Option.some.injEq]
  simp only [and_assoc, eq_comm]

end ExprLang.Text
