/-
# Ranges of code points

A set of characters as a list of closed ranges of code points.  The list is
ascending, and two ranges of it neither meet nor touch, so that a set has one
list only and a search for a code point may stop at the first range behind it.
Main statements: such a search finds exactly what lies in a range
(`RangeSet.contains_iff`) and nothing in a gap between the ranges
(`RangeSet.contains_eq_false_of_gap`).
-/

namespace ExprLang.Text

/-- Whether each range holds a code point and starts behind the one before it,
with a code point between them; the first starts at `least` or later. -/
def ascendingFrom (least : Nat) : List (Nat × Nat) → Bool
  | [] => true
  | (first, last) :: rest => least ≤ first && first ≤ last && ascendingFrom (last + 2) rest

/-- No range of an ascending list starts before the least start. -/
theorem le_of_mem_of_ascendingFrom {least : Nat} {ranges : List (Nat × Nat)} {r : Nat × Nat}
    (h : ascendingFrom least ranges) (hr : r ∈ ranges) : least ≤ r.1 := by
  induction ranges generalizing least with
  | nil => cases hr
  | cons s rest ih =>
    simp only [ascendingFrom, Bool.and_eq_true, decide_eq_true_eq] at h
    rcases List.mem_cons.mp hr with rfl | hmem
    · exact h.1.1
    · have hrest := ih h.2 hmem
      omega

/-- Whether a code point lies in one of the ranges; the search ends at the first
range that starts behind it. -/
def covers (ranges : List (Nat × Nat)) (n : Nat) : Bool :=
  match ranges with
  | [] => false
  | (first, last) :: rest => first ≤ n && (n ≤ last || covers rest n)

/-- The search of an ascending list misses no range. -/
theorem covers_iff {least : Nat} {ranges : List (Nat × Nat)} (h : ascendingFrom least ranges)
    (n : Nat) : covers ranges n ↔ ∃ r ∈ ranges, r.1 ≤ n ∧ n ≤ r.2 := by
  induction ranges generalizing least with
  | nil => simp [covers]
  | cons s rest ih =>
    simp only [ascendingFrom, Bool.and_eq_true, decide_eq_true_eq] at h
    simp only [covers, Bool.and_eq_true, Bool.or_eq_true, decide_eq_true_eq, ih h.2,
      List.mem_cons, exists_eq_or_imp]
    constructor
    · rintro ⟨hfirst, hlast | hrest⟩
      · exact Or.inl ⟨hfirst, hlast⟩
      · exact Or.inr hrest
    · rintro (⟨hfirst, hlast⟩ | ⟨r, hr, hlow, hhigh⟩)
      · exact ⟨hfirst, Or.inl hlast⟩
      · have hstart := le_of_mem_of_ascendingFrom h.2 hr
        exact ⟨by omega, Or.inr ⟨r, hr, hlow, hhigh⟩⟩

/-- A set of characters, as the ascending ranges of their code points. -/
structure RangeSet : Type where
  ranges : List (Nat × Nat)
  ascending : ascendingFrom 0 ranges = true := by decide +kernel

namespace RangeSet

/-- Whether a character is in the set. -/
def contains (s : RangeSet) (c : Char) : Bool :=
  covers s.ranges c.toNat

/-- The number of code points in the set. -/
def size (s : RangeSet) : Nat :=
  s.ranges.foldl (fun n r => n + (r.2 + 1 - r.1)) 0

/-- A character is in the set exactly when its code point lies in a range. -/
theorem contains_iff {s : RangeSet} {c : Char} :
    s.contains c ↔ ∃ r ∈ s.ranges, r.1 ≤ c.toNat ∧ c.toNat ≤ r.2 :=
  covers_iff s.ascending c.toNat

/-- Where no range reaches, the set holds no character. -/
theorem contains_eq_false_of_gap {s : RangeSet} {c : Char} (low high : Nat)
    (gap : ∀ r ∈ s.ranges, r.2 < low ∨ high < r.1) (hlow : low ≤ c.toNat)
    (hhigh : c.toNat ≤ high) : s.contains c = false := by
  rw [← Bool.not_eq_true, contains_iff]
  rintro ⟨r, hr, hstart, hend⟩
  rcases gap r hr with hbelow | habove <;> omega

end RangeSet

end ExprLang.Text
