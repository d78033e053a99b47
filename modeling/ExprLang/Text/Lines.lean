/-
# Lines

Cutting a text into lines and taking a line's end off.  The text can be one of
characters or of bytes, so both functions are told what ends a line.  Main
statements: `flatten_cutAfter` (nothing is lost) and `cutAfter_cons` (the cut,
one element at a time).
-/

namespace ExprLang.Text

variable {α : Type}

/-! ## Cutting -/

/-- Cuts a list behind every element with a property.  What is left behind the
last of them is a piece of its own unless it is empty. -/
def cutAfter (ends : α → Bool) (xs : List α) : List (List α) :=
  match _h : xs.dropWhile (!ends ·) with
  | [] => if xs.isEmpty then [] else [xs]
  | x :: rest => (xs.takeWhile (!ends ·) ++ [x]) :: cutAfter ends rest
termination_by xs.length
decreasing_by
  have hle := (List.dropWhile_sublist (!ends ·) (l := xs)).length_le
  rw [_h] at hle
  exact hle

/-- A list without the property is one piece, unless it is empty. -/
theorem cutAfter_of_dropWhile_eq_nil {ends : α → Bool} {xs : List α}
    (h : xs.dropWhile (!ends ·) = []) : cutAfter ends xs = if xs.isEmpty then [] else [xs] := by
  rw [cutAfter]
  split
  · rfl
  · next h' => exact absurd (h.symm.trans h') (by simp)

/-- Otherwise the first piece ends in the first element with the property. -/
theorem cutAfter_of_dropWhile_eq_cons {ends : α → Bool} {xs rest : List α} {x : α}
    (h : xs.dropWhile (!ends ·) = x :: rest) :
    cutAfter ends xs = (xs.takeWhile (!ends ·) ++ [x]) :: cutAfter ends rest := by
  rw [cutAfter]
  split
  · next h' => exact absurd (h.symm.trans h') (by simp)
  · next h' =>
      obtain ⟨rfl, rfl⟩ := List.cons.inj (h.symm.trans h')
      rfl

/-- Nothing has no pieces. -/
@[simp]
theorem cutAfter_nil (ends : α → Bool) : cutAfter ends [] = [] :=
  cutAfter_of_dropWhile_eq_nil rfl

/-- **The cut, one element at a time**: an element with the property is a piece
that ends; any other opens the piece behind it. -/
theorem cutAfter_cons (ends : α → Bool) (x : α) (xs : List α) :
    cutAfter ends (x :: xs) =
      if ends x then [x] :: cutAfter ends xs
      else match cutAfter ends xs with
        | [] => [[x]]
        | piece :: pieces => (x :: piece) :: pieces := by
  cases hx : ends x with
  | true =>
      rw [cutAfter_of_dropWhile_eq_cons (List.dropWhile_cons_of_neg (by simp [hx]))]
      simp [hx]
  | false =>
      have hdrop : (x :: xs).dropWhile (!ends ·) = xs.dropWhile (!ends ·) := by simp [hx]
      cases h : xs.dropWhile (!ends ·) with
      | nil =>
          rw [cutAfter_of_dropWhile_eq_nil (hdrop.trans h), cutAfter_of_dropWhile_eq_nil h]
          cases xs <;> simp
      | cons y rest =>
          rw [cutAfter_of_dropWhile_eq_cons (hdrop.trans h), cutAfter_of_dropWhile_eq_cons h]
          simp [hx]

/-- **Nothing is lost**: the pieces make up the list. -/
theorem flatten_cutAfter (ends : α → Bool) (xs : List α) : (cutAfter ends xs).flatten = xs := by
  induction xs with
  | nil => simp
  | cons x xs ih =>
      rw [cutAfter_cons]
      split
      · simp [ih]
      · split
        · next h => simpa [h] using ih
        · next h => simpa [h] using ih

/-- No piece is empty. -/
theorem nil_not_mem_cutAfter (ends : α → Bool) (xs : List α) : [] ∉ cutAfter ends xs := by
  induction xs with
  | nil => simp
  | cons x xs ih =>
      rw [cutAfter_cons]
      split
      · simp [ih]
      · split
        · simp
        · next h =>
            rw [h] at ih
            simp only [List.mem_cons, not_or] at ih ⊢
            exact ⟨by simp, ih.2⟩

/-! ## Line ends -/

/-- A line without its end: one line feed, and one carriage return just before
it.  A line that does not end in a line feed stays as it is. -/
def withoutEnd [DecidableEq α] (feed ret : α) (line : List α) : List α :=
  if line.getLast? = some feed then
    if line.dropLast.getLast? = some ret then line.dropLast.dropLast else line.dropLast
  else
    line

/-- A line that does not end in a line feed stays as it is. -/
theorem withoutEnd_of_getLast?_ne [DecidableEq α] {feed ret : α} {line : List α}
    (h : line.getLast? ≠ some feed) : withoutEnd feed ret line = line := by
  rw [withoutEnd, if_neg h]

/-- A text without any line feeds and carriage returns at its end. -/
def trimLineEnds (cs : List Char) : List Char :=
  (cs.reverse.dropWhile fun c => c = '\n' || c = '\r').reverse

end ExprLang.Text
