/-
# Length in bytes

Positions in a source count the bytes of its UTF-8 form, while texts are read
as characters.  `byteLength` is the bridge: the number of bytes of a run of
characters.  Main statements: it is additive (`byteLength_append`) and no
character is free (`byteLength_pos`).
-/

namespace ExprLang.Text

/-- The number of bytes that a run of characters takes in UTF-8. -/
def byteLength : List Char → Nat
  | [] => 0
  | c :: cs => c.utf8Size + byteLength cs

@[simp]
theorem byteLength_nil : byteLength [] = 0 := rfl

@[simp]
theorem byteLength_cons (c : Char) (cs : List Char) :
    byteLength (c :: cs) = c.utf8Size + byteLength cs := rfl

/-- Lengths add up over concatenation. -/
@[simp]
theorem byteLength_append (cs ds : List Char) :
    byteLength (cs ++ ds) = byteLength cs + byteLength ds := by
  induction cs with
  | nil => simp
  | cons c cs ih => simp [ih, Nat.add_assoc]

/-- A run that is not empty has a positive length. -/
theorem byteLength_pos {cs : List Char} (h : cs ≠ []) : 0 < byteLength cs := by
  cases cs with
  | nil => exact absurd rfl h
  | cons c cs =>
      have := c.utf8Size_pos
      simp only [byteLength_cons]
      omega

/-- Only the empty run has no bytes. -/
theorem byteLength_eq_zero_iff {cs : List Char} : byteLength cs = 0 ↔ cs = [] := by
  constructor
  · intro h
    by_cases hc : cs = []
    · exact hc
    · have := byteLength_pos hc
      omega
  · rintro rfl
    rfl

/-- A run of one-byte characters is as long in bytes as in characters. -/
theorem byteLength_eq_length {cs : List Char} (h : ∀ c ∈ cs, c.utf8Size = 1) :
    byteLength cs = cs.length := by
  induction cs with
  | nil => rfl
  | cons c cs ih =>
      rw [byteLength_cons, h c (by simp), ih fun d hd => h d (by simp [hd]), List.length_cons,
        Nat.add_comm]

end ExprLang.Text
