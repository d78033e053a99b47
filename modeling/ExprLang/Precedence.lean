/-
# Binding strength

How tightly an operator holds its operands.  The strength of an operator in
infix position is decided by its spelling alone; any text that is no binary
operator and no opening parenthesis has the lowest strength.  Main statement:
`Precedence.lowest_lt_ofText_iff` (the texts that can continue an expression).
-/

namespace ExprLang

/-! ## The scale -/

/-- Binding strength, weakest first. -/
inductive Precedence : Type where
  | lowest
  | equality
  | relational
  | additive
  | multiplicative
  | unary
  | call
  deriving DecidableEq, Repr, Inhabited

namespace Precedence

/-- The place of a strength on the scale, from zero. -/
def rank : Precedence → Nat
  | lowest => 0
  | equality => 1
  | relational => 2
  | additive => 3
  | multiplicative => 4
  | unary => 5
  | call => 6

/-- Different strengths have different places. -/
theorem rank_injective {p q : Precedence} (h : p.rank = q.rank) : p = q := by
  cases p <;> cases q <;> first | rfl | cases h

/-- A strength is below another when its place is. -/
instance : LT Precedence where
  lt p q := p.rank < q.rank

instance (p q : Precedence) : Decidable (p < q) :=
  inferInstanceAs (Decidable (p.rank < q.rank))

instance : Ord Precedence where
  compare p q := compare p.rank q.rank

/-- The order of strengths is the order of their places. -/
theorem lt_iff_rank_lt {p q : Precedence} : p < q ↔ p.rank < q.rank :=
  Iff.rfl

/-! ## The strength of an operator -/

/-- The strength of an operator spelling in infix position. -/
def ofText : String → Precedence
  | "==" => equality
  | "!=" => equality
  | "<" => relational
  | ">" => relational
  | "+" => additive
  | "-" => additive
  | "*" => multiplicative
  | "/" => multiplicative
  | "(" => call
  | _ => lowest

/-- The texts that bind at all: the eight binary operators and `(`. -/
def bindingTexts : List String :=
  ["==", "!=", "<", ">", "+", "-", "*", "/", "("]

/-- A text is stronger than the lowest exactly when it is one of the binding texts. -/
theorem lowest_lt_ofText_iff {t : String} : lowest < ofText t ↔ t ∈ bindingTexts := by
  constructor
  · intro h
    unfold ofText at h
    split at h <;> first | decide | exact absurd h (by decide)
  · intro h
    simp only [bindingTexts, List.mem_cons, List.not_mem_nil, or_false] at h
    rcases h with rfl | rfl | rfl | rfl | rfl | rfl | rfl | rfl | rfl <;> decide

/-- No spelling has the strength of a unary operator. -/
theorem ofText_ne_unary (t : String) : ofText t ≠ unary := by
  unfold ofText
  split <;> decide

end Precedence

end ExprLang
