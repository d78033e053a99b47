/-
# Expressions in layers

Expressions read the other way: instead of one loop under a floor there is a rule
for each level of operators, which reads operands of the next tighter level and
joins them by operators of its own.  What stands between parentheses, in blocks and
so on is read in layers as well.  Main definitions: `Rule.chain`, `Rule.layered`
(the rule under a floor), `Nested.layers`; main statement: `Nested.ends_layers` (a
depth above the number of tokens left is enough here too).
-/
import ExprLang.Proofs.Grammar
import ExprLang.Proofs.Termination

namespace ExprLang

open Parse

namespace Rule

/-! ## The layers -/

/-- The operator at the current token and its right operand, which is read by the
rule of the next tighter level. -/
def operation (tighter : Rule Expr) (left : Expr) : Rule Expr := fun nested => do
  let token ← current
  advance
  let right ← tighter nested
  pure (.binary token token.text left right)

/-- One more operator of a level, if the next token is one. -/
def furtherOperator (level : Precedence) (tighter : Rule Expr) (left : Expr) :
    Rule (Option Expr) := fun nested => do
  if (← peek).precedence = level then
    advance
    some <$> operation tighter left nested
  else
    pure none

/-- Operands of the next tighter level, joined by operators of one level from the
left on. -/
def chain (level : Precedence) (tighter : Rule Expr) : Rule Expr := fun nested => do
  let left ← tighter nested
  bounded fun bound => iterate (fun left => furtherOperator level tighter left nested) bound left

/-- One more list of arguments, if the next token opens one. -/
def furtherCall (callee : Expr) : Rule (Option Expr) := fun nested => do
  if (← peek).kind = .openParen then
    advance
    some <$> call callee nested
  else
    pure none

/-- An operand with the lists of arguments to which it is applied. -/
def applied : Rule Expr := fun nested => do
  let callee ← operand nested
  bounded fun bound => iterate (fun callee => furtherCall callee nested) bound callee

/-- Applied operands joined by `*` and `/`. -/
def product : Rule Expr :=
  chain .multiplicative applied

/-- Products joined by `+` and `-`. -/
def sum : Rule Expr :=
  chain .additive product

/-- Sums joined by `<` and `>`. -/
def comparison : Rule Expr :=
  chain .relational sum

/-- Comparisons joined by `==` and `!=`. -/
def equation : Rule Expr :=
  chain .equality comparison

/-- The rule for what binds tighter than a floor: that of the first level above it. -/
def layered : Precedence → Rule Expr
  | .lowest => equation
  | .equality => comparison
  | .relational => sum
  | .additive => product
  | .multiplicative => applied
  | .unary => applied
  | .call => operand

/-- Below the products each layer is a chain of what the next one reads. -/
theorem layered_eq_chain {floor : Precedence} (h : floor.right.IsBinary) :
    layered floor = chain floor.right (layered floor.right) := by
  cases floor <;> first | rfl | exact absurd h (by decide)

end Rule

/-- How nested constructs are read in layers, at most `n` deep. -/
def Nested.layers : (n : Nat) → Nested
  | 0 => ⟨fun _ _ => .exhausted, fun _ => .exhausted⟩
  | n + 1 => ⟨fun floor p => Rule.layered floor (layers n) p, fun p => Rule.block (layers n) p⟩

/-- A nested expression is a layer one level down. -/
@[simp]
theorem Nested.expr_layers_succ (n : Nat) (floor : Precedence) :
    (layers (n + 1)).expr floor = Rule.layered floor (layers n) := rfl

/-- A nested block is a block one level down. -/
@[simp]
theorem Nested.block_layers_succ (n : Nat) : (layers (n + 1)).block = Rule.block (layers n) := rfl

/-! ## Layers end -/

namespace Rule

variable {n : Nat} {nested : Nested}

/-- An operator is a token other than the end marker. -/
theorem tail_ne_nil_of_precedence {p : Parser} (hp : p.Steady) {level : Precedence}
    (hlevel : level.IsBinary) (h : p.peek.precedence = level) : p.ahead.tail ≠ [] := by
  intro hnil
  rw [Parser.peek, hnil, List.headD_nil, Token.precedence, hp.text] at h
  rw [← h] at hlevel
  exact absurd hlevel (by decide)

theorem ends_furtherOperator {level : Precedence} {tighter : Rule Expr}
    (htighter : Ends (n + 1) (tighter nested)) (hlevel : level.IsBinary) (left : Expr)
    {p : Parser} (hp : p.Steady) (hlt : p.ahead.length < n + 1) :
    (furtherOperator level tighter left nested p).Meets
      (fun next q => p.Reaches q ∧ (next.isSome → q.ahead.length < p.ahead.length)) p.Reaches
      False := by
  have hrest : Ends (n + 1) (some <$> operation tighter left nested) :=
    Ends.map ((ends_get _).bind fun _ => ends_advance.bind fun _ => htighter.bind fun _ =>
      ends_pure _) some
  rw [furtherOperator, meets_bind, meets_peek, meets_ite]
  refine ⟨fun h => ?_, fun _ => ⟨.refl p, by simp⟩⟩
  exact hrest.round hp (Nat.le_of_lt hlt) (tail_ne_nil_of_precedence hp hlevel h)

theorem ends_chain {level : Precedence} {tighter : Rule Expr}
    (htighter : Ends (n + 1) (tighter nested)) (hlevel : level.IsBinary) :
    Ends (n + 1) (chain level tighter nested) :=
  htighter.bind fun left =>
    ends_iterate (fun left _ hp hlt => ends_furtherOperator htighter hlevel left hp hlt) left

theorem ends_applied (hn : nested.Ends n) : Ends (n + 1) (applied nested) := by
  have hoperand : Ends (n + 1) (operand nested) :=
    fun p hp hlt => ends_operand hn hp (Nat.le_of_lt_succ hlt)
  refine hoperand.bind fun callee => ends_iterate (fun callee p hp hlt => ?_) callee
  have hrest : Ends n (some <$> call callee nested) := (ends_trailing hn .call callee).map some
  rw [furtherCall, meets_bind, meets_peek, meets_ite]
  refine ⟨fun h => ?_, fun _ => ⟨.refl p, by simp⟩⟩
  exact hrest.round hp (Nat.le_of_lt_succ hlt) (hp.tail_ne_nil (by rw [h]; simp))

theorem ends_layered (hn : nested.Ends n) (floor : Precedence) :
    Ends (n + 1) (layered floor nested) := by
  have happlied := ends_applied hn
  have hproduct : Ends (n + 1) (product nested) := ends_chain happlied (by decide)
  have hsum : Ends (n + 1) (sum nested) := ends_chain hproduct (by decide)
  have hcomparison : Ends (n + 1) (comparison nested) := ends_chain hsum (by decide)
  cases floor with
  | lowest => exact ends_chain hcomparison (by decide)
  | equality => exact hcomparison
  | relational => exact hsum
  | additive => exact hproduct
  | multiplicative => exact happlied
  | unary => exact happlied
  | call => exact fun p hp hlt => ends_operand hn hp (Nat.le_of_lt_succ hlt)

end Rule

/-- **A depth above the number of tokens left is enough** for layers too. -/
theorem Nested.ends_layers (n : Nat) : (layers n).Ends n := by
  induction n with
  | zero =>
      exact ⟨fun _ _ _ h => absurd h (Nat.not_lt_zero _), fun _ _ h => absurd h (Nat.not_lt_zero _)⟩
  | succ n ih => exact ⟨Rule.ends_layered ih, Rule.ends_block ih⟩

end ExprLang
