/-
# Nesting

The knot of the grammar.  `Nested.level n` reads what nests at most `n` deep:
its procedures are the rules themselves, given those of the level below.  Every
nested construct starts at least one token behind the construct around it, so a
depth a little above the number of tokens left is never used up; `Rule.run` uses
that depth.  Main definitions: `Nested.level`, `Rule.run`.
-/
import ExprLang.Parser.Expression
import ExprLang.Parser.Statement

namespace ExprLang

/-- How nested constructs are read at most `n` deep. -/
def Nested.level : (n : Nat) → Nested
  | 0 => ⟨fun _ _ => .exhausted, fun _ => .exhausted⟩
  | n + 1 => ⟨fun floor p => Rule.expression floor (level n) p, fun p => Rule.block (level n) p⟩

/-- A nested expression is an expression one level down. -/
@[simp]
theorem Nested.expr_level_succ (n : Nat) (floor : Precedence) :
    (level (n + 1)).expr floor = Rule.expression floor (level n) := rfl

/-- A nested block is a block one level down. -/
@[simp]
theorem Nested.block_level_succ (n : Nat) : (level (n + 1)).block = Rule.block (level n) := rfl

/-- Runs a rule, with room for all the nesting that the tokens left can hold. -/
def Rule.run {α : Type} (rule : Rule α) : Parse α := fun p =>
  rule (Nested.level (p.ahead.length + 2)) p

end ExprLang
