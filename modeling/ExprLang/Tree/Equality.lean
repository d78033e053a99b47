/-
# Equality of trees

Two trees are equal when they have the same shape, the same meaning and the
same tokens, positions included.  `Expr.same`, `Stmt.same` and `Block.same`
decide it by walking both trees at once.  Main statement: `Program` has
decidable equality (through `Expr.same_iff`, `Stmt.same_iff`, `Block.same_iff`).
-/
import ExprLang.Tree.Basic

namespace ExprLang

/-! ## The test -/

mutual

/-- Whether two expressions are equal. -/
def Expr.same : Expr → Expr → Bool
  | .identifier n, .identifier m => n = m
  | .integer t v, .integer u w => t = u && v = w
  | .boolean t v, .boolean u w => t = u && v = w
  | .unary t o x, .unary u p y => t = u && o = p && x.same y
  | .binary t o x x', .binary u p y y' => t = u && o = p && x.same y && x'.same y'
  | .conditional t c b a, .conditional u d e f => t = u && c.same d && b.same e && Expr.sameElse a f
  | .function t ns b, .function u ms c => t = u && ns = ms && b.same c
  | .call t x xs, .call u y ys => t = u && x.same y && Expr.sameAll xs ys
  | _, _ => false

/-- Whether two lists of expressions are equal. -/
def Expr.sameAll : List Expr → List Expr → Bool
  | [], [] => true
  | x :: xs, y :: ys => x.same y && Expr.sameAll xs ys
  | _, _ => false

/-- Whether two optional blocks are equal. -/
def Expr.sameElse : Option Block → Option Block → Bool
  | none, none => true
  | some b, some c => b.same c
  | _, _ => false

/-- Whether two statements are equal. -/
def Stmt.same : Stmt → Stmt → Bool
  | .binding t n x, .binding u m y => t = u && n = m && x.same y
  | .ret t x, .ret u y => t = u && Stmt.sameValue x y
  | .expression t x, .expression u y => t = u && x.same y
  | _, _ => false

/-- Whether two optional expressions are equal. -/
def Stmt.sameValue : Option Expr → Option Expr → Bool
  | none, none => true
  | some x, some y => x.same y
  | _, _ => false

/-- Whether two lists of statements are equal. -/
def Stmt.sameAll : List Stmt → List Stmt → Bool
  | [], [] => true
  | s :: ss, r :: rs => s.same r && Stmt.sameAll ss rs
  | _, _ => false

/-- Whether two blocks are equal. -/
def Block.same : Block → Block → Bool
  | .mk t ss, .mk u rs => t = u && Stmt.sameAll ss rs

end

/-! ## The test is exact -/

mutual

/-- The test on expressions is equality. -/
theorem Expr.same_iff (x y : Expr) : x.same y = true ↔ x = y := by
  cases x <;> cases y <;>
    simp [Expr.same, Expr.same_iff, Block.same_iff, Expr.sameAll_iff, Expr.sameElse_iff, and_assoc]
termination_by structural x

/-- The test on lists of expressions is equality. -/
theorem Expr.sameAll_iff (xs ys : List Expr) : Expr.sameAll xs ys = true ↔ xs = ys := by
  cases xs <;> cases ys <;> simp [Expr.sameAll, Expr.same_iff, Expr.sameAll_iff]
termination_by structural xs

/-- The test on optional blocks is equality. -/
theorem Expr.sameElse_iff (a b : Option Block) : Expr.sameElse a b = true ↔ a = b := by
  cases a <;> cases b <;> simp [Expr.sameElse, Block.same_iff]
termination_by structural a

/-- The test on statements is equality. -/
theorem Stmt.same_iff (s r : Stmt) : s.same r = true ↔ s = r := by
  cases s <;> cases r <;> simp [Stmt.same, Expr.same_iff, Stmt.sameValue_iff, and_assoc]
termination_by structural s

/-- The test on optional expressions is equality. -/
theorem Stmt.sameValue_iff (x y : Option Expr) : Stmt.sameValue x y = true ↔ x = y := by
  cases x <;> cases y <;> simp [Stmt.sameValue, Expr.same_iff]
termination_by structural x

/-- The test on lists of statements is equality. -/
theorem Stmt.sameAll_iff (ss rs : List Stmt) : Stmt.sameAll ss rs = true ↔ ss = rs := by
  cases ss <;> cases rs <;> simp [Stmt.sameAll, Stmt.same_iff, Stmt.sameAll_iff]
termination_by structural ss

/-- The test on blocks is equality. -/
theorem Block.same_iff (b c : Block) : b.same c = true ↔ b = c := by
  cases b
  cases c
  simp [Block.same, Stmt.sameAll_iff]
termination_by structural b

end

instance : DecidableEq Expr := fun x y => decidable_of_iff _ (Expr.same_iff x y)

instance : DecidableEq Stmt := fun s r => decidable_of_iff _ (Stmt.same_iff s r)

instance : DecidableEq Block := fun b c => decidable_of_iff _ (Block.same_iff b c)

deriving instance DecidableEq for Program

end ExprLang
