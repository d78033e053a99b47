/-
# Shapes of trees

What can be asked of a tree without reading its tokens: a condition on each of
its nodes and statement lists (`Program.All`), the tree with every token taken
off (`Program.bare`) and the number of its statements.  The conditions that
matter for rendering are `Program.WellFormed` (names, integers and operators
can be written down), `Program.IfsGuarded` (conditions come with parentheses of
their own) and `Program.Separated` (no statement runs into the next one).
-/
import ExprLang.Proofs.Spelling
import ExprLang.Text.Decimal
import ExprLang.Tree.Render
import Mathlib.Data.List.Chain

namespace ExprLang

/-! ## Conditions on nodes -/

/-- A condition on expressions, on statements and on lists of statements. -/
structure Conditions : Type where
  expr : Expr → Prop := fun _ => True
  stmt : Stmt → Prop := fun _ => True
  body : List Stmt → Prop := fun _ => True

mutual

/-- A condition holds of an expression and of everything in it. -/
def Expr.All (c : Conditions) : Expr → Prop
  | .identifier name => c.expr (.identifier name)
  | .integer token value => c.expr (.integer token value)
  | .boolean token value => c.expr (.boolean token value)
  | .unary token operator operand => c.expr (.unary token operator operand) ∧ operand.All c
  | .binary token operator left right =>
      c.expr (.binary token operator left right) ∧ left.All c ∧ right.All c
  | .conditional token condition consequence alternative =>
      c.expr (.conditional token condition consequence alternative) ∧ condition.All c ∧
        consequence.All c ∧ Expr.AllElse c alternative
  | .function token parameters body => c.expr (.function token parameters body) ∧ body.All c
  | .call token callee arguments =>
      c.expr (.call token callee arguments) ∧ callee.All c ∧ Expr.AllArguments c arguments

/-- A condition holds everywhere in some expressions. -/
def Expr.AllArguments (c : Conditions) : List Expr → Prop
  | [] => True
  | x :: xs => x.All c ∧ Expr.AllArguments c xs

/-- A condition holds everywhere in an optional block. -/
def Expr.AllElse (c : Conditions) : Option Block → Prop
  | none => True
  | some b => b.All c

/-- A condition holds of a statement and of everything in it. -/
def Stmt.All (c : Conditions) : Stmt → Prop
  | .binding token name value => c.stmt (.binding token name value) ∧ value.All c
  | .ret token value => c.stmt (.ret token value) ∧ Stmt.AllValue c value
  | .expression token value => c.stmt (.expression token value) ∧ value.All c

/-- A condition holds everywhere in an optional expression. -/
def Stmt.AllValue (c : Conditions) : Option Expr → Prop
  | none => True
  | some x => x.All c

/-- A condition holds everywhere in each of some statements. -/
def Stmt.AllList (c : Conditions) : List Stmt → Prop
  | [] => True
  | s :: ss => s.All c ∧ Stmt.AllList c ss

/-- A condition holds of the statements of a block and of everything in them. -/
def Block.All (c : Conditions) : Block → Prop
  | .mk _ body => c.body body ∧ Stmt.AllList c body

end

/-- A condition holds of the statements of a program and of everything in them. -/
def Program.All (c : Conditions) (p : Program) : Prop :=
  c.body p.statements ∧ Stmt.AllList c p.statements

section Decidable

variable (c : Conditions) [DecidablePred c.expr] [DecidablePred c.stmt] [DecidablePred c.body]

mutual

/-- Conditions on nodes that can be tested can be tested everywhere in an expression. -/
def Expr.decidableAll : (e : Expr) → Decidable (e.All c)
  | .identifier name => inferInstanceAs (Decidable (c.expr (.identifier name)))
  | .integer token value => inferInstanceAs (Decidable (c.expr (.integer token value)))
  | .boolean token value => inferInstanceAs (Decidable (c.expr (.boolean token value)))
  | .unary token operator operand =>
      have := operand.decidableAll
      inferInstanceAs (Decidable (c.expr (.unary token operator operand) ∧ operand.All c))
  | .binary token operator left right =>
      have := left.decidableAll
      have := right.decidableAll
      inferInstanceAs (Decidable
        (c.expr (.binary token operator left right) ∧ left.All c ∧ right.All c))
  | .conditional token condition consequence alternative =>
      have := condition.decidableAll
      have := consequence.decidableAll
      have := Expr.decidableAllElse alternative
      inferInstanceAs (Decidable
        (c.expr (.conditional token condition consequence alternative) ∧ condition.All c ∧
          consequence.All c ∧ Expr.AllElse c alternative))
  | .function token parameters body =>
      have := body.decidableAll
      inferInstanceAs (Decidable (c.expr (.function token parameters body) ∧ body.All c))
  | .call token callee arguments =>
      have := callee.decidableAll
      have := Expr.decidableAllArguments arguments
      inferInstanceAs (Decidable
        (c.expr (.call token callee arguments) ∧ callee.All c ∧ Expr.AllArguments c arguments))

/-- The test in some expressions. -/
def Expr.decidableAllArguments : (xs : List Expr) → Decidable (Expr.AllArguments c xs)
  | [] => inferInstanceAs (Decidable True)
  | x :: xs =>
      have := x.decidableAll
      have := Expr.decidableAllArguments xs
      inferInstanceAs (Decidable (x.All c ∧ Expr.AllArguments c xs))

/-- The test in an optional block. -/
def Expr.decidableAllElse : (b : Option Block) → Decidable (Expr.AllElse c b)
  | none => inferInstanceAs (Decidable True)
  | some b => b.decidableAll

/-- The test in a statement. -/
def Stmt.decidableAll : (s : Stmt) → Decidable (s.All c)
  | .binding token name value =>
      have := value.decidableAll
      inferInstanceAs (Decidable (c.stmt (.binding token name value) ∧ value.All c))
  | .ret token value =>
      have := Stmt.decidableAllValue value
      inferInstanceAs (Decidable (c.stmt (.ret token value) ∧ Stmt.AllValue c value))
  | .expression token value =>
      have := value.decidableAll
      inferInstanceAs (Decidable (c.stmt (.expression token value) ∧ value.All c))

/-- The test in an optional expression. -/
def Stmt.decidableAllValue : (x : Option Expr) → Decidable (Stmt.AllValue c x)
  | none => inferInstanceAs (Decidable True)
  | some x => x.decidableAll

/-- The test in some statements. -/
def Stmt.decidableAllList : (ss : List Stmt) → Decidable (Stmt.AllList c ss)
  | [] => inferInstanceAs (Decidable True)
  | s :: ss =>
      have := s.decidableAll
      have := Stmt.decidableAllList ss
      inferInstanceAs (Decidable (s.All c ∧ Stmt.AllList c ss))

/-- The test in a block. -/
def Block.decidableAll : (b : Block) → Decidable (b.All c)
  | .mk _ body =>
      have := Stmt.decidableAllList body
      inferInstanceAs (Decidable (c.body body ∧ Stmt.AllList c body))

end

instance (p : Program) : Decidable (p.All c) :=
  have := Stmt.decidableAllList c p.statements
  inferInstanceAs (Decidable (c.body p.statements ∧ Stmt.AllList c p.statements))

end Decidable

/-! ## Trees that can be written down -/

/-- A word that is not reserved. -/
def IsName (name : String) : Prop :=
  IsWord name.toList ∧ ∀ k ∈ Token.Kind.reserved, k.spelling? ≠ some name

instance (cs : List Char) : Decidable (IsWord cs) :=
  match cs with
  | [] => .isFalse fun ⟨_, _, h, _⟩ => nomatch h
  | c :: rest =>
      decidable_of_iff (isLetter c ∧ rest.all isWordChar)
        ⟨fun h => ⟨c, rest, rfl, h.1, List.all_eq_true.mp h.2⟩, fun ⟨_, _, h, hword⟩ => by
          cases h
          exact ⟨hword.1, List.all_eq_true.mpr hword.2⟩⟩

instance (name : String) : Decidable (IsName name) :=
  inferInstanceAs (Decidable (_ ∧ _))

/-- The operators in front of an operand. -/
def prefixOperators : List String :=
  ["!", "-"]

/-- The operators between two operands. -/
def infixOperators : List String :=
  ["==", "!=", "<", ">", "+", "-", "*", "/"]

/-- The parts of an expression that are no trees can be written down. -/
def Expr.Writable : Expr → Prop
  | .identifier name => IsName name.name
  | .integer _ value => 0 ≤ value ∧ value ≤ Text.maxInteger
  | .unary _ operator _ => operator ∈ prefixOperators
  | .binary _ operator _ _ => operator ∈ infixOperators
  | .function token parameters _ => token.text = "fn" ∧ ∀ name ∈ parameters, IsName name.name
  | .boolean .. | .conditional .. | .call .. => True

/-- The parts of a statement that are no trees can be written down. -/
def Stmt.Writable : Stmt → Prop
  | .binding token name _ => token.text = "@" ∧ IsName name.name
  | .ret token _ => token.text = "ret"
  | .expression .. => True

instance : DecidablePred Expr.Writable
  | .identifier name => inferInstanceAs (Decidable (IsName name.name))
  | .integer _ value => inferInstanceAs (Decidable (0 ≤ value ∧ value ≤ Text.maxInteger))
  | .unary _ operator _ => inferInstanceAs (Decidable (operator ∈ prefixOperators))
  | .binary _ operator _ _ => inferInstanceAs (Decidable (operator ∈ infixOperators))
  | .function token parameters _ =>
      inferInstanceAs (Decidable (token.text = "fn" ∧ ∀ name ∈ parameters, IsName name.name))
  | .boolean .. | .conditional .. | .call .. => inferInstanceAs (Decidable True)

instance : DecidablePred Stmt.Writable
  | .binding token name _ => inferInstanceAs (Decidable (token.text = "@" ∧ IsName name.name))
  | .ret token _ => inferInstanceAs (Decidable (token.text = "ret"))
  | .expression .. => inferInstanceAs (Decidable True)

/-- The condition that what is no tree can be written down. -/
def writable : Conditions where
  expr := Expr.Writable
  stmt := Stmt.Writable

/-- A program all of which can be written down: its names are words and not
reserved, its integers fit, its operators are those of the language, and the
tokens that rendering shows spell their keywords. -/
def Program.WellFormed (p : Program) : Prop :=
  p.All writable

instance (p : Program) : Decidable p.WellFormed :=
  have : DecidablePred writable.expr := inferInstanceAs (DecidablePred Expr.Writable)
  have : DecidablePred writable.stmt := inferInstanceAs (DecidablePred Stmt.Writable)
  have : DecidablePred writable.body := fun _ => inferInstanceAs (Decidable True)
  inferInstanceAs (Decidable (p.All writable))

/-! ## Conditions between parentheses -/

/-- An operation, which is rendered between parentheses. -/
def Expr.IsOperation : Expr → Prop
  | .unary .. | .binary .. => True
  | _ => False

instance : DecidablePred Expr.IsOperation
  | .unary .. | .binary .. => inferInstanceAs (Decidable True)
  | .identifier .. | .integer .. | .boolean .. | .conditional .. | .function .. | .call .. =>
      inferInstanceAs (Decidable False)

/-- An expression that is rendered with a parenthesis first: an operation, or a
call of one. -/
def Expr.Opens : Expr → Prop
  | .unary .. | .binary .. => True
  | .call _ callee _ => callee.Opens
  | .identifier .. | .integer .. | .boolean .. | .conditional .. | .function .. => False

/-- Whether a parenthesis comes first can be tested. -/
def Expr.decidableOpens : (e : Expr) → Decidable e.Opens
  | .unary .. | .binary .. => inferInstanceAs (Decidable True)
  | .call _ callee _ => callee.decidableOpens
  | .identifier .. | .integer .. | .boolean .. | .conditional .. | .function .. =>
      inferInstanceAs (Decidable False)

instance : DecidablePred Expr.Opens :=
  Expr.decidableOpens

/-- A conditional tests an operation. -/
def Expr.Guarded : Expr → Prop
  | .conditional _ condition _ _ => condition.IsOperation
  | _ => True

instance : DecidablePred Expr.Guarded
  | .conditional _ condition _ _ => inferInstanceAs (Decidable condition.IsOperation)
  | .identifier .. | .integer .. | .boolean .. | .unary .. | .binary .. | .function .. |
    .call .. => inferInstanceAs (Decidable True)

/-- The condition that conditionals test operations. -/
def guarded : Conditions where
  expr := Expr.Guarded

/-- Every conditional of a program tests a unary or a binary operation. -/
def Program.IfsGuarded (p : Program) : Prop :=
  p.All guarded

instance (p : Program) : Decidable p.IfsGuarded :=
  have : DecidablePred guarded.expr := inferInstanceAs (DecidablePred Expr.Guarded)
  have : DecidablePred guarded.stmt := fun _ => inferInstanceAs (Decidable True)
  have : DecidablePred guarded.body := fun _ => inferInstanceAs (Decidable True)
  inferInstanceAs (Decidable (p.All guarded))

/-! ## Statements that stay apart -/

/-- An expression in the place of a statement. -/
def Stmt.IsExpression : Stmt → Prop
  | .expression .. => True
  | _ => False

instance : DecidablePred Stmt.IsExpression
  | .expression .. => inferInstanceAs (Decidable True)
  | .binding .. | .ret .. => inferInstanceAs (Decidable False)

/-- Two expression statements, of which the second is rendered with a
parenthesis first: behind the first expression it reads as a call. -/
def Stmt.RunsInto (s t : Stmt) : Prop :=
  s.IsExpression ∧ t.IsExpression ∧ t.render.toList.head? = some '('

instance (s t : Stmt) : Decidable (s.RunsInto t) :=
  inferInstanceAs (Decidable (_ ∧ _ ∧ _))

/-- The condition that no statement of a list runs into the next one. -/
def separated : Conditions where
  body ss := ss.IsChain fun s t => ¬ s.RunsInto t

/-- In no list of statements of a program, its own or that of a block, does a
statement run into the next one. -/
def Program.Separated (p : Program) : Prop :=
  p.All separated

instance (p : Program) : Decidable p.Separated :=
  have : DecidablePred separated.expr := fun _ => inferInstanceAs (Decidable True)
  have : DecidablePred separated.stmt := fun _ => inferInstanceAs (Decidable True)
  have : DecidablePred separated.body := fun ss =>
    inferInstanceAs (Decidable (ss.IsChain fun s t => ¬ s.RunsInto t))
  inferInstanceAs (Decidable (p.All separated))

/-! ## Trees without tokens -/

/-- A name without its token. -/
def Identifier.bare (name : Identifier) : Identifier :=
  ⟨default, name.name⟩

mutual

/-- An expression without its tokens. -/
def Expr.bare : Expr → Expr
  | .identifier name => .identifier name.bare
  | .integer _ value => .integer default value
  | .boolean _ value => .boolean default value
  | .unary _ operator operand => .unary default operator operand.bare
  | .binary _ operator left right => .binary default operator left.bare right.bare
  | .conditional _ condition consequence alternative =>
      .conditional default condition.bare consequence.bare (Expr.bareElse alternative)
  | .function _ parameters body => .function default (parameters.map Identifier.bare) body.bare
  | .call _ callee arguments => .call default callee.bare (Expr.bareArguments arguments)

/-- Some expressions without their tokens. -/
def Expr.bareArguments : List Expr → List Expr
  | [] => []
  | x :: xs => x.bare :: Expr.bareArguments xs

/-- An optional block without its tokens. -/
def Expr.bareElse : Option Block → Option Block
  | none => none
  | some b => some b.bare

/-- A statement without its tokens. -/
def Stmt.bare : Stmt → Stmt
  | .binding _ name value => .binding default name.bare value.bare
  | .ret _ value => .ret default (Stmt.bareValue value)
  | .expression _ value => .expression default value.bare

/-- An optional expression without its tokens. -/
def Stmt.bareValue : Option Expr → Option Expr
  | none => none
  | some x => some x.bare

/-- Some statements without their tokens. -/
def Stmt.bareList : List Stmt → List Stmt
  | [] => []
  | s :: ss => s.bare :: Stmt.bareList ss

/-- A block without its tokens. -/
def Block.bare : Block → Block
  | .mk _ body => .mk default (Stmt.bareList body)

end

/-- A program without its tokens: two programs are equal up to tokens when they
are equal without them. -/
def Program.bare (p : Program) : Program :=
  ⟨Stmt.bareList p.statements⟩

/-! ## How many statements there are -/

mutual

/-- The number of statements in an expression. -/
def Expr.count : Expr → Nat
  | .identifier _ | .integer _ _ | .boolean _ _ => 0
  | .unary _ _ operand => operand.count
  | .binary _ _ left right => left.count + right.count
  | .conditional _ condition consequence alternative =>
      condition.count + (consequence.count + Expr.countElse alternative)
  | .function _ _ body => body.count
  | .call _ callee arguments => callee.count + Expr.countArguments arguments

/-- The number of statements in some expressions. -/
def Expr.countArguments : List Expr → Nat
  | [] => 0
  | x :: xs => x.count + Expr.countArguments xs

/-- The number of statements in an optional block. -/
def Expr.countElse : Option Block → Nat
  | none => 0
  | some b => b.count

/-- The number of statements in a statement, itself included. -/
def Stmt.count : Stmt → Nat
  | .binding _ _ value => value.count + 1
  | .ret _ value => Stmt.countValue value + 1
  | .expression _ value => value.count + 1

/-- The number of statements in an optional expression. -/
def Stmt.countValue : Option Expr → Nat
  | none => 0
  | some x => x.count

/-- The number of statements in some statements, themselves included. -/
def Stmt.countList : List Stmt → Nat
  | [] => 0
  | s :: ss => s.count + Stmt.countList ss

/-- The number of statements in a block. -/
def Block.count : Block → Nat
  | .mk _ body => Stmt.countList body

end

mutual

/-- Statements are counted without looking at tokens. -/
theorem Expr.count_bare (e : Expr) : e.bare.count = e.count := by
  cases e <;> simp only [Expr.bare, Expr.count, Expr.count_bare, Expr.countArguments_bare,
    Expr.countElse_bare, Block.count_bare]
termination_by structural e

theorem Expr.countArguments_bare (xs : List Expr) :
    Expr.countArguments (Expr.bareArguments xs) = Expr.countArguments xs := by
  cases xs <;> simp only [Expr.bareArguments, Expr.countArguments, Expr.count_bare,
    Expr.countArguments_bare]
termination_by structural xs

theorem Expr.countElse_bare (b : Option Block) :
    Expr.countElse (Expr.bareElse b) = Expr.countElse b := by
  cases b <;> simp only [Expr.bareElse, Expr.countElse, Block.count_bare]
termination_by structural b

theorem Stmt.count_bare (s : Stmt) : s.bare.count = s.count := by
  cases s <;> simp only [Stmt.bare, Stmt.count, Expr.count_bare, Stmt.countValue_bare]
termination_by structural s

theorem Stmt.countValue_bare (x : Option Expr) :
    Stmt.countValue (Stmt.bareValue x) = Stmt.countValue x := by
  cases x <;> simp only [Stmt.bareValue, Stmt.countValue, Expr.count_bare]
termination_by structural x

theorem Stmt.countList_bare (ss : List Stmt) :
    Stmt.countList (Stmt.bareList ss) = Stmt.countList ss := by
  cases ss <;> simp only [Stmt.bareList, Stmt.countList, Stmt.count_bare, Stmt.countList_bare]
termination_by structural ss

theorem Block.count_bare (b : Block) : b.bare.count = b.count := by
  cases b
  simp only [Block.bare, Block.count, Stmt.countList_bare]
termination_by structural b

end

end ExprLang
