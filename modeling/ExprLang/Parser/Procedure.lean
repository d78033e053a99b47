/-
# Parsing procedures

A procedure works on the state of a parser.  It ends in one of three ways: with
a value, with a failure (its errors are in the state), or because a bound on its
work was reached.  The last is there to make every procedure total; it is told
apart from a failure so that one can say, and prove, that it does not happen.
Main definitions: `Outcome`, `Parse` and its monad, `Parse.expect`,
`Parse.iterate`, `Parse.many`.
-/
import ExprLang.Parser.Recovery

namespace ExprLang

/-! ## Outcomes -/

/-- How a procedure ends. -/
inductive Outcome (α : Type) : Type where
  /-- With a value, and the state behind it. -/
  | done (value : α) (rest : Parser)
  /-- Without a value, in a state that has the errors. -/
  | failed (rest : Parser)
  /-- Cut short by a bound. -/
  | exhausted

/-- A procedure: from the state of a parser to an outcome. -/
def Parse (α : Type) : Type :=
  Parser → Outcome α

namespace Parse

variable {α β : Type}

/-- Gives a value and leaves the state alone. -/
@[inline]
protected def pure (a : α) : Parse α := fun p =>
  .done a p

/-- Runs one procedure and, if it gave a value, the next. -/
@[inline]
protected def bind (m : Parse α) (f : α → Parse β) : Parse β := fun p =>
  match m p with
  | .done a p => f a p
  | .failed p => .failed p
  | .exhausted => .exhausted

instance : Monad Parse where
  pure := Parse.pure
  bind := Parse.bind

@[simp]
theorem pure_apply (a : α) (p : Parser) : (pure a : Parse α) p = .done a p := rfl

/-- A sequence of two procedures, by the outcome of the first. -/
theorem bind_apply (m : Parse α) (f : α → Parse β) (p : Parser) :
    (m >>= f) p = match m p with
      | .done a p => f a p
      | .failed p => .failed p
      | .exhausted => .exhausted := rfl

/-- A mapped procedure, by the outcome of the procedure. -/
theorem map_apply (f : α → β) (m : Parse α) (p : Parser) :
    (f <$> m) p = match m p with
      | .done a p => .done (f a) p
      | .failed p => .failed p
      | .exhausted => .exhausted := rfl

/-! ## Steps -/

/-- Reads something off the state. -/
def get (f : Parser → α) : Parse α := fun p =>
  .done (f p) p

/-- The current token. -/
def current : Parse Token :=
  get Parser.current

/-- The token behind the current one. -/
def peek : Parse Token :=
  get Parser.peek

/-- Changes the state. -/
def modify (f : Parser → Parser) : Parse Unit := fun p =>
  .done () (f p)

/-- Moves the window one token forward. -/
def advance : Parse Unit :=
  modify Parser.advance

/-- Records an error at a position and fails. -/
def refuse (cause : SyntaxError.Cause) (position : UInt32) : Parse α := fun p =>
  .failed (p.report ⟨cause, position⟩)

/-- Moves onto the token behind the current one and gives it, if it is of the
expected kind; otherwise fails with an error on it and leaves the window alone. -/
def expect (kind : Token.Kind) : Parse Token := do
  let next ← peek
  if next.kind = kind then
    advance
    pure next
  else
    refuse (.unexpected kind next.kind) next.start

/-- A token of the expected kind becomes the current one. -/
theorem expect_of_kind_eq {kind : Token.Kind} {p : Parser} (h : p.peek.kind = kind) :
    expect kind p = .done p.peek p.advance := by
  simp only [expect, bind_apply, peek, get, h, if_true]
  rfl

/-- Any other token is reported, and the window stays. -/
theorem expect_of_kind_ne {kind : Token.Kind} {p : Parser} (h : p.peek.kind ≠ kind) :
    expect kind p = .failed (p.report ⟨.unexpected kind p.peek.kind, p.peek.start⟩) := by
  simp only [expect, bind_apply, peek, get, h, if_false]
  rfl

/-- Moves past a token of the given kind if it is the next one. -/
def optional (kind : Token.Kind) : Parse Unit := do
  if (← peek).kind = kind then
    advance

/-- Runs a procedure that may fail; its failure becomes the value `none`. -/
def attempt (m : Parse α) : Parse (Option α) := fun p =>
  match m p with
  | .done a p => .done (some a) p
  | .failed p => .done none p
  | .exhausted => .exhausted

/-- Runs a procedure and enters it in the log.  The entry is made from the
states around it and its value; the state behind it has the visits made inside.
Of a procedure that fails only those visits stay. -/
def logged (entry : (before after : Parser) → α → Visit) (m : Parse α) : Parse α := fun p =>
  match m { p with visits := [] } with
  | .done a q => .done a { q with visits := entry p q a :: p.visits }
  | .failed q => .failed { q with visits := q.visits ++ p.visits }
  | .exhausted => .exhausted

/-! ## Repetition -/

/-- Repeats a step from a value as long as it gives a further value, at most
`bound` times. -/
def iterate (step : α → Parse (Option α)) : (bound : Nat) → α → Parser → Outcome α
  | 0, _, _ => .exhausted
  | bound + 1, a, p =>
      match step a p with
      | .done none p => .done a p
      | .done (some b) p => iterate step bound b p
      | .failed p => .failed p
      | .exhausted => .exhausted

/-- Runs a repetition with a bound that none reaches when each of its rounds
takes a token off the state. -/
def bounded (repetition : Nat → Parse α) : Parse α := fun p =>
  repetition (p.ahead.length + 1) p

/-- Gathers the items that a procedure gives before it first gives none, behind
those gathered already, which are held with the latest first. -/
def gather (item : Parse (Option α)) : (bound : Nat) → List α → Parser → Outcome (List α)
  | 0, _, _ => .exhausted
  | bound + 1, items, p =>
      match item p with
      | .done none p => .done items.reverse p
      | .done (some a) p => gather item bound (a :: items) p
      | .failed p => .failed p
      | .exhausted => .exhausted

/-- The items that a procedure gives before it first gives none. -/
def many (item : Parse (Option α)) (bound : Nat) : Parse (List α) :=
  gather item bound []

/-- The items gathered already come in front. -/
theorem gather_eq_map_many (item : Parse (Option α)) (bound : Nat) (items : List α) (p : Parser) :
    gather item bound items p = ((items.reverse ++ ·) <$> many item bound) p := by
  rw [map_apply, many]
  induction bound generalizing items p with
  | zero => rfl
  | succ bound ih =>
      rw [gather, gather]
      cases item p with
      | done a q =>
          cases a with
          | none => simp
          | some a =>
              dsimp only
              rw [ih (a :: items) q, ih [a] q]
              cases gather item bound [] q <;> simp
      | failed q => rfl
      | exhausted => rfl

/-- **Many, one at a time**: an item comes before those that follow it. -/
theorem many_succ (item : Parse (Option α)) (bound : Nat) (p : Parser) :
    many item (bound + 1) p =
      match item p with
      | .done none p => .done [] p
      | .done (some a) p => (List.cons a <$> many item bound) p
      | .failed p => .failed p
      | .exhausted => .exhausted := by
  rw [many, gather]
  cases item p with
  | done a q =>
      cases a with
      | none => rfl
      | some a => exact gather_eq_map_many item bound [a] q
  | failed q => rfl
  | exhausted => rfl

end Parse

end ExprLang
