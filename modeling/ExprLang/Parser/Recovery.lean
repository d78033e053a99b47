/-
# Recovery

What the parser does after a statement that it could not read: it skips the
rest of the statement, passing over braces that open inside it together with
all they enclose, and stops where the statement must end.  Main definitions:
`skipStatement`, `Parser.recover`; main statements: `skipStatement_cons_cons` (what one
step does) and `skipStatement_suffix` (skipping only moves forward).
-/
import ExprLang.Parser.State

namespace ExprLang

/-- How many braces are open after a token, when `depth` were before it.  A
closing brace that closes none counts for nothing. -/
def depthAfter (depth : Nat) (t : Token) : Nat :=
  match t.kind with
  | .openCurly => depth + 1
  | .closeCurly => depth - 1
  | _ => depth

/-- The tokens left when the rest of a statement has been skipped, with `depth`
braces open.  It stops on a semicolon outside braces, just before a brace that
closes what is around the statement, and on the last token. -/
def skipStatement (depth : Nat) : List Token → List Token
  | [] => []
  | t :: rest =>
      if depthAfter depth t = 0 ∧ t.kind = .semicolon then
        t :: rest
      else
        match rest with
        | [] => t :: rest
        | next :: _ =>
            if depthAfter depth t = 0 ∧ next.kind = .closeCurly then
              t :: rest
            else
              skipStatement (depthAfter depth t) rest

/-- The last token stops everything. -/
theorem skipStatement_singleton (depth : Nat) (t : Token) : skipStatement depth [t] = [t] := by
  unfold skipStatement
  split <;> rfl

/-- **One step of skipping**, with a token behind the current one. -/
theorem skipStatement_cons_cons (depth : Nat) (t u : Token) (us : List Token) :
    skipStatement depth (t :: u :: us) =
      if depthAfter depth t = 0 ∧ (t.kind = .semicolon ∨ u.kind = .closeCurly) then t :: u :: us
      else skipStatement (depthAfter depth t) (u :: us) := by
  rw [skipStatement]
  by_cases hsemicolon : depthAfter depth t = 0 ∧ t.kind = .semicolon
  · rw [if_pos hsemicolon, if_pos ⟨hsemicolon.1, .inl hsemicolon.2⟩]
  · rw [if_neg hsemicolon]
    by_cases hclose : depthAfter depth t = 0 ∧ u.kind = .closeCurly
    · rw [if_pos hclose, if_pos ⟨hclose.1, .inr hclose.2⟩]
    · rw [if_neg hclose, if_neg]
      rintro ⟨hdepth, hkind | hkind⟩
      · exact hsemicolon ⟨hdepth, hkind⟩
      · exact hclose ⟨hdepth, hkind⟩

/-- Skipping only moves forward. -/
theorem skipStatement_suffix (depth : Nat) (ts : List Token) : skipStatement depth ts <:+ ts := by
  induction ts generalizing depth with
  | nil => exact List.suffix_refl _
  | cons t rest ih =>
      cases rest with
      | nil => simp only [skipStatement_singleton, List.suffix_refl]
      | cons u us =>
          rw [skipStatement_cons_cons]
          split
          · exact List.suffix_refl _
          · exact (ih _).trans (List.suffix_cons _ _)

/-- Skipping does not run off the end: some token stays current. -/
theorem skipStatement_ne_nil {depth : Nat} {ts : List Token} (h : ts ≠ []) :
    skipStatement depth ts ≠ [] := by
  induction ts generalizing depth with
  | nil => exact absurd rfl h
  | cons t rest ih =>
      cases rest with
      | nil => simp [skipStatement_singleton]
      | cons u us =>
          rw [skipStatement_cons_cons]
          split
          · simp
          · exact ih (by simp)

namespace Parser

/-- Skips the rest of a statement that could not be read.  A statement that
broke on the brace that closes the block around it leaves that brace current. -/
def recover (p : Parser) : Parser :=
  if p.ranIntoClosingBrace then p else { p with ahead := skipStatement 0 p.ahead }

/-- Recovery records no error. -/
@[simp]
theorem errors_recover (p : Parser) : p.recover.errors = p.errors := by
  unfold recover
  split <;> rfl

/-- Recovery only moves forward. -/
theorem ahead_recover_suffix (p : Parser) : p.recover.ahead <:+ p.ahead := by
  unfold recover
  split
  · exact List.suffix_refl _
  · exact skipStatement_suffix 0 p.ahead

end Parser

end ExprLang
