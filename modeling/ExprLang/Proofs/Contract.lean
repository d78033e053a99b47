/-
# Contracts of procedures

What a procedure promises about the state that it ends in.  `Outcome.Meets` says
it for one outcome, with a clause for each way to end; the lemmas below turn the
contract of a procedure into the contracts of its parts, step by step from the
front.  Main statements: `Parse.meets_bind` (a sequence), `Parse.meets_iterate`
and `Parse.meets_many` (a repetition keeps its invariant).
-/
import ExprLang.Parser.Procedure

namespace ExprLang

variable {α β : Type}

namespace Outcome

/-- An outcome is as promised: its value and the state behind it are as `done`
says, or the state behind a failure is as `failed` says.  `cut` is what is
promised of a procedure that a bound cuts short: `False` where that must not
happen. -/
def Meets (done : α → Parser → Prop) (failed : Parser → Prop) (cut : Prop) : Outcome α → Prop
  | .done a q => done a q
  | .failed q => failed q
  | .exhausted => cut

variable {D D' : α → Parser → Prop} {F F' : Parser → Prop} {X X' : Prop} {o : Outcome α}

@[simp]
theorem meets_done {a : α} {q : Parser} : (done a q).Meets D F X ↔ D a q := Iff.rfl

@[simp]
theorem meets_failed {q : Parser} : (failed q : Outcome α).Meets D F X ↔ F q := Iff.rfl

@[simp]
theorem meets_exhausted : (exhausted : Outcome α).Meets D F X ↔ X := Iff.rfl

/-- A promise can be weakened. -/
theorem Meets.imp (h : o.Meets D F X) (hD : ∀ a q, D a q → D' a q) (hF : ∀ q, F q → F' q)
    (hX : X → X') : o.Meets D' F' X' := by
  cases o with
  | done a q => exact hD a q h
  | failed q => exact hF q h
  | exhausted => exact hX h

/-- What holds of every state and value is promised of every outcome. -/
theorem meets_of_forall (hD : ∀ a q, D a q) (hF : ∀ q, F q) (hX : X) (o : Outcome α) :
    o.Meets D F X := by
  cases o with
  | done a q => exact hD a q
  | failed q => exact hF q
  | exhausted => exact hX

/-- Two promises can be read off one outcome. -/
theorem Meets.and (h : o.Meets D F X) (h' : o.Meets D' F' X') :
    o.Meets (fun a q => D a q ∧ D' a q) (fun q => F q ∧ F' q) (X ∧ X') := by
  cases o with
  | done a q => exact ⟨h, h'⟩
  | failed q => exact ⟨h, h'⟩
  | exhausted => exact ⟨h, h'⟩

end Outcome

namespace Parse

variable {D : α → Parser → Prop} {E : β → Parser → Prop} {F : Parser → Prop} {X : Prop}
  {p : Parser}

/-! ## Steps -/

/-- **A sequence** is as promised when its first part ends where the second is. -/
@[simp]
theorem meets_bind {m : Parse α} {f : α → Parse β} :
    ((m >>= f) p).Meets E F X ↔ (m p).Meets (fun a q => (f a q).Meets E F X) F X := by
  rw [bind_apply]
  cases m p <;> exact Iff.rfl

@[simp]
theorem meets_map {m : Parse α} {f : α → β} :
    ((f <$> m) p).Meets E F X ↔ (m p).Meets (fun a => E (f a)) F X := by
  rw [map_apply]
  cases m p <;> exact Iff.rfl

@[simp]
theorem meets_ite {c : Prop} [Decidable c] {m m' : Parse α} :
    ((if c then m else m') p).Meets D F X ↔
      (c → (m p).Meets D F X) ∧ (¬ c → (m' p).Meets D F X) := by
  split <;> simp [*]

@[simp]
theorem meets_pure {a : α} : ((pure a : Parse α) p).Meets D F X ↔ D a p := Iff.rfl

@[simp]
theorem meets_get {f : Parser → α} : (get f p).Meets D F X ↔ D (f p) p := Iff.rfl

@[simp]
theorem meets_current {D : Token → Parser → Prop} :
    (current p).Meets D F X ↔ D p.current p := Iff.rfl

@[simp]
theorem meets_peek {D : Token → Parser → Prop} : (peek p).Meets D F X ↔ D p.peek p := Iff.rfl

@[simp]
theorem meets_modify {D : Unit → Parser → Prop} {f : Parser → Parser} :
    (modify f p).Meets D F X ↔ D () (f p) := Iff.rfl

@[simp]
theorem meets_advance {D : Unit → Parser → Prop} :
    (advance p).Meets D F X ↔ D () p.advance := Iff.rfl

@[simp]
theorem meets_refuse {cause : SyntaxError.Cause} {position : UInt32} :
    ((refuse cause position : Parse α) p).Meets D F X ↔ F (p.report ⟨cause, position⟩) := Iff.rfl

@[simp]
theorem meets_expect {D : Token → Parser → Prop} {kind : Token.Kind} :
    (expect kind p).Meets D F X ↔
      (p.peek.kind = kind → D p.peek p.advance) ∧
        (p.peek.kind ≠ kind → F (p.report ⟨.unexpected kind p.peek.kind, p.peek.start⟩)) := by
  by_cases h : p.peek.kind = kind
  · simp [expect_of_kind_eq h, h]
  · simp [expect_of_kind_ne h, h]

@[simp]
theorem meets_optional {D : Unit → Parser → Prop} {kind : Token.Kind} :
    (optional kind p).Meets D F X ↔
      (p.peek.kind = kind → D () p.advance) ∧ (p.peek.kind ≠ kind → D () p) := by
  simp [optional]

@[simp]
theorem meets_attempt {m : Parse α} {D : Option α → Parser → Prop} :
    (attempt m p).Meets D F X ↔ (m p).Meets (fun a => D (some a)) (D none) X := by
  unfold attempt
  cases m p <;> exact Iff.rfl

@[simp]
theorem meets_logged {entry : Parser → Parser → α → Visit} {m : Parse α} :
    (logged entry m p).Meets D F X ↔
      (m { p with visits := [] }).Meets
        (fun a q => D a { q with visits := entry p q a :: p.visits })
        (fun q => F { q with visits := q.visits ++ p.visits }) X := by
  unfold logged
  cases m { p with visits := [] } <;> exact Iff.rfl

@[simp]
theorem meets_bounded {repetition : Nat → Parse α} :
    (bounded repetition p).Meets D F X ↔ (repetition (p.ahead.length + 1) p).Meets D F X := Iff.rfl

/-! ## Repetition -/

variable {step : α → Parse (Option α)} {item : Parse (Option α)}

@[simp]
theorem meets_iterate_zero {D : α → Parser → Prop} {a : α} :
    (iterate step 0 a p).Meets D F X ↔ X := Iff.rfl

/-- A repetition, by its first round. -/
theorem meets_iterate_succ {D : α → Parser → Prop} {bound : Nat} {a : α} :
    (iterate step (bound + 1) a p).Meets D F X ↔
      (step a p).Meets
        (fun next q => next.elim (D a q) fun b => (iterate step bound b q).Meets D F X) F X := by
  rw [iterate]
  cases step a p with
  | done next q => cases next <;> exact Iff.rfl
  | failed q => exact Iff.rfl
  | exhausted => exact Iff.rfl

@[simp]
theorem meets_many_zero {D : List α → Parser → Prop} :
    (many item 0 p).Meets D F X ↔ X := Iff.rfl

/-- Many items, by the first one. -/
theorem meets_many_succ {D : List α → Parser → Prop} {bound : Nat} :
    (many item (bound + 1) p).Meets D F X ↔
      (item p).Meets
        (fun next q => next.elim (D [] q) fun a =>
          (many item bound q).Meets (fun as => D (a :: as)) F X) F X := by
  rw [many_succ]
  cases item p with
  | done next q =>
      cases next with
      | none => exact Iff.rfl
      | some a => exact meets_map
  | failed q => exact Iff.rfl
  | exhausted => exact Iff.rfl

/-- **A repetition keeps its invariant**: what holds of the value and the state
at the start and after each round holds at the end. -/
theorem meets_iterate {I : α → Parser → Prop} {bound : Nat} {a : α}
    (hstep : ∀ a q, I a q → (step a q).Meets (fun next r => next.elim (D a r) (I · r)) F True)
    (h : I a p) : (iterate step bound a p).Meets D F True := by
  induction bound generalizing a p with
  | zero => trivial
  | succ bound ih =>
      have hround := hstep a p h
      rw [iterate]
      cases ho : step a p with
      | done next q =>
          rw [ho] at hround
          cases next with
          | none => exact hround
          | some b => exact ih hround
      | failed q => rwa [ho] at hround
      | exhausted => trivial

/-- A repetition each round of which takes a token is not cut short by a bound
above the number of tokens left. -/
theorem meets_iterate_of_lt {I : α → Parser → Prop} {bound : Nat} {a : α}
    (hstep : ∀ a q, I a q → (step a q).Meets
      (fun next r => next.elim (D a r) fun b => I b r ∧ r.ahead.length < q.ahead.length) F False)
    (h : I a p) (hbound : p.ahead.length < bound) : (iterate step bound a p).Meets D F False := by
  induction bound generalizing a p with
  | zero => exact absurd hbound (Nat.not_lt_zero _)
  | succ bound ih =>
      have hround := hstep a p h
      rw [iterate]
      cases ho : step a p with
      | done next q =>
          rw [ho] at hround
          cases next with
          | none => exact hround
          | some b =>
              have hlt : q.ahead.length < p.ahead.length := hround.2
              exact ih hround.1 (by omega)
      | failed q => rwa [ho] at hround
      | exhausted => rwa [ho] at hround

/-- **Many items keep their invariant**: what holds of no items at the start, and
goes on holding with each item put behind those read, holds of all of them. -/
theorem meets_many {I : List α → Parser → Prop} {D : List α → Parser → Prop} {bound : Nat}
    (hitem : ∀ as q, I as q →
      (item q).Meets (fun next r => next.elim (D as r) fun a => I (as ++ [a]) r) F True)
    (h : I [] p) : (many item bound p).Meets D F True := by
  -- `gather` keeps the items in reverse
  have key : ∀ (as : List α) (q : Parser), I as.reverse q →
      (gather item bound as q).Meets D F True := by
    clear h
    induction bound with
    | zero => exact fun _ _ _ => trivial
    | succ bound ih =>
        intro as q hq
        have hround := hitem _ q hq
        rw [gather]
        cases ho : item q with
        | done next r =>
            rw [ho] at hround
            cases next with
            | none => exact hround
            | some a =>
                rw [Outcome.meets_done, Option.elim_some] at hround
                exact ih (a :: as) r (by rwa [List.reverse_cons])
        | failed r => rwa [ho] at hround
        | exhausted => trivial
  exact key [] p h

/-- Items each of which takes a token are not cut short by a bound above the
number of tokens left. -/
theorem meets_many_of_lt {I : Parser → Prop} {bound : Nat}
    (hitem : ∀ q, I q → (item q).Meets
      (fun next r => I r ∧ (next.isSome → r.ahead.length < q.ahead.length)) I False)
    (h : I p) (hbound : p.ahead.length < bound) :
    (many item bound p).Meets (fun _ => I) I False := by
  have key : ∀ (as : List α) (q : Parser), I q → q.ahead.length < bound →
      (gather item bound as q).Meets (fun _ => I) I False := by
    clear h hbound
    induction bound with
    | zero => exact fun _ _ _ hlt => absurd hlt (Nat.not_lt_zero _)
    | succ bound ih =>
        intro as q hq hlt
        have hround := hitem q hq
        rw [gather]
        cases ho : item q with
        | done next r =>
            rw [ho] at hround
            cases next with
            | none => exact hround.1
            | some a =>
                have hless : r.ahead.length < q.ahead.length := hround.2 rfl
                exact ih (a :: as) r hround.1 (by omega)
        | failed r => rwa [ho] at hround
        | exhausted => rwa [ho] at hround
  exact key [] p h hbound

end Parse

end ExprLang
