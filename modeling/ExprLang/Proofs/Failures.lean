/-
# One error for each statement that fails

A statement that cannot be read records one error of its own, and one that can
records none; what is recorded inside it belongs to the statements there.  So the
errors of a source are as many as the statements that failed, wherever they stood,
and no two of these began at the same token.  Main statement:
`one_error_for_each_failure`.
-/
import ExprLang.Proofs.Course

namespace ExprLang

namespace Visit

/-! ## The statements that failed -/

/-- Whether a visit went through a statement that could not be read. -/
def failed : Visit → Bool
  | statement _ _ result _ _ => result.isNone
  | block _ _ _ => false

/-- The tokens left when a visit began. -/
def before : Visit → List Token
  | statement before _ _ _ _ => before
  | block before _ _ => before

/-- The statements of a log that could not be read, in source order. -/
def failures (log : List Visit) : List Visit :=
  (allOf log).filter failed

@[simp]
theorem failures_nil : failures [] = [] := rfl

theorem failures_cons (v : Visit) (log : List Visit) :
    failures (v :: log) = failures log ++ ((if v.failed then [v] else []) ++ failures v.inner) := by
  rw [failures, allOf, all_eq, List.filter_append, List.filter_cons]
  split <;> rfl

/-- What is promised of a visit to a statement: besides the errors of the statements
inside it there is one if it failed, and none if it did not. -/
def RecordsItsOwn : Visit → Prop
  | statement _ _ result errors inner => ∃ own, errors = recordedAll inner ++ own ∧
      own.length = if result.isNone then 1 else 0
  | block _ _ _ => True

end Visit

/-! ## What a course leaves in the log -/

open Visit (recordedAll failures)

section Course

variable {exact : Prop} {scope : Scope} {s r : List Token} {log : List Visit}

/-- **Every statement on the course** has its own error exactly if it failed. -/
theorem Course.recordsItsOwn (h : Course exact scope s log r) {v : Visit} (hv : v.Made log) :
    v.RecordsItsOwn := by
  induction h with
  | start => exact absurd hv Visit.not_made_nil
  | plain _ _ ih => exact ih hv
  | block _ _ _ _ _ ih ihinner =>
      rcases Visit.made_cons.mp hv with rfl | hv | hv
      · trivial
      · exact ihinner hv
      · exact ih hv
  | read _ _ _ _ _ _ ih ihinner =>
      rcases Visit.made_cons.mp hv with rfl | hv | hv
      · exact ⟨[], (List.append_nil _).symm, rfl⟩
      · exact ihinner hv
      · exact ih hv
  | skipped _ _ _ _ _ _ _ _ ih ihinner =>
      rcases Visit.made_cons.mp hv with rfl | hv | hv
      · exact ⟨_, rfl, rfl⟩
      · exact ihinner hv
      · exact ih hv
  | stray _ _ _ _ ih ihinner =>
      rcases Visit.made_cons.mp hv with rfl | hv | hv
      · exact ⟨_, rfl, rfl⟩
      · exact ihinner hv
      · exact ih hv

/-- There are as many errors as statements that failed. -/
theorem Course.length_recordedAll (h : Course exact scope s log r) :
    (recordedAll log).length = (failures log).length := by
  induction h with
  | start => rfl
  | plain _ _ ih => exact ih
  | block _ _ _ _ _ ih ihinner =>
      rw [Visit.failures_cons, List.length_append, ← ih]
      simp [Visit.recorded, Visit.failed, Visit.inner, ihinner]
  | read _ _ _ _ _ _ ih ihinner =>
      rw [Visit.failures_cons, List.length_append, ← ih]
      simp [Visit.recorded, Visit.failed, Visit.inner, ihinner]
  | skipped _ _ _ _ _ _ _ _ ih ihinner =>
      rw [Visit.failures_cons, List.length_append, ← ih]
      simp [Visit.recorded, Visit.failed, Visit.inner, ihinner, Nat.add_comm]
  | stray _ _ _ _ ih ihinner =>
      rw [Visit.failures_cons, List.length_append, ← ih]
      simp [Visit.recorded, Visit.failed, Visit.inner, ihinner, Nat.add_comm]

/-- Starts of statements that stand in their order among the tokens `s`, in front of
the tokens `r` that are left of them. -/
def Among (starts : List (Option Token)) (r s : List Token) : Prop :=
  (starts ++ r.map some).Sublist (s.map some)

theorem Among.append {starts inner : List (Option Token)} {u : List Token}
    (h : Among starts r s) (hinner : Among inner u r) : Among (starts ++ inner) u s := by
  rw [Among, List.append_assoc]
  exact ((List.append_sublist_append_left starts).mpr hinner).trans h

theorem Among.rest {starts : List (Option Token)} {u : List Token} (h : Among starts r s)
    (hu : u <:+ r) : Among starts u s := by
  have hnone : Among [] u r := hu.sublist.map some
  have hall := h.append hnone
  rwa [List.append_nil] at hall

theorem Among.cons {starts : List (Option Token)} (h : Among starts r s) (t : Token) :
    Among starts r (t :: s) :=
  List.Sublist.trans h (List.sublist_cons_self _ _)

theorem Among.cons_cons {starts : List (Option Token)} (h : Among starts r s) (t : Token) :
    Among (some t :: starts) r (t :: s) :=
  List.Sublist.cons_cons _ h

/-- The tokens at which the statements of a log failed. -/
def Visit.starts (log : List Visit) : List (Option Token) :=
  (failures log).map fun v => v.before.head?

theorem Visit.starts_cons (v : Visit) (log : List Visit) :
    starts (v :: log) =
      starts log ++ ((if v.failed then [v.before.head?] else []) ++ starts v.inner) := by
  rw [starts, failures_cons, List.map_append, List.map_append]
  split <;> rfl

/-- **No two statements fail at one token**: the tokens at which they do stand in a
row among those of the course, with what is left behind them.  Inside a statement its
own first token is none of them. -/
theorem Course.among_starts (h : Course exact scope s log r) :
    Among (Visit.starts log) r s ∧
      (scope = .statement → log = [] ∧ r = s ∨ Among (Visit.starts log) r s.tail) := by
  induction h with
  | start => exact ⟨List.Sublist.refl _, fun _ => .inl ⟨rfl, rfl⟩⟩
  | plain _ _ ih =>
      refine ⟨ih.1.rest (List.suffix_cons _ _), fun _ => .inr ?_⟩
      rcases ih.2 rfl with ⟨rfl, rfl⟩ | ih
      · exact List.Sublist.refl _
      · exact ih.rest (List.suffix_cons _ _)
  | @block s tail rest after log inner o _ _ _ hafter _ ih ihinner =>
      have hblock : Among (Visit.starts inner) after.tail tail := ihinner.1.rest hafter
      rw [Visit.starts_cons]
      refine ⟨ih.1.append (hblock.cons o), fun _ => .inr ?_⟩
      rcases ih.2 rfl with ⟨rfl, rfl⟩ | ih
      · exact hblock
      · exact ih.append (hblock.cons o)
  | read _ hscope _ _ _ hend ih ihinner =>
      rw [Visit.starts_cons]
      exact ⟨ih.1.append (ihinner.1.rest (suffix_of_ended hend)), fun h => absurd h hscope⟩
  | @skipped scope s ts rest _ u log inner t e hscope _ _ _ _ hleft hmoves _ ih ihinner =>
      rw [Visit.starts_cons]
      refine ⟨ih.1.append (Among.cons_cons ?_ t), fun h => absurd h hscope⟩
      -- what is left behind the piece is not the first token of the statement again
      rcases ihinner.2 rfl with ⟨rfl, rfl⟩ | ihinner
      · exact ((List.suffix_cons_iff.mp hleft).resolve_left hmoves).sublist.map some
      · exact Among.rest ihinner hleft
  | @stray s ts rest _ log inner t c e _ _ _ _ ih ihinner =>
      rw [Visit.starts_cons]
      refine ⟨ih.1.append (Among.cons_cons ?_ t), by simp⟩
      rcases ihinner.2 rfl with ⟨rfl, heq⟩ | ihinner
      · cases heq
        exact List.Sublist.refl _
      · exact Among.rest ihinner (List.suffix_cons c rest)

end Course

/-! ## The failures of a source -/

/-- **One error for each failure**: in the run of a source, which comes to its end,
each statement that fails, at whatever depth, records one error besides those of
the statements inside it, and each that is read records none.  So there are as many
errors as failures, none exactly when no statement failed, and no more than tokens. -/
theorem one_error_for_each_failure (source : String) :
    (∃ program q, Rule.program.run (.ofSource source) = .done program q) ∧
      (∀ v : Visit, v.Made (parse source).visits → v.RecordsItsOwn) ∧
      (parse source).errors.length = (failures (parse source).visits).length ∧
      ((parse source).errors = [] ↔
        ∀ v : Visit, v.Made (parse source).visits → v.failed = false) ∧
      (parse source).errors.length ≤ (Lexer.tokenize source).dropLast.length := by
  obtain ⟨hcourse, herrors⟩ := course_parse source
  have hlength := hcourse.length_recordedAll
  rw [← herrors] at hlength
  refine ⟨?_, fun v hv => hcourse.recordsItsOwn hv, hlength, ?_, ?_⟩
  · obtain ⟨program, q, hrun, -⟩ := exists_parse_eq source
    exact ⟨program, q, hrun⟩
  · rw [← List.length_eq_zero_iff, hlength, List.length_eq_zero_iff, failures,
      List.filter_eq_nil_iff]
    simp [Visit.mem_allOf_iff]
  · have hstarts := hcourse.among_starts.1.length_le
    rw [List.map_nil, List.append_nil, Visit.starts, List.length_map, List.length_map] at hstarts
    rwa [hlength]

end ExprLang
