/-
# The course of a run

What a run makes of its tokens, without the trees: a statement takes plain tokens
and whole blocks, and is then over or broken; a broken one is left at the end of
its piece.  `Course` says it of the tokens and of the log of visits, so that what
follows from it can be shown by induction, with no look at the rules.  Where positions
wrap around, blocks and broken statements may be left early, but each still takes
something.  The errors of a run are those that its visits record.  Main statement:
`course_parse`.
-/
import ExprLang.Proofs.SideBySide

namespace ExprLang

/-! ## The errors in a log -/

namespace Visit

mutual

/-- The errors that the statements of a visit recorded, in the order of discovery. -/
def recorded : Visit → List SyntaxError
  | statement _ _ _ errors _ => errors
  | block _ _ inner => recordedAll inner

/-- The errors that the statements of a log recorded, in the order of discovery. -/
def recordedAll : List Visit → List SyntaxError
  | [] => []
  | visit :: earlier => recordedAll earlier ++ recorded visit

end

@[simp]
theorem recordedAll_nil : recordedAll [] = [] := rfl

@[simp]
theorem recordedAll_cons (v : Visit) (log : List Visit) :
    recordedAll (v :: log) = recordedAll log ++ v.recorded := rfl

end Visit

open Visit (recordedAll)

/-! ## Courses -/

/-- The stretches of a source that a course runs through. -/
inductive Scope : Type where
  /-- Tokens of one statement. -/
  | statement
  /-- Statements of one block. -/
  | block
  /-- Statements outside of blocks. -/
  | program
  deriving DecidableEq, Repr

/-- The course from some tokens left to fewer of them, with the visits made on the
way, the latest first.  If `exact`, blocks are left on the braces that close them and
broken statements at the ends of their pieces. -/
inductive Course (exact : Prop) : Scope → List Token → List Visit → List Token → Prop where
  | start (scope : Scope) (s : List Token) : Course exact scope s [] s
  /-- A statement takes a plain token. -/
  | plain {s ts : List Token} {log : List Visit} {t : Token}
      (h : Course exact .statement s log (t :: ts)) (ht : t.kind.Plain) :
      Course exact .statement s log ts
  /-- A statement takes a block, up to the brace that closes it. -/
  | block {s tail rest after : List Token} {log inner : List Visit} {o : Token}
      (h : Course exact .statement s log (o :: tail)) (ho : o.kind = .openCurly)
      (hinner : Course exact .block tail inner rest) (hafter : after.tail <:+ rest)
      (hexact : exact → rest = after ∧ after = closing 0 tail) :
      Course exact .statement s (.block (o :: tail) after inner :: log) after.tail
  /-- A statement is read, with the semicolon behind it if there is one. -/
  | read {scope : Scope} {s ts rest after u : List Token} {log inner : List Visit} {t : Token}
      (result : Stmt) (hscope : scope ≠ .statement) (h : Course exact scope s log (t :: ts))
      (hclose : scope = .block → t.kind ≠ .closeCurly)
      (hinner : Course exact .statement (t :: ts) inner rest)
      (hend : rest = u ∨ ∃ semicolon : Token, semicolon.kind = .semicolon ∧ rest = semicolon :: u) :
      Course exact scope s
        (.statement (t :: ts) after (some result) (recordedAll inner) inner :: log) u
  /-- A statement breaks, and the rest of its piece is skipped. -/
  | skipped {scope : Scope} {s ts rest after u : List Token} {log inner : List Visit} {t : Token}
      {e : SyntaxError} (hscope : scope ≠ .statement) (h : Course exact scope s log (t :: ts))
      (hclose : exact → t.kind ≠ .closeCurly)
      (hinner : Course exact .statement (t :: ts) inner rest)
      (herror : ∀ u ∈ rest.head?, e.position = u.start) (hleft : u <:+ rest)
      (hmoves : u ≠ t :: ts) (hexact : exact → u = pieceEnd 0 rest) :
      Course exact scope s
        (.statement (t :: ts) after none (recordedAll inner ++ [e]) inner :: log) u
  /-- A statement outside of blocks breaks on a closing brace, which is dropped. -/
  | stray {s ts rest after : List Token} {log inner : List Visit} {t c : Token} {e : SyntaxError}
      (h : Course exact .program s log (t :: ts))
      (hinner : Course exact .statement (t :: ts) inner (c :: rest))
      (hc : c.kind = .closeCurly) (herror : e.position = c.start) :
      Course exact .program s
        (.statement (t :: ts) after none (recordedAll inner ++ [e]) inner :: log) rest

/-- Behind a statement that was read less is left than inside of it. -/
theorem suffix_of_ended {r u : List Token}
    (h : r = u ∨ ∃ semicolon : Token, semicolon.kind = .semicolon ∧ r = semicolon :: u) :
    u <:+ r := by
  rcases h with rfl | ⟨semicolon, -, rfl⟩
  · exact List.suffix_refl _
  · exact List.suffix_cons _ _

/-- A course only moves forward. -/
theorem Course.suffix {exact : Prop} {scope : Scope} {s r : List Token} {log : List Visit}
    (h : Course exact scope s log r) : r <:+ s := by
  induction h with
  | start => exact List.suffix_refl _
  | plain _ _ ih => exact (List.suffix_cons _ _).trans ih
  | block _ _ _ hafter _ ih ihinner =>
      exact hafter.trans (ihinner.trans ((List.suffix_cons _ _).trans ih))
  | read _ _ _ _ _ hend ih ihinner => exact (suffix_of_ended hend).trans (ihinner.trans ih)
  | skipped _ _ _ _ _ hleft _ _ ih ihinner => exact hleft.trans (ihinner.trans ih)
  | stray _ _ _ _ ih ihinner => exact (List.suffix_cons _ _).trans (ihinner.trans ih)

/-- An error is on one of the tokens `s`, no further on than where the tokens `r` begin. -/
def SyntaxError.Between (s r : List Token) (e : SyntaxError) : Prop :=
  ∃ t ts, t :: ts <:+ s ∧ r <:+ t :: ts ∧ e.position = t.start

theorem SyntaxError.Between.widen {s s' r r' : List Token} {e : SyntaxError} (h : e.Between s r)
    (hs : s <:+ s') (hr : r' <:+ r) : e.Between s' r' := by
  obtain ⟨t, ts, hts, hsuffix, hposition⟩ := h
  exact ⟨t, ts, hts.trans hs, hr.trans hsuffix, hposition⟩

/-- **Errors lie on the way** of a course. -/
theorem Course.between {exact : Prop} {scope : Scope} {s r : List Token} {log : List Visit}
    (h : Course exact scope s log r) (hr : r ≠ []) {e : SyntaxError} (he : e ∈ recordedAll log) :
    e.Between s r := by
  induction h with
  | start => cases he
  | plain _ _ ih => exact (ih (by simp) he).widen (List.suffix_refl _) (List.suffix_cons _ _)
  | block h _ hinner hafter _ ih ihinner =>
      rcases List.mem_append.mp he with he | he
      · exact (ih (by simp) he).widen (List.suffix_refl _)
          (hafter.trans (hinner.suffix.trans (List.suffix_cons _ _)))
      · exact (ihinner (fun h => hr (List.suffix_nil.mp (h ▸ hafter))) he).widen
          ((List.suffix_cons _ _).trans h.suffix) hafter
  | read _ _ h _ hinner hend ih ihinner =>
      have hu := suffix_of_ended hend
      rcases List.mem_append.mp he with he | he
      · exact (ih (by simp) he).widen (List.suffix_refl _) (hu.trans hinner.suffix)
      · exact (ihinner (fun h => hr (List.suffix_nil.mp (h ▸ hu))) he).widen h.suffix hu
  | @skipped _ _ _ rest _ _ _ _ _ _ _ h _ hinner herror hu _ _ ih ihinner =>
      obtain ⟨t, ts, rfl⟩ := List.exists_cons_of_ne_nil fun h : rest = [] =>
        hr (List.suffix_nil.mp (h ▸ hu))
      rcases List.mem_append.mp he with he | he
      · exact (ih (by simp) he).widen (List.suffix_refl _) (hu.trans hinner.suffix)
      · rcases List.mem_append.mp he with he | he
        · exact (ihinner (by simp) he).widen h.suffix hu
        · rw [List.mem_singleton.mp he]
          exact ⟨t, ts, hinner.suffix.trans h.suffix, hu, herror t rfl⟩
  | @stray _ _ rest _ _ _ _ c _ h hinner _ herror ih ihinner =>
      have hu := List.suffix_cons c rest
      rcases List.mem_append.mp he with he | he
      · exact (ih (by simp) he).widen (List.suffix_refl _) (hu.trans hinner.suffix)
      · rcases List.mem_append.mp he with he | he
        · exact (ihinner (by simp) he).widen h.suffix hu
        · rw [List.mem_singleton.mp he]
          exact ⟨c, rest, hinner.suffix.trans h.suffix, hu, herror⟩

/-! ## Statements as they run -/

/-- In the midst of a statement that began at the tokens `s` with the errors `base`:
what it took so far was a course, and the errors are those that it recorded. -/
structure Parser.Underway (exact : Prop) (s : List Token) (base : List SyntaxError)
    (r : List Token) (p : Parser) : Prop where
  ordered : p.OrderedIf exact
  course : Course exact .statement s p.visits r
  errors : p.errors = base ++ recordedAll p.visits

/-- A statement that broke: what it took was a course, and there is one more error,
on the first token that it did not take. -/
def Parser.BrokenOff (exact : Prop) (s : List Token) (base : List SyntaxError) (p : Parser) :
    Prop :=
  ∃ r e, p.BrokeBefore exact r ∧ p.ahead <:+ s ∧ Course exact .statement s p.visits r ∧
    p.errors = base ++ recordedAll p.visits ++ [e]

section Underway

variable {exact : Prop} {s r : List Token} {base : List SyntaxError} {p : Parser}

theorem Parser.Underway.report (h : p.Underway exact s base r) (cause : SyntaxError.Cause)
    {t : Token} (hbroke : (p.report ⟨cause, t.start⟩).BrokeBefore exact r) (hs : p.ahead <:+ s) :
    (p.report ⟨cause, t.start⟩).BrokenOff exact s base :=
  ⟨r, _, hbroke, hs, h.course, by rw [Parser.errors_report, h.errors]; rfl⟩

/-- The states of one statement, each beside itself.  The blocks in it speak for
themselves. -/
def Parallel.along (exact : Prop) (s : List Token) (base : List SyntaxError) : Parallel where
  alike := Eq
  free _ := True
  before p p' := p = p' ∧ p.Underway exact s base p.ahead
  behind p p' := p = p' ∧ p.Taken exact ∧ p.ahead <:+ s ∧ p.Underway exact s base p.ahead.tail
  ended p p' := p = p' ∧ ∃ r, p.Underway exact s base r ∧ (r = p.ahead.tail ∨
    ∃ semicolon : Token, semicolon.kind = .semicolon ∧ r = semicolon :: p.ahead.tail)
  broken p p' := p = p' ∧ p.BrokenOff exact s base
  kind h := .inl (congrArg Token.kind h)
  text h _ := congrArg Token.text h
  regular := by
    rintro p _ ⟨rfl, h⟩
    exact ⟨h.ordered.toRegular, h.ordered.toRegular⟩
  regular_behind := by
    rintro p _ ⟨rfl, -, -, h⟩
    exact ⟨h.ordered.toRegular, h.ordered.toRegular⟩
  current := by
    rintro p _ ⟨rfl, -⟩
    rfl
  take := by
    rintro p _ ⟨rfl, h⟩ hplain
    have hahead := h.ordered.ahead_eq_cons hplain.2.2.2
    refine ⟨rfl, ⟨h.ordered, hplain.1, hplain.2.2.1⟩, h.course.suffix, h.ordered, ?_, h.errors⟩
    exact .plain (by rw [← hahead]; exact h.course) hplain
  advance := by
    rintro p _ ⟨rfl, -, -, h⟩
    exact ⟨rfl, h.ordered.advance, h.course, h.errors⟩
  refuse := by
    rintro p _ cause ⟨rfl, h⟩
    exact ⟨rfl, h.report _ (.inl ⟨h.ordered.report _, rfl, p.brokeOn_report _ _⟩) h.course.suffix⟩
  refuse_next := by
    rintro p _ cause ⟨rfl, htaken, hs, h⟩
    exact ⟨rfl, h.report _ (.inr ⟨htaken.report _, rfl, p.brokeOn_report _ _⟩) hs⟩
  ended_of_behind := by
    rintro p _ ⟨rfl, -, -, h⟩
    exact ⟨rfl, p.ahead.tail, h, .inl rfl⟩
  ended_of_semicolon := by
    rintro p _ ⟨rfl, -, -, h⟩ hsemi
    have htail := h.ordered.tail_eq_cons (by rw [hsemi]; simp)
    exact ⟨rfl, p.ahead.tail, ⟨h.ordered.advance, h.course, h.errors⟩, .inr ⟨_, hsemi, htail⟩⟩

end Underway

/-! ## Statements and blocks -/

open Parse

/-- A state is behind a statement that began in another one.  A statement that was
read took its semicolon; one that broke is left at the end of its piece, on the
closing brace if it ran into one, and otherwise in front of it. -/
def Parser.Gone (exact : Prop) (p : Parser) : Option Stmt → Parser → Prop
  | some result, q => ∃ inner r, Course exact .statement p.ahead inner r ∧
      (r = q.ahead.tail ∨
        ∃ semicolon : Token, semicolon.kind = .semicolon ∧ r = semicolon :: q.ahead.tail) ∧
      q.visits = .statement p.ahead q.ahead (some result) (recordedAll inner) inner :: p.visits
  | none, q => ∃ inner r e, Course exact .statement p.ahead inner r ∧
      (∀ t ∈ r.head?, e.position = t.start) ∧ q.ahead <:+ p.ahead ∧
      (q.ranIntoClosingBrace = true → q.ahead = r ∨ (¬ exact ∧ q.ahead.tail <:+ r)) ∧
      (¬ q.ranIntoClosingBrace = true → q.ahead.tail = pieceEnd 0 r) ∧
      q.visits = .statement p.ahead q.ahead none (recordedAll inner ++ [e]) inner :: p.visits

/-- What was recorded between two states is in the log of the later one. -/
def Parser.Accounts (exact : Prop) (base : List SyntaxError) (p : Parser) : Prop :=
  p.OrderedIf exact ∧ p.errors = base ++ recordedAll p.visits

namespace Rule

variable {exact : Prop} {nested : Nested} {p : Parser} {base : List SyntaxError}

/-- **A statement accounts for its tokens and errors.** -/
theorem statement_gone (hn : ∀ s base, nested.Together (.along exact s base) nested)
    (hp : p.Accounts exact base) :
    (statement nested p).Meets (fun result q => p.Gone exact result q ∧ q.Accounts exact base)
      (fun _ => False) True := by
  obtain ⟨hordered, herrors⟩ := hp
  rw [statement, meets_logged, meets_bind, meets_get, meets_bind, meets_attempt]
  have hbegin : (Parallel.along exact p.ahead p.errors).before { p with visits := [] }
      { p with visits := [] } :=
    ⟨rfl, hordered.withVisits [], .start _ _, by rw [Visit.recordedAll_nil, List.append_nil]⟩
  have hform := (hn p.ahead p.errors).statementForm hbegin
  -- what is drawn from the state for the log is what the statement itself recorded
  have hdrop : ∀ errors, (p.errors ++ errors).drop p.errors.length = errors :=
    fun errors => List.drop_left
  refine (hform.imp (fun _ _ _ _ h => ⟨h.1, h.2⟩) fun _ _ h => h).meets_of_self.imp
    (fun result q hq => ?_) (fun q hq => ?_) id
  · obtain ⟨r, hr, hend⟩ := hq
    have hvisit : statementVisit p q (some result) =
        .statement p.ahead q.ahead (some result) (recordedAll q.visits) q.visits := by
      rw [statementVisit, hr.errors, hdrop]
    refine ⟨⟨q.visits, r, hr.course, hend, congrArg (· :: p.visits) hvisit⟩,
      hr.ordered.withVisits _, ?_⟩
    show q.errors = base ++ recordedAll (statementVisit p q (some result) :: p.visits)
    rw [hvisit, hr.errors, herrors, List.append_assoc]
    rfl
  · obtain ⟨r, e, hbroke, hs, hcourse, hrecorded⟩ := hq
    have hvisit : statementVisit p q.recover none =
        .statement p.ahead q.recover.ahead none (recordedAll q.visits ++ [e]) q.visits := by
      rw [statementVisit, q.errors_recover, q.visits_recover, hrecorded, List.append_assoc, hdrop]
    rw [meets_bind, meets_modify, meets_pure]
    refine ⟨⟨q.visits, r, e, hcourse, fun t ht => ?_, q.ahead_recover_suffix.trans hs,
      hbroke.recover.1, hbroke.recover.2, congrArg (· :: p.visits) hvisit⟩,
      hbroke.ordered.recover.withVisits _, ?_⟩
    · have hon := hbroke.brokeOn
      rw [Parser.BrokeOn, hrecorded, List.getLast?_concat, List.headD_eq_head?_getD,
        Option.mem_def.mp ht] at hon
      exact Option.some.inj hon
    · show q.recover.errors = base ++ recordedAll (statementVisit p q.recover none :: p.visits)
      rw [hvisit, q.errors_recover, hrecorded, herrors, List.append_assoc, List.append_assoc]
      rfl

/-- A closing brace starts no statement. -/
theorem statementForm_of_closeCurly (n : Nat) (hp : p.Regular) (h : p.current.kind = .closeCurly) :
    (statementForm p.statementForm (.level n) p).Meets (fun _ _ => False)
      (fun q => q.ranIntoClosingBrace = true) True := by
  have hform : p.statementForm = .expression := by
    rw [Parser.statementForm, hp.forms, h]
    rfl
  have hleading : p.leadingForm? = none := by
    rw [Parser.leadingForm?, hp.forms, h]
    rfl
  rw [hform, statementForm, expressionStatement, meets_bind, meets_current, meets_bind]
  cases n with
  | zero => trivial
  | succ n =>
      rw [Nested.expr_level_succ, expression, meets_bind, operand, meets_bind, meets_current,
        meets_bind, meets_get, hleading]
      exact Parser.ranIntoClosingBrace_iff.mpr ⟨h, p.brokeOn_report _ _⟩

/-- Where it stands, a statement runs into it. -/
theorem statement_of_closeCurly (n : Nat) (hp : p.Regular) (h : p.current.kind = .closeCurly) :
    (statement (.level n) p).Meets
      (fun result q => result = none ∧ q.ranIntoClosingBrace = true) (fun _ => False) True := by
  rw [statement, meets_logged, meets_bind, meets_get, meets_bind, meets_attempt]
  refine (statementForm_of_closeCurly n (hp.withVisits []) h).imp (fun _ _ h => h.elim)
    (fun q hq => ⟨rfl, ?_⟩) id
  show q.recover.ranIntoClosingBrace = true
  rwa [Parser.recover_of_ranInto hq]

/-- What is left behind the current token is less than what begins with a token that is
no further on. -/
theorem tail_ne_cons {t : Token} {r ts : List Token} (h : r <:+ t :: ts) : r.tail ≠ t :: ts := by
  intro heq
  have hle := h.length_le
  have hlen := congrArg List.length heq
  rw [List.length_tail, List.length_cons] at hlen
  rw [List.length_cons] at hle
  omega

/-- A statement of a block goes on with the course of the block, up to the brace on which
the block is left; where positions wrap around, that brace may be counted as well. -/
theorem blockItem_course {s : List Token}
    (hn : ∀ s base, nested.Together (.along exact s base) nested) (hp : p.Accounts exact base)
    (hcourse : Course exact .block s p.visits p.ahead) :
    (blockItem nested p).Meets
      (fun next q => q.Accounts exact base ∧
        next.elim (∃ rest, Course exact .block s q.visits rest ∧ q.ahead.tail <:+ rest ∧
            (exact → rest = q.ahead))
          fun _ => Course exact .block s q.visits q.ahead) (fun _ => False) True := by
  rw [blockItem, meets_bind, meets_current, meets_ite]
  refine ⟨fun _ => ⟨hp, p.ahead, hcourse, List.tail_suffix _, fun _ => rfl⟩, fun hends => ?_⟩
  rw [endsBlock, Bool.or_eq_true, not_or, decide_eq_true_eq, decide_eq_true_eq] at hends
  have hahead := hp.1.ahead_eq_cons hends.2
  rw [hahead] at hcourse
  refine meets_bind.mpr ((statement_gone hn hp).imp (fun result q hq => ?_) (fun _ h => h) id)
  obtain ⟨hgone, hq⟩ := hq
  cases result with
  | some result =>
      obtain ⟨inner, r, hinner, hend, hvisits⟩ := hgone
      rw [hahead] at hinner hvisits
      refine ⟨⟨hq.1.advance, hq.2⟩, ?_⟩
      show Course exact .block s q.visits q.ahead.tail
      rw [hvisits]
      exact .read result (by simp) hcourse (fun _ => hends.1) hinner hend
  | none =>
      obtain ⟨inner, r, e, hinner, herror, hsuffix, hinto, hnot, hvisits⟩ := hgone
      rw [hahead] at hinner hvisits hsuffix
      have hskipped : ∀ u, u <:+ r → u ≠ p.current :: p.ahead.tail → (exact → u = pieceEnd 0 r) →
          Course exact .block s q.visits u := by
        intro u hu hmoves hexact
        rw [hvisits]
        exact .skipped (by simp) hcourse (fun _ => hends.1) hinner herror hu hmoves hexact
      rw [meets_bind, meets_get, meets_ite]
      refine ⟨fun hran => ⟨hq, ?_⟩, fun hran => ⟨⟨hq.1.advance, hq.2⟩, ?_⟩⟩
      · have hkind := (Parser.ranIntoClosingBrace_iff.mp hran).1
        have hcons := hq.1.ahead_eq_cons (by rw [hkind]; simp)
        rcases hinto hran with rfl | ⟨hexact, hr⟩
        · refine ⟨q.ahead, hskipped _ (List.suffix_refl _) (fun heq => ?_) (fun _ => ?_),
            List.tail_suffix _, fun _ => rfl⟩
          · rw [hcons, List.cons.injEq] at heq
            exact hends.1 (heq.1 ▸ hkind)
          · rw [hcons, pieceEnd_of_closeCurly hkind]
        · exact ⟨q.ahead.tail, hskipped _ hr (tail_ne_cons hsuffix) fun he => absurd he hexact,
            List.suffix_refl _, fun he => absurd he hexact⟩
      · exact hskipped q.ahead.tail (hnot hran ▸ pieceEnd_suffix 0 r) (tail_ne_cons hsuffix)
          fun _ => hnot hran

/-- **A block accounts for its tokens and errors.** -/
theorem block_course (hn : ∀ s base, nested.Together (.along exact s base) nested)
    (hbraces : nested.KeepsBraces exact) (hp : p.OrderedIf exact) :
    (block nested p).Meets
      (fun b q => (q.OrderedIf exact ∧ BlockEnd exact p.ahead.tail q.ahead) ∧
        (∃ ss, b = .mk p.current ss) ∧
        ∃ inner rest, Course exact .block p.ahead.tail inner rest ∧ q.ahead.tail <:+ rest ∧
          (exact → rest = q.ahead) ∧ q.visits = .block p.ahead q.ahead inner :: p.visits ∧
            q.errors = p.errors ++ recordedAll inner) (fun _ => False) True := by
  have hends := block_braces hbraces hp
  rw [block, meets_logged, meets_bind, meets_current, meets_bind, meets_advance, meets_bind,
    meets_bounded] at hends ⊢
  have hbegin : Parser.Accounts exact p.errors (Parser.advance { p with visits := [] }) :=
    ⟨(hp.withVisits []).advance, (List.append_nil _).symm⟩
  refine ((meets_many
    (I := fun _ q => q.Accounts exact p.errors ∧ Course exact .block p.ahead.tail q.visits q.ahead)
    (D := fun _ q => q.Accounts exact p.errors ∧
      ∃ rest, Course exact .block p.ahead.tail q.visits rest ∧ q.ahead.tail <:+ rest ∧
        (exact → rest = q.ahead))
    (fun _ q hq => (blockItem_course hn hq.1 hq.2).imp (fun next r hr => by cases next <;> exact hr)
      (fun _ h => h) id) ⟨hbegin, .start .block _⟩).and hends).imp
    (fun items q hq => ?_) (fun _ h => h.1) fun _ => trivial
  obtain ⟨⟨hq, rest, hcourse, hrest, hexact⟩, hend⟩ := hq
  exact ⟨⟨hq.1.withVisits _, hend.2⟩, ⟨_, rfl⟩, q.visits, rest, hcourse, hrest, hexact, rfl, hq.2⟩

/-- A statement outside of blocks goes on with the course of the program. -/
theorem programItem_course {s : List Token} {n : Nat}
    (hn : ∀ s base, (Nested.level n).Together (.along exact s base) (.level n))
    (hp : p.Accounts exact base) (hcourse : Course exact .program s p.visits p.ahead) :
    (programItem (.level n) p).Meets
      (fun next q => (q.Accounts exact base ∧ Course exact .program s q.visits q.ahead) ∧
        (next = none → q.ahead = [])) (fun _ => False) True := by
  rw [programItem, meets_bind, meets_current, meets_ite]
  refine ⟨fun heof => ⟨⟨hp, hcourse⟩, fun _ => hp.1.ahead_eq_nil_iff.mpr heof⟩, fun heof => ?_⟩
  have hahead := hp.1.ahead_eq_cons heof
  rw [hahead] at hcourse
  have hbrace : (statement (.level n) p).Meets
      (fun _ q => p.current.kind = .closeCurly → q.ranIntoClosingBrace = true) (fun _ => False)
      True := by
    by_cases hclose : p.current.kind = .closeCurly
    · exact (statement_of_closeCurly n hp.1.toRegular hclose).imp (fun _ _ h _ => h.2)
        (fun _ h => h) id
    · exact (statement_gone hn hp).imp (fun _ _ _ h => absurd h hclose) (fun _ h => h) id
  refine meets_bind.mpr (((statement_gone hn hp).and hbrace).imp (fun result q hq => ?_)
    (fun _ h => h.1) fun _ => trivial)
  obtain ⟨⟨hgone, hq⟩, hran⟩ := hq
  refine ⟨⟨⟨hq.1.advance, hq.2⟩, ?_⟩, by simp⟩
  show Course exact .program s q.visits q.ahead.tail
  cases result with
  | some result =>
      obtain ⟨inner, r, hinner, hend, hvisits⟩ := hgone
      rw [hahead] at hinner hvisits
      rw [hvisits]
      exact .read result (by simp) hcourse (by simp) hinner hend
  | none =>
      obtain ⟨inner, r, e, hinner, herror, hsuffix, hinto, hnot, hvisits⟩ := hgone
      rw [hahead] at hinner hvisits hsuffix
      rw [hvisits]
      by_cases hagain : q.ranIntoClosingBrace = true
      · have hkind := (Parser.ranIntoClosingBrace_iff.mp hagain).1
        rcases hinto hagain with rfl | ⟨hexact, hr⟩
        · have hcons := hq.1.ahead_eq_cons (by rw [hkind]; simp)
          rw [hcons] at hinner herror
          exact .stray hcourse hinner hkind (herror _ rfl)
        · exact .skipped (by simp) hcourse (fun he => absurd he hexact) hinner herror hr
            (tail_ne_cons hsuffix) fun he => absurd he hexact
      · exact .skipped (by simp) hcourse (fun _ h => hagain (hran h)) hinner herror
          (hnot hagain ▸ pieceEnd_suffix 0 r) (tail_ne_cons hsuffix) fun _ => hnot hagain

theorem program_course {n : Nat}
    (hn : ∀ s base, (Nested.level n).Together (.along exact s base) (.level n))
    (hp : p.Accounts exact base) (hvisits : p.visits = []) :
    (program (.level n) p).Meets
      (fun _ q => q.Accounts exact base ∧ Course exact .program p.ahead q.visits [])
      (fun _ => False) True := by
  rw [program, meets_bind, meets_bounded]
  refine (meets_many
    (I := fun _ q => q.Accounts exact base ∧ Course exact .program p.ahead q.visits q.ahead)
    (D := fun _ q => q.Accounts exact base ∧ Course exact .program p.ahead q.visits [])
    (fun _ q hq => (programItem_course hn hq.1 hq.2).imp (fun next r hr => ?_) (fun _ h => h) id)
    ⟨hp, hvisits ▸ .start _ _⟩).imp (fun _ _ hq => hq) (fun _ h => h) id
  cases next with
  | none => exact ⟨hr.1.1, hr.2 rfl ▸ hr.1.2⟩
  | some _ => exact hr.1

end Rule

/-- **Statements account for themselves** at every depth of nesting. -/
theorem Nested.along_level (exact : Prop) (n : Nat) (s : List Token) (base : List SyntaxError) :
    (level n).Together (.along exact s base) (level n) := by
  induction n generalizing s base with
  | zero => exact ⟨fun _ _ _ _ => .cut _, fun _ _ => .cut _⟩
  | succ n ih =>
      refine ⟨(ih s base).expression, ?_⟩
      rintro p _ ⟨rfl, hp⟩ hopening
      have hahead := hp.ordered.ahead_eq_cons (by rw [hopening]; simp)
      have hblock := (Rule.block_course ih (keepsBraces_level exact n) hp.ordered).and
        ((reaches_level (n + 1) p).block p (.refl p) hopening)
      rw [block_level_succ]
      cases hrun : Rule.block (level n) p with
      | done b q =>
          rw [hrun] at hblock
          obtain ⟨⟨⟨hordered, hend⟩, ⟨ss, rfl⟩, inner, rest, hinner, hrest, hexact, hvisits,
            herrors⟩, hreaches⟩ := hblock
          refine .done ⟨.exempt ss ss rfl trivial, rfl, Parser.taken_of_brace hordered hend.brace,
            hreaches.ahead.trans hp.course.suffix, hordered, ?_, ?_⟩
          · have hcourse := hp.course
            rw [hahead] at hcourse
            rw [hvisits]
            nth_rewrite 1 [hahead]
            exact .block hcourse hopening hinner hrest
              fun he => ⟨hexact he, hend.eq_closing he⟩
          · rw [herrors, hp.errors, hvisits, List.append_assoc]
            rfl
      | failed q =>
          rw [hrun] at hblock
          exact hblock.1.elim
      | exhausted => exact .cut _

/-- **The run of a source is a course** through all its tokens, exact if the source is
shorter than 4 GiB, and its errors are those that its visits recorded. -/
theorem course_parse (source : String) :
    Course (source.utf8ByteSize < UInt32.size) .program (Lexer.tokenize source).dropLast
        (parse source).visits [] ∧
      (parse source).errors = recordedAll (parse source).visits := by
  obtain ⟨program, q, hrun, hparse⟩ := exists_parse_eq source
  rw [← Parser.ahead_ofSource_eq_dropLast]
  have hbegin : (Parser.ofSource source).Accounts (source.utf8ByteSize < UInt32.size) [] :=
    ⟨Parser.orderedIf_ofSource source, rfl⟩
  rw [Rule.run] at hrun
  have hcourse := Rule.program_course
    (Nested.along_level _ ((Parser.ofSource source).ahead.length + 2)) hbegin rfl
  rw [hrun] at hcourse
  rw [hparse]
  exact ⟨hcourse.2, hcourse.1.2⟩

end ExprLang
