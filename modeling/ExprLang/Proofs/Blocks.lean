/-
# Blocks end on their own brace

Whatever goes wrong inside a block, it is left on the brace that matches the one
it began with.  What is kept on the way are the places at which the braces around
are closed (`ClosedAlike`), and a failure leaves its error on the current token or on
the next one (`Parser.Broken`), so that recovery can tell a brace on which a statement
broke from one inside the statement.  It tells them apart by their positions: where
these wrap around, a block may end early, though never late (`Rule.block_braces`).
Main statements: `blocks_end_on_matching_brace` and, from 4 GiB on,
`blocks_end_on_matching_brace_apart`.
-/
import ExprLang.Proofs.Braces
import ExprLang.Proofs.Visits
import ExprLang.Proofs.Wrapping

namespace ExprLang

variable {α β : Type}

/-! ## The braces around a statement -/

namespace Parser

variable {p q : Parser} {exact : Prop} {s : List Token}

/-- The braces that were open around the tokens `s` are closed where they were, with the
current token still to be taken. -/
structure Before (exact : Prop) (s : List Token) (p : Parser) : Prop where
  ordered : p.OrderedIf exact
  closed : ClosedAlike exact s p.ahead

/-- They are closed where they were, with the current token taken, which opens no
block. -/
structure Behind (exact : Prop) (s : List Token) (p : Parser) : Prop where
  ordered : p.OrderedIf exact
  closed : ClosedAlike exact s p.ahead.tail
  current : p.current.kind ≠ .openCurly

/-- The last error was found on a token. -/
def BrokeOn (p : Parser) (t : Token) : Prop :=
  p.errors.getLast?.map SyntaxError.position = some t.start

/-- A failure: the error is on the current token, which is still to be taken, or
on the one behind it. -/
def Broken (exact : Prop) (s : List Token) (p : Parser) : Prop :=
  (p.Before exact s ∧ p.BrokeOn p.current) ∨ (p.Behind exact s ∧ p.BrokeOn p.peek)

theorem brokeOn_report (p : Parser) (cause : SyntaxError.Cause) (t : Token) :
    (p.report ⟨cause, t.start⟩).BrokeOn t := by
  rw [BrokeOn, errors_report, List.getLast?_concat]
  rfl

theorem Before.report (h : p.Before exact s) (error : SyntaxError) :
    (p.report error).Before exact s :=
  ⟨h.ordered.of_reaches (p.reaches_report error), h.closed⟩

theorem Behind.report (h : p.Behind exact s) (error : SyntaxError) :
    (p.report error).Behind exact s :=
  ⟨h.ordered.of_reaches (p.reaches_report error), h.closed, h.current⟩

theorem Before.broken_report (h : p.Before exact s) (cause : SyntaxError.Cause) :
    (p.report ⟨cause, p.current.start⟩).Broken exact s :=
  .inl ⟨h.report _, p.brokeOn_report cause p.current⟩

theorem Behind.broken_report (h : p.Behind exact s) (cause : SyntaxError.Cause) :
    (p.report ⟨cause, p.peek.start⟩).Broken exact s :=
  .inr ⟨h.report _, p.brokeOn_report cause p.peek⟩

/-- A token that is no brace is taken without further ado. -/
theorem Before.behind (h : p.Before exact s) (hopen : p.current.kind ≠ .openCurly)
    (hclose : p.current.kind ≠ .closeCurly) : p.Behind exact s := by
  refine ⟨h.ordered, ?_, hopen⟩
  have hclosed := h.closed
  cases hts : p.ahead with
  | nil => rwa [hts] at hclosed
  | cons t ts =>
      rw [current_of_ahead_eq hts] at hopen hclose
      rw [hts] at hclosed
      exact hclosed.take hopen hclose

theorem Behind.advance (h : p.Behind exact s) : p.advance.Before exact s :=
  ⟨h.ordered.advance, h.closed⟩

/-- So is a next token that is no brace. -/
theorem Behind.next (h : p.Behind exact s) (hopen : p.peek.kind ≠ .openCurly)
    (hclose : p.peek.kind ≠ .closeCurly) : p.advance.Behind exact s :=
  h.advance.behind hopen hclose

/-! ## Recovery -/

/-- The tokens behind the current one start behind its start. -/
theorem OrderedIf.current_lt (hp : p.OrderedIf exact) (he : exact) {t : Token}
    (ht : t ∈ p.ahead.tail) : p.current.start < t.start := by
  cases hts : p.ahead with
  | nil =>
      rw [hts] at ht
      cases ht
  | cons u us =>
      have hpairs := hp.ascending he
      rw [remaining, hts, List.cons_append, List.pairwise_cons] at hpairs
      rw [hts, List.tail_cons] at ht
      rw [current_of_ahead_eq hts]
      exact hpairs.1 t (List.mem_append_left _ ht)

/-- So does the next token, end marker included, when a token is current. -/
theorem OrderedIf.current_lt_peek (hp : p.OrderedIf exact) (he : exact) (h : p.ahead ≠ []) :
    p.current.start < p.peek.start := by
  obtain ⟨u, us, hts⟩ := List.exists_cons_of_ne_nil h
  have hpairs := hp.ascending he
  rw [remaining, hts, List.cons_append, List.pairwise_cons] at hpairs
  rw [current_of_ahead_eq hts]
  apply hpairs.1 _
  rw [peek, hts, List.tail_cons]
  cases us <;> simp

/-- A statement ran into a closing brace when its error is there. -/
theorem ranIntoClosingBrace_iff :
    p.ranIntoClosingBrace = true ↔ p.current.kind = .closeCurly ∧ p.BrokeOn p.current := by
  unfold ranIntoClosingBrace BrokeOn
  cases p.errors.getLast? <;> simp

theorem start_eq_of_brokeOn {t u : Token} (ht : p.BrokeOn t) (hu : p.BrokeOn u) :
    t.start = u.start :=
  Option.some.inj (ht.symm.trans hu)

/-- A statement that ran into a closing brace has no error on the token behind it,
where positions tell the two apart. -/
theorem OrderedIf.not_brokeOn_peek (hp : p.OrderedIf exact) (he : exact)
    (h : p.ranIntoClosingBrace = true) : ¬ p.BrokeOn p.peek := by
  intro hpeek
  obtain ⟨hkind, hon⟩ := ranIntoClosingBrace_iff.mp h
  have hahead := hp.ahead_eq_cons (by rw [hkind]; simp)
  have hlt := hp.current_lt_peek he (by rw [hahead]; simp)
  rw [start_eq_of_brokeOn hon hpeek] at hlt
  exact UInt32.lt_irrefl _ hlt

theorem recover_of_ranInto (h : p.ranIntoClosingBrace = true) : p.recover = p := by
  rw [recover, if_pos h]

theorem recover_of_not_ranInto (h : ¬ p.ranIntoClosingBrace = true) :
    p.recover = { p with ahead := skipStatement 0 p.ahead } := by
  rw [recover, if_neg h]

/-- What is first of the tokens left is the current token. -/
theorem forall_mem_head?_of_current {k : Token.Kind} (h : p.current.kind ≠ k) :
    ∀ t ∈ p.ahead.head?, t.kind ≠ k := by
  intro t ht
  obtain ⟨ts, hts⟩ := List.head?_eq_some_iff.mp ht
  rwa [current_of_ahead_eq hts] at h

theorem Broken.ordered (h : p.Broken exact s) : p.OrderedIf exact :=
  h.elim (·.1.ordered) (·.1.ordered)

/-- Recovery does not stop on a closing brace where the error is, unless the
statement ran into it. -/
theorem Broken.not_ranInto_recover (h : p.Broken exact s) (he : exact)
    (hran : ¬ p.ranIntoClosingBrace = true) : ¬ p.recover.ranIntoClosingBrace = true := by
  intro hagain
  have hp := h.ordered
  have hordered := hp.of_reaches p.reaches_recover
  obtain ⟨hkind, hon⟩ := ranIntoClosingBrace_iff.mp hagain
  have hahead := hordered.ahead_eq_cons (by rw [hkind]; simp)
  have hon' : p.BrokeOn p.recover.current := by rwa [BrokeOn, errors_recover] at hon
  have hskip : p.recover.ahead = skipStatement 0 p.ahead := by rw [recover_of_not_ranInto hran]
  rw [hskip] at hahead
  cases hts : p.ahead with
  | nil =>
      rw [hts] at hahead
      cases hahead
  | cons t ts =>
      have hcurrent := current_of_ahead_eq hts
      have htail : p.ahead.tail = ts := by rw [hts]; rfl
      have hpeek := hp.current_lt_peek he (by rw [hts]; simp)
      rw [hts] at hahead
      -- skipping stays where it began, or stops further on; the error, which has to be
      -- on the brace, is elsewhere each time
      rcases mem_of_skipStatement_eq_cons hahead hkind with heq | ⟨hmem, hfar⟩
      · rw [heq, ← hcurrent] at hon' hkind
        rcases h with ⟨-, hcur⟩ | ⟨-, hpk⟩
        · exact hran (ranIntoClosingBrace_iff.mpr ⟨hkind, hcur⟩)
        · rw [start_eq_of_brokeOn hon' hpk] at hpeek
          exact absurd hpeek (UInt32.lt_irrefl _)
      · rcases h with ⟨-, hcur⟩ | ⟨hbehind, hpk⟩
        · have hlt := hp.current_lt he (by rwa [htail])
          rw [start_eq_of_brokeOn hcur hon'] at hlt
          exact absurd hlt (UInt32.lt_irrefl _)
        · have hopen : t.kind ≠ .openCurly := by
            rw [← hcurrent]
            exact hbehind.current
          have hlt := hp.advance.current_lt he (by rw [ahead_advance, htail]; exact hfar hopen)
          rw [current_advance, start_eq_of_brokeOn hpk hon'] at hlt
          exact absurd hlt (UInt32.lt_irrefl _)

/-- Where the last error is not on the current token, a closing brace, the rest of the
statement is skipped, and behind it the braces around are closed where they were. -/
theorem Broken.closedAlike_recover (h : p.Broken exact s) (hran : ¬ p.ranIntoClosingBrace = true) :
    ClosedAlike exact s p.recover.ahead.tail := by
  rw [recover_of_not_ranInto hran]
  rcases h with ⟨hbefore, hcur⟩ | ⟨hbehind, -⟩
  · -- what is skipped starts with the token on which the statement broke, no closing brace
    refine hbefore.closed.skip (forall_mem_head?_of_current fun hkind => ?_)
    exact hran (ranIntoClosingBrace_iff.mpr ⟨hkind, hcur⟩)
  · exact hbehind.closed.skip_taken (forall_mem_head?_of_current hbehind.current)

/-- **Recovery**: a failure that ran into a closing brace has the brace current
that closes what is around; any other is skipped up to a token behind which that
brace is still the one that closes. -/
theorem Broken.recover (h : p.Broken exact s) :
    (p.recover.ranIntoClosingBrace = true → BlockEnd exact s p.recover.ahead) ∧
      (¬ p.recover.ranIntoClosingBrace = true → ClosedAlike exact s p.recover.ahead.tail) := by
  have hp := h.ordered.of_reaches p.reaches_recover
  constructor
  · intro hagain
    have hkind := (ranIntoClosingBrace_iff.mp hagain).1
    have hahead := hp.ahead_eq_cons (by rw [hkind]; simp)
    refine ⟨fun t ht => ?_, ?_⟩
    · rw [hahead] at ht
      cases ht
      exact hkind
    · by_cases hran : p.ranIntoClosingBrace = true
      · rw [recover_of_ranInto hran] at hahead hkind ⊢
        rcases h with ⟨hbefore, -⟩ | ⟨hbehind, hpeek⟩
        · exact hbefore.closed
        · rw [hahead]
          exact hbehind.closed.of_tail (fun he => hbehind.ordered.not_brokeOn_peek he hran hpeek)
            hkind
      · rw [hahead]
        exact (h.closedAlike_recover hran).of_tail (fun he => h.not_ranInto_recover he hran hagain)
          hkind
  · intro hagain
    refine h.closedAlike_recover fun hran => hagain ?_
    rwa [recover_of_ranInto hran]

end Parser

/-! ## Expressions -/

/-- Nested expressions keep the place of the closing brace, and nested blocks end
on theirs. -/
structure Nested.KeepsBraces (exact : Prop) (nested : Nested) : Prop where
  expr : ∀ {floor : Precedence} {s : List Token} {p : Parser}, p.Before exact s →
    (nested.expr floor p).Meets (fun _ q => q.Behind exact s) (Parser.Broken exact s) True
  block : ∀ {p : Parser}, p.OrderedIf exact → p.current.kind = .openCurly →
    (nested.block p).Meets (fun _ q => q.OrderedIf exact ∧ BlockEnd exact p.ahead.tail q.ahead)
      (fun _ => False) True

open Parse
open ExprLang.Parser (Behind Broken)

variable {nested : Nested} {exact : Prop} {s : List Token} {p : Parser}

/-- An expected token that is no brace is taken. -/
theorem Parse.keeps_expect_of_ne {kind : Token.Kind} (hopen : kind ≠ .openCurly)
    (hclose : kind ≠ .closeCurly) : Keeps (Behind exact s) (Broken exact s) (expect kind) := by
  intro p hp
  rw [meets_expect]
  refine ⟨fun h => hp.next ?_ ?_, fun _ => hp.broken_report _⟩
  · rwa [h]
  · rwa [h]

/-- An expression behind the current token is taken. -/
theorem Parse.keeps_advance_expr (hn : nested.KeepsBraces exact) {floor : Precedence}
    {f : Expr → Parse α} (hf : ∀ e, Keeps (Behind exact s) (Broken exact s) (f e)) :
    Keeps (Behind exact s) (Broken exact s) (advance >>= fun _ => nested.expr floor >>= f) := by
  intro p hp
  rw [meets_bind, meets_advance, meets_bind]
  exact (hn.expr hp.advance).imp (fun e q hq => hf e q hq) (fun _ h => h) id

/-- A part of a rule that depends on the next token, which it takes if it is of a
kind that is no brace. -/
theorem Parse.keeps_peek_ite {kind : Token.Kind} (hopen : kind ≠ .openCurly)
    (hclose : kind ≠ .closeCurly) {m m' : Parse α} (hm : Keeps (Behind exact s) (Broken exact s) m)
    (hm' : Keeps (Behind exact s) (Broken exact s) m') :
    Keeps (Behind exact s) (Broken exact s)
      (peek >>= fun t => if t.kind = kind then advance >>= fun _ => m else m') := by
  intro p hp
  rw [meets_bind, meets_peek, meets_ite]
  refine ⟨fun h => ?_, fun _ => hm' p hp⟩
  rw [meets_bind, meets_advance]
  refine hm p.advance (hp.next ?_ ?_)
  · rwa [h]
  · rwa [h]

namespace Rule

/-- A braced block ends on its brace, and takes it. -/
theorem bracedBlock_braces (hn : nested.KeepsBraces exact) :
    Keeps (Behind exact s) (Broken exact s) (bracedBlock nested) := by
  intro p hp
  rw [bracedBlock, meets_bind, meets_expect]
  refine ⟨fun hopening => ?_, fun _ => hp.broken_report _⟩
  refine (hn.block hp.advance.ordered hopening).imp (fun b q hq => ?_) (fun _ h => h.elim) id
  obtain ⟨hordered, hend⟩ := hq
  have htail := hp.ordered.tail_eq_cons (by rw [hopening]; simp)
  have hclosed := hp.closed
  rw [htail] at hclosed
  refine ⟨hordered, hend.behind hclosed hopening, fun hcurrent => ?_⟩
  have hahead := hordered.ahead_eq_cons (by rw [hcurrent]; simp)
  have hbrace := hend.brace q.current (by rw [hahead]; rfl)
  rw [hcurrent] at hbrace
  cases hbrace

theorem alternative_braces (hn : nested.KeepsBraces exact) :
    Keeps (Behind exact s) (Broken exact s) (alternative nested) :=
  keeps_peek_ite (by simp) (by simp) ((bracedBlock_braces hn).map _) (keeps_pure _)

theorem conditional_braces (hn : nested.KeepsBraces exact) :
    Keeps (Behind exact s) (Broken exact s) (conditional nested) :=
  (keeps_get _).bind fun _ => (keeps_expect_of_ne (by simp) (by simp)).bind fun _ =>
    keeps_advance_expr hn fun _ => (keeps_expect_of_ne (by simp) (by simp)).bind fun _ =>
      (bracedBlock_braces hn).bind fun _ => (alternative_braces hn).bind fun _ => keeps_pure _

theorem parameter_braces : Keeps (Behind exact s) (Broken exact s) parameter :=
  (keeps_expect_of_ne (by simp) (by simp)).bind fun _ => keeps_pure _

theorem parameters_braces : Keeps (Behind exact s) (Broken exact s) parameters :=
  keeps_peek_ite (by simp) (by simp) (keeps_pure _) (parameter_braces.bind fun _ =>
    (Keeps.bounded (keeps_many
      (keeps_peek_ite (by simp) (by simp) (parameter_braces.map _) (keeps_pure _)))).bind fun _ =>
        (keeps_expect_of_ne (by simp) (by simp)).bind fun _ => keeps_pure _)

theorem function_braces (hn : nested.KeepsBraces exact) :
    Keeps (Behind exact s) (Broken exact s) (function nested) :=
  (keeps_get _).bind fun _ => (keeps_expect_of_ne (by simp) (by simp)).bind fun _ =>
    parameters_braces.bind fun _ => (bracedBlock_braces hn).bind fun _ => keeps_pure _

theorem furtherArgument_braces (hn : nested.KeepsBraces exact) :
    Keeps (Behind exact s) (Broken exact s) (furtherArgument nested) := by
  have hexpr : Keeps (Behind exact s) (Broken exact s)
      (advance >>= fun _ => nested.expr .lowest >>= fun e => pure (some e)) :=
    keeps_advance_expr hn fun _ => keeps_pure _
  exact keeps_peek_ite (by simp) (by simp) hexpr (keeps_pure _)

theorem arguments_braces (hn : nested.KeepsBraces exact) :
    Keeps (Behind exact s) (Broken exact s) (arguments nested) :=
  keeps_peek_ite (by simp) (by simp) (keeps_pure _) (keeps_advance_expr hn fun _ =>
    (Keeps.bounded (keeps_many (furtherArgument_braces hn))).bind fun _ =>
      (keeps_expect_of_ne (by simp) (by simp)).bind fun _ => keeps_pure _)

/-- No leading form starts with a brace. -/
theorem ne_curly_of_mem_kinds {form : LeadingForm} {k : Token.Kind} (h : k ∈ form.kinds) :
    k ≠ .openCurly ∧ k ≠ .closeCurly := by
  rw [← Forms.leading_eq_some_iff] at h
  constructor
  · rintro rfl
    cases h
  · rintro rfl
    cases h

theorem leading_braces (hn : nested.KeepsBraces exact) {form : LeadingForm} (hp : p.Before exact s)
    (hform : p.current.kind ∈ form.kinds) :
    (leading form nested p).Meets (fun _ q => q.Behind exact s) (Broken exact s) True := by
  obtain ⟨hopen, hclose⟩ := ne_curly_of_mem_kinds hform
  have hbehind := hp.behind hopen hclose
  cases form with
  | identifier => exact hbehind
  | integer =>
      rw [leading, integer, meets_bind, meets_current]
      cases Text.integer? p.current.text with
      | none => exact hp.broken_report _
      | some value => exact hbehind
  | boolean => exact hbehind
  | unary =>
      exact ((keeps_get _).bind fun _ => keeps_advance_expr hn fun _ => keeps_pure _) p hbehind
  | grouping =>
      exact (keeps_advance_expr hn fun _ => (keeps_expect_of_ne (by simp) (by simp)).bind fun _ =>
        keeps_pure _) p hbehind
  | conditional => exact conditional_braces hn p hbehind
  | function => exact function_braces hn p hbehind

theorem operand_braces (hn : nested.KeepsBraces exact) (hp : p.Before exact s) :
    (operand nested p).Meets (fun _ q => q.Behind exact s) (Broken exact s) True := by
  rw [operand, meets_bind, meets_current, meets_bind, meets_get]
  cases h : p.leadingForm? with
  | none => exact hp.broken_report _
  | some form =>
      rw [Parser.leadingForm?, hp.ordered.forms, Forms.leading_eq_some_iff] at h
      exact leading_braces hn hp h

theorem trailing_braces (hn : nested.KeepsBraces exact) (form : TrailingForm) (left : Expr) :
    Keeps (Behind exact s) (Broken exact s) (trailing form left nested) := by
  cases form with
  | binary =>
      exact (keeps_get _).bind fun token => keeps_advance_expr hn fun _ => keeps_pure _
  | call => exact (keeps_get _).bind fun _ => (arguments_braces hn).bind fun _ => keeps_pure _

theorem continue?_braces (hn : nested.KeepsBraces exact) (floor : Precedence) (left : Expr) :
    Keeps (Behind exact s) (Broken exact s) (continue? floor left nested) := by
  intro p hp
  rw [continue?, meets_bind, meets_get]
  cases h : continuation? floor p with
  | none => exact hp
  | some form =>
      rw [hp.ordered.continuation?_eq, Option.ite_none_right_eq_some] at h
      rw [meets_bind, meets_advance]
      refine (trailing_braces hn form left).map some p.advance (hp.next ?_ ?_)
      · intro hkind
        rw [hkind] at h
        cases h.2
      · intro hkind
        rw [hkind] at h
        cases h.2

theorem expression_braces (hn : nested.KeepsBraces exact) {floor : Precedence}
    (hp : p.Before exact s) :
    (expression floor nested p).Meets (fun _ q => q.Behind exact s) (Broken exact s) True :=
  meets_bind.mpr ((operand_braces hn hp).imp
    (fun left q hq => Keeps.bounded
      (fun bound => keeps_iterate (continue?_braces hn floor) bound left) q hq)
    (fun _ h => h) id)

/-! ## Statements and blocks -/

theorem optional_braces : Keeps (Behind exact s) (Broken exact s) (optional .semicolon) := by
  intro p hp
  rw [meets_optional]
  refine ⟨fun h => hp.next ?_ ?_, fun _ => hp⟩
  · rw [h]
    simp
  · rw [h]
    simp

theorem returnedValue_braces (hn : nested.KeepsBraces exact) :
    Keeps (Behind exact s) (Broken exact s) (returnedValue nested) := by
  have hexpr : Keeps (Behind exact s) (Broken exact s)
      (advance >>= fun _ => nested.expr .lowest >>= fun e => pure (some e)) :=
    keeps_advance_expr hn fun _ => keeps_pure _
  exact (keeps_get _).bind fun _ => keeps_ite (keeps_pure _) hexpr

theorem statementForm_braces (hn : nested.KeepsBraces exact) (hp : p.Before exact s) :
    (statementForm p.statementForm nested p).Meets (fun _ q => q.Behind exact s) (Broken exact s)
      True := by
  cases h : p.statementForm with
  | binding =>
      have hkind := hp.ordered.statementForm_eq_binding_iff.mp h
      have hbehind := hp.behind (by rw [hkind]; simp) (by rw [hkind]; simp)
      exact ((keeps_get _).bind fun _ => (keeps_expect_of_ne (by simp) (by simp)).bind fun _ =>
        (keeps_expect_of_ne (by simp) (by simp)).bind fun _ => keeps_advance_expr hn fun _ =>
          optional_braces.bind fun _ => keeps_pure _) p hbehind
  | ret =>
      have hkind := hp.ordered.statementForm_eq_ret_iff.mp h
      have hbehind := hp.behind (by rw [hkind]; simp) (by rw [hkind]; simp)
      exact ((keeps_get _).bind fun _ => (returnedValue_braces hn).bind fun _ =>
        optional_braces.bind fun _ => keeps_pure _) p hbehind
  | expression =>
      have hrest : ∀ token value, Keeps (Behind exact s) (Broken exact s)
          (optional .semicolon >>= fun _ => pure (Stmt.expression token value)) :=
        fun _ _ => optional_braces.bind fun _ => keeps_pure _
      rw [statementForm, expressionStatement, meets_bind, meets_current, meets_bind]
      exact (hn.expr hp).imp (fun value q hq => hrest _ value q hq) (fun _ h => h) id

/-- **A statement**, read or skipped, leaves the braces around it closed where they
were; one that broke on a closing brace leaves the block on it. -/
theorem statement_braces (hn : nested.KeepsBraces exact) (hp : p.Before exact s) :
    (statement nested p).Meets
      (fun result q => q.OrderedIf exact ∧
        (if result = none ∧ q.ranIntoClosingBrace = true then BlockEnd exact s q.ahead
          else ClosedAlike exact s q.ahead.tail)) (fun _ => False) True := by
  rw [statement, meets_logged, meets_bind, meets_get, meets_bind, meets_attempt]
  have hempty : Parser.Before exact s { p with visits := [] } :=
    ⟨hp.ordered.withVisits [], hp.closed⟩
  refine (statementForm_braces hn hempty).imp (fun s q hq => ?_) (fun q hq => ?_) id
  · -- the statement was read
    refine ⟨hq.ordered.withVisits _, ?_⟩
    rw [if_neg (by simp)]
    exact hq.closed
  · -- it broke, and recovery says where it is left
    rw [meets_bind, meets_modify, meets_pure]
    refine ⟨(hq.ordered.of_reaches q.reaches_recover).withVisits _, ?_⟩
    obtain ⟨hran, hnot⟩ := hq.recover
    by_cases hagain : q.recover.ranIntoClosingBrace = true
    · rw [if_pos ⟨rfl, hagain⟩]
      exact hran hagain
    · rw [if_neg fun hboth => hagain hboth.2]
      exact hnot hagain

/-- A block is over where it ends, and where a statement broke on a closing brace. -/
theorem blockItem_braces (hn : nested.KeepsBraces exact) (hp : p.Before exact s) :
    (blockItem nested p).Meets
      (fun next q => next.elim (q.OrderedIf exact ∧ BlockEnd exact s q.ahead)
        fun _ => q.Before exact s) (fun _ => False) True := by
  rw [blockItem, meets_bind, meets_current, meets_ite]
  refine ⟨fun hends => ⟨hp.ordered, fun t ht => ?_, hp.closed⟩, fun _ => ?_⟩
  · have hkind : p.current.kind = .closeCurly ∨ p.current.kind = .eof := by
      simpa [endsBlock] using hends
    obtain ⟨ts, hts⟩ := List.head?_eq_some_iff.mp ht
    rw [Parser.current_of_ahead_eq hts] at hkind
    refine hkind.resolve_right (hp.ordered.spelled t ?_).ne_eof
    rw [hts]
    exact List.mem_cons_self
  · refine meets_bind.mpr ((statement_braces hn hp).imp (fun result q hq => ?_) (fun _ h => h) id)
    obtain ⟨hordered, hq⟩ := hq
    cases result with
    | none =>
        rw [meets_bind, meets_get, meets_ite]
        constructor
        · intro hran
          rw [if_pos ⟨rfl, hran⟩] at hq
          exact ⟨hordered, hq⟩
        · intro hran
          rw [if_neg fun hboth => hran hboth.2] at hq
          exact ⟨hordered.advance, hq⟩
    | some s =>
        rw [if_neg (by simp)] at hq
        exact ⟨hordered.advance, hq⟩

/-- **A block is left on the brace that closes it**, or at the end of the input; where
positions wrap around, perhaps on an earlier brace. -/
theorem block_braces (hn : nested.KeepsBraces exact) (hp : p.OrderedIf exact) :
    (block nested p).Meets (fun _ q => q.OrderedIf exact ∧ BlockEnd exact p.ahead.tail q.ahead)
      (fun _ => False) True := by
  rw [block, meets_logged, meets_bind, meets_current, meets_bind, meets_advance, meets_bind,
    meets_bounded]
  have hinside : Parser.Before exact p.ahead.tail (Parser.advance { p with visits := [] }) :=
    ⟨(hp.withVisits []).advance, .refl _⟩
  -- the invariant of the loop: in front of each statement the braces around it are closed
  -- where they were behind the block's own brace
  refine (meets_many (I := fun _ q => q.Before exact p.ahead.tail)
    (D := fun _ q => q.OrderedIf exact ∧ BlockEnd exact p.ahead.tail q.ahead)
    (fun items q hq => (blockItem_braces hn hq).imp (fun next r hr => ?_) (fun _ h => h) id)
    hinside).imp (fun items q hq => ⟨hq.1.withVisits _, hq.2⟩) (fun _ h => h.elim) id
  cases next <;> exact hr

end Rule

/-- **The braces around are closed where they were** at every depth of nesting. -/
theorem Nested.keepsBraces_level (exact : Prop) (n : Nat) : (level n).KeepsBraces exact := by
  induction n with
  | zero => exact ⟨fun _ => trivial, fun _ _ => trivial⟩
  | succ n ih => exact ⟨fun hp => Rule.expression_braces ih hp, fun hp _ => Rule.block_braces ih hp⟩

/-! ## All blocks of a run -/

/-- What is promised of a visit to a block of a source: it began with an opening
brace and ended on the brace that matches it. -/
def Visit.EndsOnBrace (source : String) : Visit → Prop
  | .block before after _ => ∃ opening tail, before = opening :: tail ∧
      opening.kind = .openCurly ∧ before <:+ (Lexer.tokenize source).dropLast ∧
      MatchesBrace tail after
  | .statement _ _ _ _ _ => True

/-- **Blocks end on their own brace**: the run of a source that is shorter than 4 GiB
comes to its end, and every block that was read on the way, at whatever depth and
whatever was wrong inside it, began at a brace and was left on the one that matches it,
or at the end of the input if none does. -/
theorem blocks_end_on_matching_brace {source : String} (hsize : source.utf8ByteSize < UInt32.size) :
    (∃ program q, Rule.program.run (.ofSource source) = .done program q) ∧
      ∀ v : Visit, v.Made (parse source).visits → v.EndsOnBrace source := by
  refine ⟨?_, fun v hv => ?_⟩
  · obtain ⟨program, q, hrun, -⟩ := exists_parse_eq source
    exact ⟨program, q, hrun⟩
  · refine forall_visited_parse (I := (Parser.ofSource source).Reaches)
      (Parser.invariant_reaches _) Parser.Reaches.withVisits (fun n p hp => ?_)
      (fun n p hp hopening => ?_) (.refl _) hv
    · -- statements promise nothing
      rw [Rule.statement, meets_logged]
      refine Outcome.meets_of_forall (fun _ q w hw => ?_) (fun _ => trivial) trivial _
      cases hw
      trivial
    · have hordered := (Parser.ordered_ofSource hsize).of_reaches hp
      have hblock := Rule.block_braces (Nested.keepsBraces_level True n) hordered
      rw [Rule.block, meets_logged] at hblock ⊢
      refine hblock.imp (fun b q hq w hw => ?_) (fun _ h => h.elim) id
      cases hw
      refine ⟨p.current, p.ahead.tail, ?_, hopening, ?_, ?_⟩
      · exact hordered.ahead_eq_cons (by rw [hopening]; simp)
      · rw [← Parser.ahead_ofSource_eq_dropLast]
        exact hp.ahead
      · rw [show q.ahead = closing 0 p.ahead.tail from hq.2.eq_closing trivial]
        exact matches_closing _

/-- Two nested blocks, with a statement in the outer one that breaks and another after it. -/
theorem blocks_end_on_matching_brace_sample :
    "fn() \x7b @ fn() \x7b 1 \x7d; x \x7d".utf8ByteSize < UInt32.size ∧
      (parse "fn() \x7b @ fn() \x7b 1 \x7d; x \x7d").errors.length = 1 ∧
      ∀ v : Visit, v.Made (parse "fn() \x7b @ fn() \x7b 1 \x7d; x \x7d").visits →
        v.EndsOnBrace "fn() \x7b @ fn() \x7b 1 \x7d; x \x7d" := by
  have hsize : "fn() \x7b @ fn() \x7b 1 \x7d; x \x7d".utf8ByteSize < UInt32.size := by
    decide +kernel
  refine ⟨hsize, ?_, (blocks_end_on_matching_brace hsize).2⟩
  decide +kernel

/-- Whether a block was left elsewhere than on the brace that closes it. -/
def Visit.endsElsewhere : Visit → Bool
  | .block before after _ => after ≠ closing 0 before.tail
  | .statement _ _ _ _ _ => false

theorem Visit.not_endsOnBrace {source : String} {v : Visit} (h : v.endsElsewhere = true) :
    ¬ v.EndsOnBrace source := by
  cases v with
  | statement => cases h
  | block before after inner =>
      rintro ⟨opening, tail, rfl, -, -, hmatches⟩
      exact of_decide_eq_true h hmatches.eq_closing

/-- In a longer source a block may end on the brace of a block inside it, if the error
behind that brace has its position. -/
theorem blocks_end_on_matching_brace_apart :
    ∃ v : Visit, v.Made
        (parse (apart "fn() \x7b f(fn() \x7b\x7d" ' ' (UInt32.size - 1) "3); z \x7d")).visits ∧
      ¬ v.EndsOnBrace (apart "fn() \x7b f(fn() \x7b\x7d" ' ' (UInt32.size - 1) "3); z \x7d") := by
  have hturn : "fn() \x7b f(fn() \x7b\x7d".utf8ByteSize + (UInt32.size - 1) = UInt32.size + 15 := by
    decide +kernel
  have hends : (Visit.allOf (parse (apart "fn() \x7b f(fn() \x7b\x7d" ' ' (UInt32.size - 1)
      "3); z \x7d")).visits).any Visit.endsElsewhere = true := by
    rw [parse_apart (by decide) (by decide) hturn]
    decide +kernel
  obtain ⟨v, hv, hends⟩ := List.any_eq_true.mp hends
  exact ⟨v, (Visit.mem_allOf_iff _).mp hv, Visit.not_endsOnBrace hends⟩

end ExprLang
