/-
# What can be done with a parser

The operations that a parser offers, in any order and with any forms entered in its
tables on the way.  None of them loses a token, reads one again or forgets an error:
the window moves along the tokens of the source, and whatever error an operation
records is on a token that the window showed meanwhile.  Main statements:
`Operation.exists_index` (the window over any sequence of operations) and
`Operation.returns` (operations return, as long as the tables let nothing nest at the
end of the input).
-/
import ExprLang.Proofs.Window
import Mathlib.Order.Monotone.Basic

namespace ExprLang

open Parse

/-! ## Operations -/

/-- The state that a procedure ends in, with or without a value. -/
def Outcome.state? {α : Type} : Outcome α → Option Parser
  | .done _ q => some q
  | .failed q => some q
  | .exhausted => none

/-- What can be done with a parser: its steps, the reading of a program, a statement, a
block or an expression, each form read for itself at whatever token is current, and the
entering of forms in the tables. -/
inductive Operation : Type where
  | advance
  | expect (kind : Token.Kind)
  | report (error : SyntaxError)
  | recover
  | program
  | statement
  | block
  | expression (floor : Precedence)
  | leading (form : LeadingForm)
  | trailing (form : TrailingForm) (left : Expr)
  | statementForm (form : StatementForm)
  | setLeading (kind : Token.Kind) (form : LeadingForm)
  | setTrailing (kind : Token.Kind) (form : TrailingForm)
  | setStatement (kind : Token.Kind) (form : StatementForm)

namespace Operation

/-- The state behind an operation, or `none` if it does not return. -/
def after (p : Parser) : Operation → Option Parser
  | .advance => some p.advance
  | .expect kind => (Parse.expect kind p).state?
  | .report error => some (p.report error)
  | .recover => some p.recover
  | .program => (Rule.program.run p).state?
  | .statement => (Rule.statement.run p).state?
  | .block => (Rule.block.run p).state?
  | .expression floor => ((Rule.expression floor).run p).state?
  | .leading form => ((Rule.leading form).run p).state?
  | .trailing form left => ((Rule.trailing form left).run p).state?
  | .statementForm form => ((Rule.statementForm form).run p).state?
  | .setLeading kind form => some { p with forms := p.forms.setLeading kind form }
  | .setTrailing kind form => some { p with forms := p.forms.setTrailing kind form }
  | .setStatement kind form => some { p with forms := p.forms.setStatement kind form }

/-- The states that a sequence of operations goes through, up to the first one that does
not return. -/
def trail (p : Parser) : List Operation → List Parser
  | [] => [p]
  | op :: ops => p :: (op.after p).elim [] fun q => trail q ops

/-- A trail begins where it is begun. -/
theorem trail_getElem?_zero (p : Parser) (ops : List Operation) : (trail p ops)[0]? = some p := by
  cases ops <;> rfl

/-- **One state of a trail leads to the next** by the operation between them. -/
theorem exists_after_of_trail {p q r : Parser} {ops : List Operation} {i : Nat}
    (hq : (trail p ops)[i]? = some q) (hr : (trail p ops)[i + 1]? = some r) :
    ∃ op, ops[i]? = some op ∧ op.after q = some r := by
  induction ops generalizing p i with
  | nil => cases hr
  | cons op ops ih =>
      rw [trail, List.getElem?_cons_succ] at hr
      cases hop : op.after p with
      | none =>
          rw [hop] at hr
          cases hr
      | some s =>
          rw [hop, Option.elim_some] at hr
          cases i with
          | zero =>
              cases hq
              rw [trail_getElem?_zero] at hr
              exact ⟨op, rfl, hop.trans hr⟩
          | succ i =>
              rw [trail, List.getElem?_cons_succ, hop, Option.elim_some] at hq
              exact ih hq hr

/-- What operations keep holds all along a trail. -/
theorem forall_mem_trail {I : Parser → Prop}
    (hI : ∀ {p q : Parser} {op : Operation}, I p → op.after p = some q → I q) {p : Parser}
    (hp : I p) (ops : List Operation) : ∀ q ∈ trail p ops, I q := by
  induction ops generalizing p with
  | nil => exact List.forall_mem_singleton.mpr hp
  | cons op ops ih =>
      rw [trail]
      refine List.forall_mem_cons.mpr ⟨hp, ?_⟩
      cases hop : op.after p with
      | none => simp
      | some q => exact ih (hI hp hop)

end Operation

/-! ## Errors on the tokens that the window shows -/

/-- An error names a token: by its kind, or by its text where that is no integer. -/
def SyntaxError.Names (e : SyntaxError) (t : Token) : Prop :=
  match e.cause with
  | .unexpected _ found => found = t.kind
  | .noExpression found => found = t.kind
  | .badInteger text => text = t.text

/-- An error is on a token that it names, and that the window shows on the way from one
state to another: none in front of the current token of the one, and none behind the
next token of the other. -/
def SyntaxError.Shown (p q : Parser) (e : SyntaxError) : Prop :=
  ∃ t ts, t :: ts <:+ p.remaining ∧ q.advance.remaining <:+ t :: ts ∧ e.position = t.start ∧
    e.Names t

/-- A state that can be got to from another one, with all errors found on the way on
tokens that the window showed. -/
structure Parser.Covers (p q : Parser) : Prop where
  ahead : q.ahead <:+ p.ahead
  eof : q.eof = p.eof
  found : ∃ errors, q.errors = p.errors ++ errors ∧ ∀ e ∈ errors, e.Shown p q

namespace Parser

variable {p q r : Parser}

theorem Covers.remaining (h : p.Covers q) : q.remaining <:+ p.remaining :=
  remaining_suffix h.ahead h.eof

theorem Covers.remaining_advance (h : p.Covers q) :
    q.advance.remaining <:+ p.advance.remaining :=
  remaining_suffix (tail_suffix_tail h.ahead) h.eof

/-- A state with no further errors. -/
theorem covers_of_errors_eq (hahead : q.ahead <:+ p.ahead) (heof : q.eof = p.eof)
    (herrors : q.errors = p.errors) : p.Covers q :=
  ⟨hahead, heof, [], by rw [herrors, List.append_nil], by simp⟩

theorem Covers.refl (p : Parser) : p.Covers p :=
  covers_of_errors_eq (List.suffix_refl _) rfl rfl

theorem Covers.trans (h : p.Covers q) (h' : q.Covers r) : p.Covers r := by
  obtain ⟨errors, herrors, hshown⟩ := h.found
  obtain ⟨errors', herrors', hshown'⟩ := h'.found
  refine ⟨h'.ahead.trans h.ahead, h'.eof.trans h.eof, errors ++ errors', ?_, fun e he => ?_⟩
  · rw [herrors', herrors, List.append_assoc]
  · rcases List.mem_append.mp he with he | he
    · obtain ⟨t, ts, hts, hnext, hplace, hnames⟩ := hshown e he
      exact ⟨t, ts, hts, h'.remaining_advance.trans hnext, hplace, hnames⟩
    · obtain ⟨t, ts, hts, hnext, hplace, hnames⟩ := hshown' e he
      exact ⟨t, ts, hts.trans h.remaining, hnext, hplace, hnames⟩

theorem covers_advance (p : Parser) : p.Covers p.advance :=
  covers_of_errors_eq (List.tail_suffix _) rfl rfl

theorem covers_recover (p : Parser) : p.Covers p.recover :=
  covers_of_errors_eq p.ahead_recover_suffix p.reaches_recover.eof p.errors_recover

/-- An error may be on the current token. -/
theorem covers_report_current (p : Parser) {cause : SyntaxError.Cause}
    (h : (⟨cause, p.current.start⟩ : SyntaxError).Names p.current) :
    p.Covers (p.report ⟨cause, p.current.start⟩) := by
  refine ⟨List.suffix_refl _, rfl, [_], rfl, List.forall_mem_singleton.mpr ?_⟩
  obtain ⟨rest, hrest⟩ := p.exists_remaining_eq_cons
  exact ⟨_, rest, hrest ▸ List.suffix_refl _, hrest ▸ p.covers_advance.remaining, rfl, h⟩

/-- An error may be on the token behind it. -/
theorem covers_report_peek (p : Parser) {cause : SyntaxError.Cause}
    (h : (⟨cause, p.peek.start⟩ : SyntaxError).Names p.peek) :
    p.Covers (p.report ⟨cause, p.peek.start⟩) := by
  refine ⟨List.suffix_refl _, rfl, [_], rfl, List.forall_mem_singleton.mpr ?_⟩
  obtain ⟨rest, hrest⟩ := p.advance.exists_remaining_eq_cons
  exact ⟨_, rest, hrest ▸ p.covers_advance.remaining, hrest ▸ List.suffix_refl _, rfl, h⟩

/-- **The steps of the rules cover what they pass**, with whatever tables. -/
theorem resumes_covers (p : Parser) : Resumes p.Covers p.Covers where
  advance h := h.trans (covers_advance _)
  unexpected h _ := h.trans (covers_report_peek _ rfl)
  noExpression h _ := h.trans (covers_report_current _ rfl)
  badInteger h _ _ := h.trans (covers_report_current _ rfl)
  recover h := h.trans (covers_recover _)
  resume h := h.trans (covers_advance _)
  close h _ := h
  log _ h := ⟨h.ahead, h.eof, h.found⟩
  logBroken _ h := ⟨h.ahead, h.eof, h.found⟩

end Parser

/-! ## Operations move along the tokens -/

theorem Outcome.Meets.of_state? {α : Type} {G : Parser → Prop} {X : Prop} {o : Outcome α}
    (h : o.Meets (fun _ => G) G X) {q : Parser} (hq : o.state? = some q) : G q := by
  cases o with
  | done a r => cases hq; exact h
  | failed r => cases hq; exact h
  | exhausted => cases hq

namespace Operation

variable {p q : Parser} {op : Operation}

/-- **An operation covers what it passes**, unless it records an error from outside. -/
theorem covers_after (hop : ∀ error, op ≠ .report error) (h : op.after p = some q) :
    p.Covers q := by
  have hs := p.resumes_covers
  have hn := Nested.upholds_level hs (p.ahead.length + 2)
  have hp := Parser.Covers.refl p
  cases op with
  | advance => cases h; exact p.covers_advance
  | expect kind => exact (keeps_expect hs.toUpholds kind p hp).of_state? h
  | report error => exact absurd rfl (hop error)
  | recover => cases h; exact p.covers_recover
  | program => exact (Rule.resumes_program hs hn p hp).of_state? h
  | statement =>
      refine ((Rule.resumes_statement hs hn hp).imp (fun result r hr => ?_)
        (fun _ hr => hr.elim) id).of_state? h
      split at hr <;> exact hr
  | block => exact (Rule.resumes_block hs hn p hp).of_state? h
  | expression floor => exact (Rule.keeps_expression hs.toUpholds hn floor p hp).of_state? h
  | leading form =>
      exact (Rule.keeps_leading hs.toUpholds hn form hp fun _ _ =>
        p.covers_report_current rfl).of_state? h
  | trailing form left =>
      exact (Rule.keeps_trailing hs.toUpholds hn form left p hp).of_state? h
  | statementForm form => exact (Rule.keeps_statementForm hs.toUpholds hn form p hp).of_state? h
  | setLeading kind form => cases h; exact ⟨hp.ahead, rfl, hp.found⟩
  | setTrailing kind form => cases h; exact ⟨hp.ahead, rfl, hp.found⟩
  | setStatement kind form => cases h; exact ⟨hp.ahead, rfl, hp.found⟩

/-- Every operation moves forward, keeps the end marker and forgets no error. -/
theorem forward_after (h : op.after p = some q) :
    q.ahead <:+ p.ahead ∧ q.eof = p.eof ∧ p.errors <+: q.errors := by
  by_cases hop : ∀ error, op ≠ .report error
  · have hcovers := covers_after hop h
    obtain ⟨errors, herrors, -⟩ := hcovers.found
    exact ⟨hcovers.ahead, hcovers.eof, errors, herrors.symm⟩
  · push Not at hop
    obtain ⟨error, rfl⟩ := hop
    cases h
    exact ⟨List.suffix_refl _, rfl, List.prefix_append _ _⟩

/-- A token that was expected and is not there is an error, and nothing else changes. -/
theorem after_expect_of_ne {kind : Token.Kind} (hne : p.peek.kind ≠ kind)
    (h : (expect kind).after p = some q) :
    q = p.report ⟨.unexpected kind p.peek.kind, p.peek.start⟩ := by
  rw [after, expect_of_kind_ne hne] at h
  exact (Option.some.inj h).symm

end Operation

/-! ## Numbers of tokens -/

/-- The window shows the token number `k` and the one behind it, or the end marker past
the last one. -/
def Parser.ShowsAt (tokens : List Token) (k : Nat) (p : Parser) : Prop :=
  tokens[min k (tokens.length - 1)]? = some p.current ∧
    tokens[min (k + 1) (tokens.length - 1)]? = some p.peek

/-- A token is numbered by how many stand behind it. -/
theorem getElem?_of_suffix {tokens ts : List Token} {t : Token} (h : t :: ts <:+ tokens) :
    tokens[tokens.length - 1 - ts.length]? = some t := by
  obtain ⟨front, rfl⟩ := h
  simp

/-- The number of the current token is told by how many tokens are left. -/
theorem Parser.showsAt_of_suffix {tokens : List Token} {p : Parser}
    (h : p.remaining <:+ tokens) : p.ShowsAt tokens (tokens.length - 1 - p.ahead.length) := by
  obtain ⟨rest, hrest⟩ := p.exists_remaining_eq_cons
  obtain ⟨rest', hrest'⟩ := p.advance.exists_remaining_eq_cons
  have hcurrent := getElem?_of_suffix (hrest ▸ h)
  have hpeek := getElem?_of_suffix (hrest' ▸ p.covers_advance.remaining.trans h)
  have hlength : p.ahead.length = rest.length := by
    simpa [remaining] using congrArg List.length hrest
  have hlength' : p.ahead.length - 1 = rest'.length := by
    simpa [remaining] using congrArg List.length hrest'
  have hle := h.length_le
  rw [remaining, List.length_append, List.length_singleton] at hle
  rw [← hlength] at hcurrent
  rw [← hlength'] at hpeek
  constructor
  · rwa [Nat.min_eq_left (Nat.sub_le _ _)]
  · rwa [show min (tokens.length - 1 - p.ahead.length + 1) (tokens.length - 1) =
      tokens.length - 1 - (p.ahead.length - 1) by omega]

/-- What an operation does that leads from one state to another, with the tokens number
`k` and `k'` current: errors are only added behind the others; a token that was expected
and is not there adds one and leaves the window alone; and all that the operation found
itself is on tokens from `k` up to the one behind `k'`. -/
structure Operation.Effect (tokens : List Token) (op : Operation) (k k' : Nat) (p q : Parser) :
    Prop where
  grows : p.errors <+: q.errors
  refused : ∀ kind, op = .expect kind → p.peek.kind ≠ kind →
    ∃ e, q.errors = p.errors ++ [e] ∧ q.current = p.current ∧ q.peek = p.peek ∧
      q.ahead = p.ahead
  found : (∀ error, op ≠ .report error) → ∀ e ∈ q.errors.drop p.errors.length,
    ∃ j t, min k (tokens.length - 1) ≤ j ∧ j ≤ min (k' + 1) (tokens.length - 1) ∧
      tokens[j]? = some t ∧ e.position = t.start ∧ e.Names t

/-- An operation has its effect between the numbers of the current tokens. -/
theorem Operation.effect_after {tokens : List Token} {op : Operation} {p q : Parser}
    (hp : p.remaining <:+ tokens) (h : op.after p = some q) :
    op.Effect tokens (tokens.length - 1 - p.ahead.length) (tokens.length - 1 - q.ahead.length)
      p q := by
  refine ⟨(forward_after h).2.2, ?_, fun hop e he => ?_⟩
  · rintro kind rfl hne
    rw [after_expect_of_ne hne h]
    exact ⟨_, rfl, rfl, rfl, rfl⟩
  · obtain ⟨errors, herrors, hshown⟩ := (covers_after hop h).found
    rw [herrors, List.drop_left] at he
    obtain ⟨t, ts, hts, hnext, hplace, hnames⟩ := hshown e he
    have hle := hts.length_le
    have hle' := hnext.length_le
    have htokens := hp.length_le
    simp only [Parser.remaining, List.length_cons, List.length_append, List.length_nil,
      Parser.ahead_advance, List.length_tail] at hle hle' htokens
    exact ⟨tokens.length - 1 - ts.length, t, by omega, by omega,
      getElem?_of_suffix (hts.trans hp), hplace, hnames⟩

/-- How many tokens are left in a state of a sequence; none past the end of it. -/
def Parser.leftAt (states : List Parser) (i : Nat) : Nat :=
  states[i]?.elim 0 fun p => p.ahead.length

theorem Parser.leftAt_of_getElem? {states : List Parser} {i : Nat} {p : Parser}
    (h : states[i]? = some p) : leftAt states i = p.ahead.length := by
  rw [leftAt, h, Option.elim_some]

namespace Operation

/-- Along a trail the tokens left never get more. -/
theorem leftAt_succ_le (p : Parser) (ops : List Operation) (i : Nat) :
    Parser.leftAt (trail p ops) (i + 1) ≤ Parser.leftAt (trail p ops) i := by
  cases hr : (trail p ops)[i + 1]? with
  | none =>
      rw [Parser.leftAt, hr, Option.elim_none]
      exact Nat.zero_le _
  | some r =>
      obtain ⟨hlt, -⟩ := List.getElem?_eq_some_iff.mp hr
      have hq := List.getElem?_eq_getElem (Nat.lt_of_succ_lt hlt)
      obtain ⟨op, -, hop⟩ := exists_after_of_trail hq hr
      rw [Parser.leftAt_of_getElem? hq, Parser.leftAt_of_getElem? hr]
      exact (forward_after hop).1.length_le

/-- Along a trail what is left is an end of the tokens at its beginning. -/
theorem remaining_suffix_of_mem_trail {p q : Parser} {ops : List Operation}
    (hq : q ∈ trail p ops) : q.remaining <:+ p.remaining :=
  forall_mem_trail (fun hp hop => (Parser.remaining_suffix (forward_after hop).1
    (forward_after hop).2.1).trans hp) (List.suffix_refl _) ops q hq

/-- **The window over any sequence of operations**, with any tables: there are numbers,
never decreasing, such that each state of the sequence shows the tokens at its number,
and each operation has its effect between the numbers of the states around it. -/
theorem exists_index (source : String) (ops : List Operation) :
    ∃ k : Nat → Nat, Monotone k ∧
      ∀ i p, (trail (.ofSource source) ops)[i]? = some p →
        p.ShowsAt (Lexer.tokenize source) (k i) ∧
          ∀ op q, ops[i]? = some op → (trail (.ofSource source) ops)[i + 1]? = some q →
            op.Effect (Lexer.tokenize source) (k i) (k (i + 1)) p q := by
  have hmonotone : Monotone fun i =>
      (Lexer.tokenize source).length - 1 - Parser.leftAt (trail (.ofSource source) ops) i :=
    monotone_nat_of_le_succ fun i => Nat.sub_le_sub_left (leftAt_succ_le _ ops i) _
  refine ⟨_, hmonotone, fun i p hp => ?_⟩
  have hsuffix : p.remaining <:+ Lexer.tokenize source :=
    remaining_suffix_of_mem_trail (List.mem_of_getElem? hp)
  rw [Parser.leftAt_of_getElem? hp]
  refine ⟨Parser.showsAt_of_suffix hsuffix, fun op q hop hq => ?_⟩
  obtain ⟨op', hop', hafter⟩ := exists_after_of_trail hp hq
  obtain rfl : op' = op := Option.some.inj (hop'.symm.trans hop)
  rw [Parser.leftAt_of_getElem? hq]
  exact effect_after hsuffix hafter

end Operation

/-! ## Operations return -/

/-- Tables that let nothing nest at the end of the input: the end marker starts no
operator expression and no parenthesis. -/
structure Forms.Grounded (f : Forms) : Prop where
  unary : f.leading .eof ≠ some .unary
  grouping : f.leading .eof ≠ some .grouping

theorem Outcome.Meets.exists_state? {α : Type} {D : α → Parser → Prop} {F : Parser → Prop}
    {o : Outcome α} (h : o.Meets D F False) : ∃ q, o.state? = some q := by
  cases o with
  | done a q => exact ⟨q, rfl⟩
  | failed q => exact ⟨q, rfl⟩
  | exhausted => exact h.elim

/-- **Every operation returns** from a state with a proper end. -/
theorem Operation.exists_after {p : Parser} (hp : p.Steady) (op : Operation) :
    ∃ q, op.after p = some q := by
  have hn := Nested.ends_level (p.ahead.length + 2)
  have hlt : p.ahead.length < p.ahead.length + 2 := by omega
  cases op with
  | expect kind => exact (ends_expect kind p hp hlt).exists_state?
  | program =>
      obtain ⟨program, q, hrun, -⟩ := Rule.exists_program_eq_done hp
      exact ⟨q, congrArg Outcome.state? hrun⟩
  | statement => exact (Rule.ends_statement hn p hp hlt).exists_state?
  | block => exact (Rule.ends_block hn p hp (by omega)).exists_state?
  | expression floor => exact (Rule.ends_expression hn floor p hp (by omega)).exists_state?
  | leading form => exact (Rule.ends_leading_of_lt hn form p hp hlt).exists_state?
  | trailing form left => exact (Rule.ends_trailing hn form left p hp hlt).exists_state?
  | statementForm form => exact (Rule.ends_statementForm hn form p hp hlt).exists_state?
  | _ => exact ⟨_, rfl⟩

/-- **Reading ends with any tables that are grounded**, as those of the language are:
from every state that a sequence of operations goes through, with whatever forms entered
on the way, every operation returns, and behind a program the end of the input is
reached. -/
theorem Operation.returns (source : String) (ops : List Operation) :
    Forms.standard.Grounded ∧
      ∀ p ∈ trail (.ofSource source) ops, p.forms.Grounded →
        (∀ op : Operation, ∃ q, op.after p = some q) ∧
          ∃ q, Operation.program.after p = some q ∧ q.current.kind = .eof := by
  refine ⟨⟨by decide, by decide⟩, fun p hp hgrounded => ?_⟩
  have heof : p.eof = (Parser.ofSource source).eof :=
    forall_mem_trail (I := fun q => q.eof = (Parser.ofSource source).eof)
      (fun hq hop => (forward_after hop).2.1.trans hq) rfl ops p hp
  have hsource := (Parser.regular_ofSource source).steady
  have hsteady : p.Steady :=
    ⟨heof ▸ hsource.kind, heof ▸ hsource.text, hgrounded.unary, hgrounded.grouping⟩
  obtain ⟨program, q, hrun, -, hend⟩ := Rule.exists_program_eq_done hsteady
  exact ⟨exists_after hsteady, q, congrArg Outcome.state? hrun, hend⟩

/-- With an operator at the end of the input reading goes on for ever. -/
example : (Operation.expression .lowest).after
    { Parser.ofSource "" with forms := Forms.standard.setLeading .eof .unary } = none := by
  cbv

end ExprLang
