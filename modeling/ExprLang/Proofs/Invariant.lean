/-
# Invariants of a run

A property of the state that survives the steps of the parser, one by one, holds
wherever a run ends: no rule touches the state but through them.  `Keeps` says it
of a procedure, with a property of its own for the states in which constructs break
(`Parser.Upholds`), and `Nested.keeps_level` brings it up from the steps to the
whole grammar.  Main statement: `Parser.Reaches` is such a property, so that a run
only moves forward, keeps the tables and forgets no error
(`Nested.reaches_level`).
-/
import ExprLang.Parser.Program
import ExprLang.Proofs.Contract

namespace ExprLang

/-! ## Properties that survive the steps -/

/-- A property of the state that the steps of the parser keep. -/
structure Parser.Invariant (I : Parser → Prop) : Prop where
  advance : ∀ {p : Parser}, I p → I p.advance
  report : ∀ {p : Parser} (error : SyntaxError), I p → I (p.report error)
  recover : ∀ {p : Parser}, I p → I p.recover

/-- What the steps inside constructs keep: `I` while one is read, and `F` where it
breaks.  It breaks on the token behind the current one, which is not the one expected,
or on the current one, which starts no expression or is no integer that fits. -/
structure Parser.Upholds (I F : Parser → Prop) : Prop where
  advance : ∀ {p : Parser}, I p → I p.advance
  unexpected : ∀ {p : Parser} {kind : Token.Kind}, I p → p.peek.kind ≠ kind →
    F (p.report ⟨.unexpected kind p.peek.kind, p.peek.start⟩)
  noExpression : ∀ {p : Parser}, I p → p.leadingForm? = none →
    F (p.report ⟨.noExpression p.current.kind, p.current.start⟩)
  badInteger : ∀ {p : Parser}, I p → p.leadingForm? = some .integer →
    Text.integer? p.current.text = none →
    F (p.report ⟨.badInteger p.current.text, p.current.start⟩)

/-- What survives every step is upheld, whether constructs break or not. -/
theorem Parser.Invariant.upholds {I : Parser → Prop} (hI : Parser.Invariant I) :
    Parser.Upholds I I where
  advance := hI.advance
  unexpected hp _ := hI.report _ hp
  noExpression hp _ := hI.report _ hp
  badInteger hp _ _ := hI.report _ hp

namespace Parse

variable {α β : Type} {I F : Parser → Prop}

/-- A procedure that leaves a property of the state as it found it, and of which
`F` is known when it fails. -/
def Keeps (I F : Parser → Prop) (m : Parse α) : Prop :=
  ∀ p, I p → (m p).Meets (fun _ => I) F True

theorem keeps_pure (a : α) : Keeps I F (pure a) := fun _ hp => hp

theorem Keeps.bind {m : Parse α} {f : α → Parse β} (hm : Keeps I F m)
    (hf : ∀ a, Keeps I F (f a)) : Keeps I F (m >>= f) := fun _ hp =>
  meets_bind.mpr ((hm _ hp).imp (fun a q hq => hf a q hq) (fun _ hq => hq) id)

theorem Keeps.map {m : Parse α} (hm : Keeps I F m) (f : α → β) : Keeps I F (f <$> m) :=
  fun _ hp => meets_map.mpr (hm _ hp)

theorem keeps_ite {c : Prop} [Decidable c] {m m' : Parse α} (hm : Keeps I F m)
    (hm' : Keeps I F m') : Keeps I F (if c then m else m') := by
  split
  · exact hm
  · exact hm'

theorem keeps_get (f : Parser → α) : Keeps I F (get f) := fun _ hp => hp

theorem Keeps.bounded {repetition : Nat → Parse α} (h : ∀ bound, Keeps I F (repetition bound)) :
    Keeps I F (bounded repetition) := fun _ hp => h _ _ hp

theorem keeps_iterate {step : α → Parse (Option α)} (hstep : ∀ a, Keeps I F (step a))
    (bound : Nat) (a : α) : Keeps I F (iterate step bound a) := fun p hp =>
  meets_iterate (I := fun _ => I)
    (fun a q hq => (hstep a q hq).imp (fun next r hr => by cases next <;> exact hr)
      (fun _ hr => hr) id) hp

theorem keeps_many {item : Parse (Option α)} (hitem : Keeps I F item) (bound : Nat) :
    Keeps I F (many item bound) := fun p hp =>
  meets_many (I := fun _ => I)
    (fun _ q hq => (hitem q hq).imp (fun next r hr => by cases next <;> exact hr)
      (fun _ hr => hr) id) hp

theorem keeps_advance (hs : Parser.Upholds I F) : Keeps I F advance := fun _ hp => hs.advance hp

theorem keeps_expect (hs : Parser.Upholds I F) (kind : Token.Kind) : Keeps I F (expect kind) :=
  fun _ hp => meets_expect.mpr ⟨fun _ => hs.advance hp, fun hne => hs.unexpected hp hne⟩

theorem keeps_optional (hs : Parser.Upholds I F) (kind : Token.Kind) :
    Keeps I F (optional kind) := fun _ hp =>
  meets_optional.mpr ⟨fun _ => hs.advance hp, fun _ => hp⟩

theorem Keeps.attempt {m : Parse α} (hm : Keeps I I m) : Keeps I F (attempt m) := fun _ hp =>
  meets_attempt.mpr (hm _ hp)

/-- A property that does not look at the log is kept where an entry is made. -/
theorem Keeps.logged {m : Parse α} (hm : Keeps I I m)
    (hI : ∀ {p : Parser} (visits : List Visit), I p → I { p with visits := visits })
    (entry : Parser → Parser → α → Visit) : Keeps I I (logged entry m) := fun _ hp =>
  meets_logged.mpr
    ((hm _ (hI [] hp)).imp (fun _ _ hq => hI _ hq) (fun _ hq => hI _ hq) id)

end Parse

/-! ## From the steps to the rules -/

open Parse

/-- Nested constructs leave a property of the state as they found it.  A block is
only read where a brace opens it. -/
structure Nested.Keeps (I : Parser → Prop) (nested : Nested) : Prop where
  expr : ∀ floor, Parse.Keeps I I (nested.expr floor)
  block : ∀ p, I p → p.current.kind = .openCurly → (nested.block p).Meets (fun _ => I) I True

/-- Nested constructs keep a property of the state where they are read, and another
one where they break.  A block is only read where a brace opens it. -/
structure Nested.Upholds (I F : Parser → Prop) (nested : Nested) : Prop where
  expr : ∀ floor, Parse.Keeps I F (nested.expr floor)
  block : ∀ p, I p → p.current.kind = .openCurly → (nested.block p).Meets (fun _ => I) F True

theorem Nested.Keeps.upholds {I : Parser → Prop} {nested : Nested} (hn : nested.Keeps I) :
    nested.Upholds I I :=
  ⟨hn.expr, hn.block⟩

/-- A property of the state is kept where statements and blocks make their
entries in the log, if it is kept by what they log. -/
structure Nested.Logs (I : Parser → Prop) (nested : Nested) : Prop where
  statement : ∀ m, Rule.statement nested = logged Rule.statementVisit m → Parse.Keeps I I m →
    Parse.Keeps I I (Rule.statement nested)
  block : ∀ m, Rule.block nested = logged Rule.blockVisit m → Parse.Keeps I I m → ∀ p, I p →
    p.current.kind = .openCurly → (Rule.block nested p).Meets (fun _ => I) I True

namespace Rule

variable {I F : Parser → Prop} {nested : Nested}

theorem keeps_bracedBlock (hs : Parser.Upholds I F) (hn : nested.Upholds I F) :
    Keeps I F (bracedBlock nested) := fun _ hp =>
  meets_bind.mpr (meets_expect.mpr
    ⟨fun hopening => hn.block _ (hs.advance hp) hopening, fun hne => hs.unexpected hp hne⟩)

theorem keeps_alternative (hs : Parser.Upholds I F) (hn : nested.Upholds I F) :
    Keeps I F (alternative nested) :=
  (keeps_get _).bind fun _ => keeps_ite
    ((keeps_advance hs).bind fun _ => (keeps_bracedBlock hs hn).map _) (keeps_pure _)

theorem keeps_conditional (hs : Parser.Upholds I F) (hn : nested.Upholds I F) :
    Keeps I F (conditional nested) :=
  (keeps_get _).bind fun _ => (keeps_expect hs _).bind fun _ => (keeps_advance hs).bind fun _ =>
    (hn.expr _).bind fun _ => (keeps_expect hs _).bind fun _ =>
      (keeps_bracedBlock hs hn).bind fun _ => (keeps_alternative hs hn).bind fun _ => keeps_pure _

theorem keeps_parameter (hs : Parser.Upholds I F) : Keeps I F parameter :=
  (keeps_expect hs _).bind fun _ => keeps_pure _

theorem keeps_furtherParameter (hs : Parser.Upholds I F) : Keeps I F furtherParameter :=
  (keeps_get _).bind fun _ => keeps_ite
    ((keeps_advance hs).bind fun _ => (keeps_parameter hs).map _) (keeps_pure _)

theorem keeps_parameters (hs : Parser.Upholds I F) : Keeps I F parameters :=
  (keeps_get _).bind fun _ => keeps_ite ((keeps_advance hs).bind fun _ => keeps_pure _)
    ((keeps_parameter hs).bind fun _ =>
      (Keeps.bounded (keeps_many (keeps_furtherParameter hs))).bind fun _ =>
        (keeps_expect hs _).bind fun _ => keeps_pure _)

theorem keeps_function (hs : Parser.Upholds I F) (hn : nested.Upholds I F) :
    Keeps I F (function nested) :=
  (keeps_get _).bind fun _ => (keeps_expect hs _).bind fun _ => (keeps_parameters hs).bind fun _ =>
    (keeps_bracedBlock hs hn).bind fun _ => keeps_pure _

/-- A leading form, at whatever token, if an integer that does not fit breaks as the
others do. -/
theorem keeps_leading (hs : Parser.Upholds I F) (hn : nested.Upholds I F) (form : LeadingForm)
    {p : Parser} (hp : I p)
    (hbad : form = .integer → Text.integer? p.current.text = none →
      F (p.report ⟨.badInteger p.current.text, p.current.start⟩)) :
    (leading form nested p).Meets (fun _ => I) F True := by
  cases form with
  | identifier => exact hp
  | integer =>
      rw [leading, integer, meets_bind, meets_current]
      cases h : Text.integer? p.current.text with
      | none => exact hbad rfl h
      | some value => exact hp
  | boolean => exact hp
  | unary =>
      exact ((keeps_get _).bind fun _ => (keeps_advance hs).bind fun _ =>
        (hn.expr _).bind fun _ => keeps_pure _) p hp
  | grouping =>
      exact ((keeps_advance hs).bind fun _ => (hn.expr _).bind fun _ =>
        (keeps_expect hs _).bind fun _ => keeps_pure _) p hp
  | conditional => exact keeps_conditional hs hn p hp
  | function => exact keeps_function hs hn p hp

theorem keeps_operand (hs : Parser.Upholds I F) (hn : nested.Upholds I F) :
    Keeps I F (operand nested) := by
  intro p hp
  rw [operand, meets_bind, meets_current, meets_bind, meets_get]
  cases h : p.leadingForm? with
  | none => exact hs.noExpression hp h
  | some form =>
      refine keeps_leading hs hn form hp fun hform => hs.badInteger hp ?_
      rw [h, hform]

theorem keeps_furtherArgument (hs : Parser.Upholds I F) (hn : nested.Upholds I F) :
    Keeps I F (furtherArgument nested) :=
  (keeps_get _).bind fun _ => keeps_ite
    ((keeps_advance hs).bind fun _ => (keeps_advance hs).bind fun _ => (hn.expr _).map _)
    (keeps_pure _)

theorem keeps_arguments (hs : Parser.Upholds I F) (hn : nested.Upholds I F) :
    Keeps I F (arguments nested) :=
  (keeps_get _).bind fun _ => keeps_ite ((keeps_advance hs).bind fun _ => keeps_pure _)
    ((keeps_advance hs).bind fun _ => (hn.expr _).bind fun _ =>
      (Keeps.bounded (keeps_many (keeps_furtherArgument hs hn))).bind fun _ =>
        (keeps_expect hs _).bind fun _ => keeps_pure _)

theorem keeps_trailing (hs : Parser.Upholds I F) (hn : nested.Upholds I F) (form : TrailingForm)
    (left : Expr) : Keeps I F (trailing form left nested) := by
  cases form with
  | binary =>
      exact (keeps_get _).bind fun _ => (keeps_advance hs).bind fun _ =>
        (hn.expr _).bind fun _ => keeps_pure _
  | call =>
      exact (keeps_get _).bind fun _ => (keeps_arguments hs hn).bind fun _ => keeps_pure _

theorem keeps_continue? (hs : Parser.Upholds I F) (hn : nested.Upholds I F) (floor : Precedence)
    (left : Expr) : Keeps I F (continue? floor left nested) := by
  apply (keeps_get _).bind
  intro form
  cases form with
  | none => exact keeps_pure _
  | some form => exact (keeps_advance hs).bind fun _ => (keeps_trailing hs hn form left).map _

theorem keeps_expression (hs : Parser.Upholds I F) (hn : nested.Upholds I F) (floor : Precedence) :
    Keeps I F (expression floor nested) :=
  (keeps_operand hs hn).bind fun left =>
    Keeps.bounded fun bound => keeps_iterate (keeps_continue? hs hn floor) bound left

theorem keeps_returnedValue (hs : Parser.Upholds I F) (hn : nested.Upholds I F) :
    Keeps I F (returnedValue nested) :=
  (keeps_get _).bind fun _ => keeps_ite (keeps_pure _)
    ((keeps_advance hs).bind fun _ => (hn.expr _).map _)

theorem keeps_statementForm (hs : Parser.Upholds I F) (hn : nested.Upholds I F)
    (form : StatementForm) : Keeps I F (statementForm form nested) := by
  cases form with
  | binding =>
      exact (keeps_get _).bind fun _ => (keeps_expect hs _).bind fun _ =>
        (keeps_expect hs _).bind fun _ => (keeps_advance hs).bind fun _ =>
          (hn.expr _).bind fun _ => (keeps_optional hs _).bind fun _ => keeps_pure _
  | ret =>
      exact (keeps_get _).bind fun _ => (keeps_returnedValue hs hn).bind fun _ =>
        (keeps_optional hs _).bind fun _ => keeps_pure _
  | expression =>
      exact (keeps_get _).bind fun _ => (hn.expr _).bind fun _ =>
        (keeps_optional hs _).bind fun _ => keeps_pure _

theorem keeps_statement (hI : Parser.Invariant I) (hn : nested.Keeps I) (hlog : nested.Logs I) :
    Keeps I I (statement nested) := by
  refine hlog.statement _ rfl ((keeps_get _).bind fun form =>
    (keeps_statementForm hI.upholds hn.upholds form).attempt.bind fun result => ?_)
  cases result with
  | none =>
      have hrecover : Keeps I I (modify Parser.recover) := fun _ hp => hI.recover hp
      exact hrecover.bind fun _ => keeps_pure _
  | some statement => exact keeps_pure _

theorem keeps_blockItem (hI : Parser.Invariant I) (hn : nested.Keeps I) (hlog : nested.Logs I) :
    Keeps I I (blockItem nested) := by
  refine (keeps_get _).bind fun _ => keeps_ite (keeps_pure _)
    ((keeps_statement hI hn hlog).bind fun result => ?_)
  cases result with
  | none =>
      exact (keeps_get _).bind fun _ => keeps_ite (keeps_pure _)
        ((keeps_advance hI.upholds).bind fun _ => keeps_pure _)
  | some statement => exact (keeps_advance hI.upholds).bind fun _ => keeps_pure _

theorem keeps_block (hI : Parser.Invariant I) (hn : nested.Keeps I) (hlog : nested.Logs I)
    (p : Parser) (hp : I p) (hopening : p.current.kind = .openCurly) :
    (block nested p).Meets (fun _ => I) I True := by
  refine hlog.block _ rfl ?_ p hp hopening
  exact (keeps_get _).bind fun _ => (keeps_advance hI.upholds).bind fun _ =>
    (Keeps.bounded (keeps_many (keeps_blockItem hI hn hlog))).bind fun _ => keeps_pure _

theorem keeps_program (hI : Parser.Invariant I) (hn : nested.Keeps I) (hlog : nested.Logs I) :
    Keeps I I (program nested) :=
  (Keeps.bounded (keeps_many ((keeps_get _).bind fun _ => keeps_ite (keeps_pure _)
    ((keeps_statement hI hn hlog).bind fun _ => (keeps_advance hI.upholds).bind fun _ =>
      keeps_pure _)))).bind fun _ => keeps_pure _

end Rule

/-- **What the steps keep, a run keeps**, at every depth of nesting. -/
theorem Nested.keeps_level {I : Parser → Prop} (hI : Parser.Invariant I)
    (hlog : ∀ n, (level n).Logs I) (n : Nat) : (level n).Keeps I := by
  induction n with
  | zero => exact ⟨fun _ _ _ => trivial, fun _ _ _ => trivial⟩
  | succ n ih =>
      exact ⟨Rule.keeps_expression hI.upholds ih.upholds, Rule.keeps_block hI ih (hlog n)⟩

/-- A property that does not look at the log is kept by all entries. -/
theorem Nested.logs_of_blind {I : Parser → Prop}
    (hI : ∀ {p : Parser} (visits : List Visit), I p → I { p with visits := visits })
    (nested : Nested) : nested.Logs I where
  statement m h hm := by
    rw [h]
    exact hm.logged hI _
  block m h hm p hp _ := by
    rw [h]
    exact hm.logged hI _ p hp

/-! ## Past broken statements -/

/-- What the steps keep when a statement breaks and reading goes on behind it: where it
broke and where it is skipped there is `F`, and `I` again with the token behind it, or
with the closing brace that it ran into.  The log makes no difference. -/
structure Parser.Resumes (I F : Parser → Prop) : Prop extends Parser.Upholds I F where
  recover : ∀ {p : Parser}, F p → F p.recover
  resume : ∀ {p : Parser}, F p → I p.advance
  close : ∀ {p : Parser}, F p → p.ranIntoClosingBrace = true → I p
  log : ∀ {p : Parser} (visits : List Visit), I p → I { p with visits := visits }
  logBroken : ∀ {p : Parser} (visits : List Visit), F p → F { p with visits := visits }

namespace Rule

variable {I F : Parser → Prop} {nested : Nested}

/-- A statement does not fail: it was read, or else it is skipped. -/
theorem resumes_statement (hs : Parser.Resumes I F) (hn : nested.Upholds I F) {p : Parser}
    (hp : I p) :
    (statement nested p).Meets (fun result q => if result.isSome then I q else F q)
      (fun _ => False) True := by
  rw [statement, meets_logged, meets_bind, meets_get, meets_bind, meets_attempt]
  have hform := keeps_statementForm hs.toUpholds hn (Parser.statementForm { p with visits := [] })
    _ (hs.log [] hp)
  exact hform.imp (fun _ _ hq => hs.log _ hq) (fun _ hq => hs.logBroken _ (hs.recover hq)) id

theorem resumes_blockItem (hs : Parser.Resumes I F) (hn : nested.Upholds I F) :
    Keeps I F (blockItem nested) := by
  intro p hp
  rw [blockItem, meets_bind, meets_current, meets_ite]
  refine ⟨fun _ => hp, fun _ => meets_bind.mpr ((resumes_statement hs hn hp).imp
    (fun result q hq => ?_) (fun _ h => h.elim) id)⟩
  cases result with
  | some statement => exact hs.advance hq
  | none =>
      rw [meets_bind, meets_get, meets_ite]
      exact ⟨fun hran => hs.close hq hran, fun _ => hs.resume hq⟩

/-- A block keeps what its statements keep, whatever token it is read at. -/
theorem resumes_block (hs : Parser.Resumes I F) (hn : nested.Upholds I F) :
    Keeps I F (block nested) := by
  have hbody : Keeps I F (current >>= fun token => advance >>= fun _ =>
      bounded (many (blockItem nested)) >>= fun items =>
        pure (Block.mk token (items.filterMap id))) :=
    (keeps_get _).bind fun _ => (keeps_advance hs.toUpholds).bind fun _ =>
      (Keeps.bounded (keeps_many (resumes_blockItem hs hn))).bind fun _ => keeps_pure _
  intro p hp
  rw [block, meets_logged]
  exact (hbody _ (hs.log [] hp)).imp (fun _ _ hq => hs.log _ hq) (fun _ hq => hs.logBroken _ hq) id

theorem resumes_programItem (hs : Parser.Resumes I F) (hn : nested.Upholds I F) :
    Keeps I F (programItem nested) := by
  intro p hp
  rw [programItem, meets_bind, meets_current, meets_ite]
  refine ⟨fun _ => hp, fun _ => meets_bind.mpr ((resumes_statement hs hn hp).imp
    (fun result q hq => ?_) (fun _ h => h.elim) id)⟩
  cases result with
  | some statement => exact hs.advance hq
  | none => exact hs.resume hq

theorem resumes_program (hs : Parser.Resumes I F) (hn : nested.Upholds I F) :
    Keeps I F (program nested) :=
  (Keeps.bounded (keeps_many (resumes_programItem hs hn))).bind fun _ => keeps_pure _

end Rule

/-- **What reading keeps past broken statements, a run keeps**, at every depth. -/
theorem Nested.upholds_level {I F : Parser → Prop} (hs : Parser.Resumes I F) (n : Nat) :
    (level n).Upholds I F := by
  induction n with
  | zero => exact ⟨fun _ _ _ => trivial, fun _ _ _ => trivial⟩
  | succ n ih =>
      exact ⟨Rule.keeps_expression hs.toUpholds ih, fun p hp _ => Rule.resumes_block hs ih p hp⟩

/-! ## Runs move forward -/

/-- A state that a run can get to from another: the tokens left are among those
left before, the tables are the same, and no error was forgotten. -/
structure Parser.Reaches (p q : Parser) : Prop where
  ahead : q.ahead <:+ p.ahead
  eof : q.eof = p.eof
  forms : q.forms = p.forms
  errors : p.errors <+: q.errors

namespace Parser

theorem Reaches.refl (p : Parser) : p.Reaches p :=
  ⟨List.suffix_refl _, rfl, rfl, List.prefix_refl _⟩

theorem Reaches.trans {p q r : Parser} (h : p.Reaches q) (h' : q.Reaches r) : p.Reaches r :=
  ⟨h'.ahead.trans h.ahead, h'.eof.trans h.eof, h'.forms.trans h.forms, h.errors.trans h'.errors⟩

theorem reaches_advance (p : Parser) : p.Reaches p.advance :=
  ⟨List.tail_suffix _, rfl, rfl, List.prefix_refl _⟩

theorem reaches_report (p : Parser) (error : SyntaxError) : p.Reaches (p.report error) :=
  ⟨List.suffix_refl _, rfl, rfl, List.prefix_append _ _⟩

theorem reaches_recover (p : Parser) : p.Reaches p.recover := by
  refine ⟨p.ahead_recover_suffix, ?_, ?_, ?_⟩
  · unfold recover
    split <;> rfl
  · unfold recover
    split <;> rfl
  · have herrors := p.errors_recover
    exact ⟨[], by rw [List.append_nil, herrors]⟩

/-- What can be got to is kept by the steps. -/
theorem invariant_reaches (p : Parser) : Invariant p.Reaches where
  advance h := h.trans (reaches_advance _)
  report error h := h.trans (reaches_report _ error)
  recover h := h.trans (reaches_recover _)

theorem Reaches.withVisits {p q : Parser} (visits : List Visit) (h : p.Reaches q) :
    p.Reaches { q with visits := visits } :=
  ⟨h.ahead, h.eof, h.forms, h.errors⟩

/-- No more tokens are left than before. -/
theorem Reaches.length_le {p q : Parser} (h : p.Reaches q) : q.ahead.length ≤ p.ahead.length :=
  h.ahead.length_le

end Parser

/-- **Runs move forward**: what nested constructs leave behind can be got to. -/
theorem Nested.reaches_level (n : Nat) (p : Parser) : (level n).Keeps p.Reaches :=
  keeps_level (Parser.invariant_reaches p) (fun _ => logs_of_blind Parser.Reaches.withVisits _) n

end ExprLang
