/-
# Termination

No run of the parser is cut short by a bound.  Every round of a repetition takes
a token, and everything nested starts behind a token of what is around it; the
one way to nest without taking a token would be an operator or a parenthesis at
the end of the input, which the tables must not have.  Main statements:
`Nested.ends_level` (a depth above the number of tokens left is enough) and
`Rule.exists_program_eq_done` (a whole program is always read to its end).
-/
import ExprLang.Proofs.Invariant

namespace ExprLang

/-! ## States with a proper end -/

/-- A state whose end marker is one, and whose tables let nothing nest at it. -/
structure Parser.Steady (p : Parser) : Prop where
  kind : p.eof.kind = .eof
  text : p.eof.text = ""
  unary : p.forms.leading .eof ≠ some .unary
  grouping : p.forms.leading .eof ≠ some .grouping

namespace Parser

variable {p q : Parser}

/-- The end marker and the tables stay, and so does this. -/
theorem Steady.of_reaches (hp : p.Steady) (h : p.Reaches q) : q.Steady := by
  obtain ⟨kind, text, unary, grouping⟩ := hp
  rw [← h.eof] at kind text
  rw [← h.forms] at unary grouping
  exact ⟨kind, text, unary, grouping⟩

/-- A token other than the end marker is current, so that one can be taken. -/
theorem Steady.ahead_ne_nil (hp : p.Steady) (h : p.current.kind ≠ .eof) : p.ahead ≠ [] := by
  intro hnil
  rw [current, hnil] at h
  exact h hp.kind

/-- A token other than the end marker is next. -/
theorem Steady.tail_ne_nil (hp : p.Steady) (h : p.peek.kind ≠ .eof) : p.ahead.tail ≠ [] := by
  intro hnil
  rw [peek, hnil] at h
  exact h hp.kind

theorem length_advance_lt (h : p.ahead ≠ []) : p.advance.ahead.length < p.ahead.length := by
  rw [ahead_advance, List.length_tail]
  have := List.length_pos_iff.mpr h
  omega

/-- The move behind a statement takes a token, whatever the statement took. -/
theorem length_advance_lt_of_reaches (h : p.ahead ≠ []) (hq : p.Reaches q) :
    q.advance.ahead.length < p.ahead.length := by
  have hpos := List.length_pos_iff.mpr h
  have hle := hq.length_le
  rw [ahead_advance, List.length_tail]
  omega

end Parser

/-! ## Procedures that end -/

namespace Parse

variable {α β : Type} {n : Nat}

/-- A procedure that ends, with or without a value, in every state with fewer
than `n` tokens left. -/
def Ends (n : Nat) (m : Parse α) : Prop :=
  ∀ p : Parser, p.Steady → p.ahead.length < n → (m p).Meets (fun _ => p.Reaches) p.Reaches False

/-- What follows a state that was reached ends where it was reached from. -/
theorem Ends.of_reaches {m : Parse α} (hm : Ends n m) {p q : Parser} (hp : p.Steady)
    (hlt : p.ahead.length < n) (hq : p.Reaches q) :
    (m q).Meets (fun _ => p.Reaches) p.Reaches False := by
  have hle := hq.length_le
  exact (hm q (hp.of_reaches hq) (by omega)).imp (fun _ _ hr => hq.trans hr)
    (fun _ hr => hq.trans hr) id

theorem ends_pure (a : α) : Ends n (pure a) := fun p _ _ => .refl p

theorem ends_get (f : Parser → α) : Ends n (get f) := fun p _ _ => .refl p

theorem ends_advance : Ends n advance := fun p _ _ => p.reaches_advance

theorem ends_expect (kind : Token.Kind) : Ends n (expect kind) := fun p _ _ =>
  meets_expect.mpr ⟨fun _ => p.reaches_advance, fun _ => p.reaches_report _⟩

theorem ends_optional (kind : Token.Kind) : Ends n (optional kind) := fun p _ _ =>
  meets_optional.mpr ⟨fun _ => p.reaches_advance, fun _ => .refl p⟩

theorem Ends.bind {m : Parse α} {f : α → Parse β} (hm : Ends n m) (hf : ∀ a, Ends n (f a)) :
    Ends n (m >>= f) := fun p hp hlt =>
  meets_bind.mpr ((hm p hp hlt).imp (fun a _ hq => (hf a).of_reaches hp hlt hq) (fun _ hq => hq) id)

theorem Ends.map {m : Parse α} (hm : Ends n m) (f : α → β) : Ends n (f <$> m) := fun p hp hlt =>
  meets_map.mpr (hm p hp hlt)

theorem ends_ite {c : Prop} [Decidable c] {m m' : Parse α} (hm : Ends n m) (hm' : Ends n m') :
    Ends n (if c then m else m') := by
  split
  · exact hm
  · exact hm'

theorem Ends.attempt {m : Parse α} (hm : Ends n m) : Ends n (attempt m) := fun p hp hlt =>
  meets_attempt.mpr (hm p hp hlt)

theorem Ends.logged {m : Parse α} (hm : Ends n m) (entry : Parser → Parser → α → Visit) :
    Ends n (logged entry m) := by
  intro p hp hlt
  have hempty : Parser.Steady { p with visits := [] } := ⟨hp.kind, hp.text, hp.unary, hp.grouping⟩
  refine meets_logged.mpr ((hm _ hempty hlt).imp (fun _ q hq => ?_) (fun q hq => ?_) id)
  · exact ⟨hq.ahead, hq.eof, hq.forms, hq.errors⟩
  · exact ⟨hq.ahead, hq.eof, hq.forms, hq.errors⟩

/-- Items end when each of them does and takes a token. -/
theorem ends_many {item : Parse (Option α)}
    (hitem : ∀ p : Parser, p.Steady → p.ahead.length < n → (item p).Meets
      (fun next q => p.Reaches q ∧ (next.isSome → q.ahead.length < p.ahead.length)) p.Reaches
      False) :
    Ends n (bounded (many item)) := by
  intro p hp hlt
  refine meets_bounded.mpr (meets_many_of_lt (I := p.Reaches) (fun q hq => ?_) (.refl p)
    (Nat.lt_succ_self _))
  have hle := hq.length_le
  exact (hitem q (hp.of_reaches hq) (by omega)).imp (fun _ r hr => ⟨hq.trans hr.1, hr.2⟩)
    (fun r hr => hq.trans hr) id

/-- A repetition ends when each of its rounds does and takes a token. -/
theorem ends_iterate {step : α → Parse (Option α)}
    (hstep : ∀ (a : α) (p : Parser), p.Steady → p.ahead.length < n → (step a p).Meets
      (fun next q => p.Reaches q ∧ (next.isSome → q.ahead.length < p.ahead.length)) p.Reaches
      False) (a : α) :
    Ends n (bounded fun bound => iterate step bound a) := by
  intro p hp hlt
  refine meets_bounded.mpr (meets_iterate_of_lt (I := fun _ => p.Reaches) (fun b q hq => ?_)
    (.refl p) (Nat.lt_succ_self _))
  have hle := hq.length_le
  refine (hstep b q (hp.of_reaches hq) (by omega)).imp (fun next r hr => ?_)
    (fun r hr => hq.trans hr) id
  cases next with
  | none => exact hq.trans hr.1
  | some c => exact ⟨hq.trans hr.1, hr.2 rfl⟩

/-- A round that moves onto the next token takes one, so that what comes behind the
move has fewer tokens left. -/
theorem Ends.round {m : Parse (Option α)} (hm : Ends n m) {p : Parser} (hp : p.Steady)
    (hle : p.ahead.length ≤ n) (htail : p.ahead.tail ≠ []) :
    ((advance >>= fun _ => m) p).Meets
      (fun next q => p.Reaches q ∧ (next.isSome → q.ahead.length < p.ahead.length)) p.Reaches
      False := by
  have hadv := Parser.length_advance_lt (p := p) (fun hnil => htail (by rw [hnil]; rfl))
  have hrest := hm p.advance (hp.of_reaches p.reaches_advance) (Nat.lt_of_lt_of_le hadv hle)
  refine meets_bind.mpr (meets_advance.mpr (hrest.imp (fun _ q hq => ?_) (fun q hq => ?_) id))
  · have := hq.length_le
    exact ⟨p.reaches_advance.trans hq, fun _ => by omega⟩
  · exact p.reaches_advance.trans hq

/-- Items each of which starts with the same token end, as they take that token. -/
theorem ends_many_of_peek {kind : Token.Kind} (hkind : kind ≠ .eof) {m : Parse (Option α)}
    (hm : Ends n m) :
    Ends n (bounded (many
      (peek >>= fun t => if t.kind = kind then advance >>= fun _ => m else pure none))) := by
  apply ends_many
  intro p hp hlt
  rw [meets_bind, meets_peek, meets_ite]
  exact ⟨fun h => hm.round hp (Nat.le_of_lt hlt) (hp.tail_ne_nil (by rwa [h])),
    fun _ => ⟨.refl p, by simp⟩⟩

/-- A procedure that first takes a token has that one more to spend. -/
theorem Ends.of_advance {m : Parse α} (hm : Ends n m) {p : Parser} (hp : p.Steady)
    (hne : p.ahead ≠ []) (hle : p.ahead.length ≤ n) :
    (m p.advance).Meets (fun _ => p.Reaches) p.Reaches False := by
  have hlt := Parser.length_advance_lt hne
  exact (hm p.advance (hp.of_reaches p.reaches_advance) (by omega)).imp
    (fun _ _ hq => p.reaches_advance.trans hq) (fun _ hq => p.reaches_advance.trans hq) id

/-- So has one that first expects a token to be next. -/
theorem Ends.of_expect {kind : Token.Kind} (hkind : kind ≠ .eof) {f : Token → Parse α}
    (hf : ∀ t, Ends n (f t)) {p : Parser} (hp : p.Steady) (hle : p.ahead.length ≤ n) :
    ((expect kind >>= f) p).Meets (fun _ => p.Reaches) p.Reaches False := by
  refine meets_bind.mpr (meets_expect.mpr ⟨fun h => ?_, fun _ => p.reaches_report _⟩)
  have htail := hp.tail_ne_nil (by rwa [h])
  exact (hf _).of_advance hp (fun h => htail (by rw [h]; rfl)) hle

end Parse

/-! ## Rules that end -/

open Parse

/-- Nested constructs end in every state with fewer than `n` tokens left. -/
structure Nested.Ends (n : Nat) (nested : Nested) : Prop where
  expr : ∀ floor, Parse.Ends n (nested.expr floor)
  block : Parse.Ends n nested.block

namespace Rule

variable {n : Nat} {nested : Nested}

theorem ends_bracedBlock (hn : nested.Ends n) : Ends n (bracedBlock nested) :=
  (ends_expect _).bind fun _ => hn.block

theorem ends_alternative (hn : nested.Ends n) : Ends n (alternative nested) :=
  (ends_get _).bind fun _ => ends_ite
    (ends_advance.bind fun _ => (ends_bracedBlock hn).map _) (ends_pure _)

theorem ends_parameter : Ends n parameter :=
  (ends_expect _).bind fun _ => ends_pure _

theorem ends_parameters : Ends n parameters :=
  (ends_get _).bind fun _ => ends_ite (ends_advance.bind fun _ => ends_pure _)
    (ends_parameter.bind fun _ =>
      (ends_many_of_peek (by simp) (ends_parameter.map some)).bind fun _ =>
        (ends_expect _).bind fun _ => ends_pure _)

theorem ends_arguments (hn : nested.Ends n) : Ends n (arguments nested) :=
  (ends_get _).bind fun _ => ends_ite (ends_advance.bind fun _ => ends_pure _)
    (ends_advance.bind fun _ => (hn.expr _).bind fun _ =>
      (ends_many_of_peek (by simp) (ends_advance.bind fun _ => (hn.expr _).map some)).bind
        fun _ => (ends_expect _).bind fun _ => ends_pure _)

/-- A leading form takes a token in front of what is nested in it, unless the input is
over; then it must be none that nests without looking further. -/
theorem ends_leading (hn : nested.Ends n) {form : LeadingForm} {p : Parser} (hp : p.Steady)
    (hle : p.ahead.length ≤ n) (hne : form = .unary ∨ form = .grouping → p.ahead ≠ []) :
    (leading form nested p).Meets (fun _ => p.Reaches) p.Reaches False := by
  cases form with
  | identifier => exact .refl p
  | integer =>
      rw [leading, integer, meets_bind, meets_current]
      cases Text.integer? p.current.text with
      | none => exact p.reaches_report _
      | some value => exact .refl p
  | boolean => exact .refl p
  | unary =>
      have hrest : ∀ token, Ends n
          (nested.expr .unary >>= fun operand => pure (Expr.unary token token.text operand)) :=
        fun _ => (hn.expr _).bind fun _ => ends_pure _
      exact (hrest _).of_advance hp (hne (.inl rfl)) hle
  | grouping =>
      have hrest : Ends n (nested.expr .lowest >>= fun inner =>
          expect .closeParen >>= fun _ => pure inner) :=
        (hn.expr _).bind fun _ => (ends_expect _).bind fun _ => ends_pure _
      exact hrest.of_advance hp (hne (.inr rfl)) hle
  | conditional =>
      exact Ends.of_expect (by simp) (fun _ => ends_advance.bind fun _ =>
        (hn.expr _).bind fun _ => (ends_expect _).bind fun _ =>
          (ends_bracedBlock hn).bind fun _ =>
            (ends_alternative hn).bind fun _ => ends_pure _) hp hle
  | function =>
      exact Ends.of_expect (by simp) (fun _ => ends_parameters.bind fun _ =>
        (ends_bracedBlock hn).bind fun _ => ends_pure _) hp hle

/-- With fewer tokens left than that, a leading form ends at whatever token it is read. -/
theorem ends_leading_of_lt (hn : nested.Ends n) (form : LeadingForm) :
    Ends n (leading form nested) := by
  intro p hp hlt
  cases form with
  | unary =>
      exact ((ends_get _).bind fun _ => ends_advance.bind fun _ => (hn.expr _).bind fun _ =>
        ends_pure _) p hp hlt
  | grouping =>
      exact (ends_advance.bind fun _ => (hn.expr _).bind fun _ => (ends_expect _).bind fun _ =>
        ends_pure _) p hp hlt
  | _ => exact ends_leading hn hp (Nat.le_of_lt hlt) (by simp)

theorem ends_operand (hn : nested.Ends n) {p : Parser} (hp : p.Steady) (hle : p.ahead.length ≤ n) :
    (operand nested p).Meets (fun _ => p.Reaches) p.Reaches False := by
  rw [operand, meets_bind, meets_current, meets_bind, meets_get]
  cases hform : p.leadingForm? with
  | none => exact p.reaches_report _
  | some form =>
      refine ends_leading hn hp hle fun h => hp.ahead_ne_nil fun heof => ?_
      -- at the end of the input the tables have neither form
      rw [Parser.leadingForm?, heof] at hform
      rcases h with rfl | rfl
      · exact hp.unary hform
      · exact hp.grouping hform

theorem ends_trailing (hn : nested.Ends n) (form : TrailingForm) (left : Expr) :
    Ends n (trailing form left nested) := by
  cases form with
  | binary =>
      exact (ends_get _).bind fun _ => ends_advance.bind fun _ => (hn.expr _).bind fun _ =>
        ends_pure _
  | call => exact (ends_get _).bind fun _ => (ends_arguments hn).bind fun _ => ends_pure _

/-- An expression goes on only at a token, which it takes. -/
theorem tail_ne_nil_of_continuation? {p : Parser} (hp : p.Steady) {floor : Precedence}
    {form : TrailingForm} (h : continuation? floor p = some form) : p.ahead.tail ≠ [] := by
  intro hnil
  rw [continuation?, Option.ite_none_right_eq_some] at h
  have hlt : floor < p.peek.precedence := h.1.2
  rw [Parser.peek, hnil, List.headD_nil, Token.precedence, hp.text] at hlt
  exact Nat.not_lt_zero _ hlt

theorem ends_continue? (hn : nested.Ends n) (floor : Precedence) (left : Expr) {p : Parser}
    (hp : p.Steady) (hlt : p.ahead.length < n + 1) :
    (continue? floor left nested p).Meets
      (fun next q => p.Reaches q ∧ (next.isSome → q.ahead.length < p.ahead.length)) p.Reaches
      False := by
  rw [continue?, meets_bind, meets_get]
  cases h : continuation? floor p with
  | none => exact ⟨.refl p, by simp⟩
  | some form =>
      exact ((ends_trailing hn form left).map some).round hp (Nat.le_of_lt_succ hlt)
        (tail_ne_nil_of_continuation? hp h)

theorem ends_expression (hn : nested.Ends n) (floor : Precedence) :
    Ends (n + 1) (expression floor nested) := by
  have hoperand : Ends (n + 1) (operand nested) :=
    fun p hp hlt => ends_operand hn hp (Nat.le_of_lt_succ hlt)
  exact hoperand.bind fun left =>
    ends_iterate (fun left p hp hlt => ends_continue? hn floor left hp hlt) left

theorem ends_returnedValue (hn : nested.Ends n) : Ends n (returnedValue nested) :=
  (ends_get _).bind fun _ => ends_ite (ends_pure _)
    (ends_advance.bind fun _ => (hn.expr _).map _)

theorem ends_statementForm (hn : nested.Ends n) (form : StatementForm) :
    Ends n (statementForm form nested) := by
  cases form with
  | binding =>
      exact (ends_get _).bind fun _ => (ends_expect _).bind fun _ => (ends_expect _).bind fun _ =>
        ends_advance.bind fun _ => (hn.expr _).bind fun _ => (ends_optional _).bind fun _ =>
          ends_pure _
  | ret =>
      exact (ends_get _).bind fun _ => (ends_returnedValue hn).bind fun _ =>
        (ends_optional _).bind fun _ => ends_pure _
  | expression =>
      exact (ends_get _).bind fun _ => (hn.expr _).bind fun _ => (ends_optional _).bind fun _ =>
        ends_pure _

theorem ends_statement (hn : nested.Ends n) : Ends n (statement nested) := by
  refine Ends.logged ((ends_get _).bind fun form => (ends_statementForm hn form).attempt.bind
    fun result => ?_) _
  cases result with
  | none =>
      have hrecover : Ends n (modify Parser.recover) := fun p _ _ => p.reaches_recover
      exact hrecover.bind fun _ => ends_pure _
  | some statement => exact ends_pure _

/-- A statement of a block takes a token, or else the block is over. -/
theorem ends_blockItems (hn : nested.Ends n) : Ends n (bounded (many (blockItem nested))) := by
  apply ends_many
  intro p hp hlt
  rw [blockItem, meets_bind, meets_current, meets_ite]
  refine ⟨fun _ => ⟨.refl p, by simp⟩, fun hopen => ?_⟩
  have hne : p.ahead ≠ [] := hp.ahead_ne_nil fun heof => hopen (by rw [heof]; rfl)
  refine meets_bind.mpr ((ends_statement hn p hp hlt).imp (fun result q hq => ?_)
    (fun _ hq => hq) id)
  have hadv := Parser.length_advance_lt_of_reaches hne hq
  have hreach := hq.trans q.reaches_advance
  cases result with
  | none =>
      simp only [meets_bind, meets_get, meets_ite, meets_advance]
      exact ⟨fun _ => ⟨hq, by simp⟩, fun _ => ⟨hreach, fun _ => hadv⟩⟩
  | some statement => exact ⟨hreach, fun _ => hadv⟩

/-- A block is over when the input is. -/
theorem blockItem_of_ahead_eq_nil {p : Parser} (hp : p.Steady) (h : p.ahead = []) :
    blockItem nested p = .done none p := by
  have heof : endsBlock p.current.kind = true := by
    rw [Parser.current, h, List.headD_nil, hp.kind]
    rfl
  show (if endsBlock p.current.kind = true then pure none else _ : Parse _) p = _
  rw [if_pos heof]
  rfl

theorem ends_block (hn : nested.Ends n) : Ends (n + 1) (block nested) := by
  refine Ends.logged (fun p hp hlt => ?_) _
  rw [meets_bind, meets_current]
  have hrest : Ends n (bounded (many (blockItem nested)) >>= fun items =>
      pure (Block.mk p.current (items.filterMap id))) :=
    (ends_blockItems hn).bind fun _ => ends_pure _
  by_cases hne : p.ahead = []
  · -- at the end of the input there is no item, and nothing nested is needed
    have hadv : p.advance.ahead = [] := by rw [Parser.ahead_advance, hne, List.tail_nil]
    have hitem := @blockItem_of_ahead_eq_nil nested p.advance
      (hp.of_reaches p.reaches_advance) hadv
    rw [meets_bind, meets_advance, meets_bind, meets_bounded, many_succ, hitem]
    exact p.reaches_advance
  · exact hrest.of_advance hp hne (Nat.le_of_lt_succ hlt)

theorem ends_programItems (hn : nested.Ends n) : Ends n (bounded (many (programItem nested))) := by
  apply ends_many
  intro p hp hlt
  rw [programItem, meets_bind, meets_current, meets_ite]
  refine ⟨fun _ => ⟨.refl p, by simp⟩, fun hopen => ?_⟩
  have hne : p.ahead ≠ [] := hp.ahead_ne_nil hopen
  refine meets_bind.mpr ((ends_statement hn p hp hlt).imp (fun result q hq => ?_)
    (fun _ hq => hq) id)
  exact ⟨hq.trans q.reaches_advance, fun _ => Parser.length_advance_lt_of_reaches hne hq⟩

/-- A statement does not fail: what cannot be read is skipped. -/
theorem statement_meets (nested : Nested) (p : Parser) :
    (statement nested p).Meets (fun _ _ => True) (fun _ => False) True := by
  simp only [statement, meets_logged, meets_bind, meets_get, meets_attempt]
  cases statementForm _ nested _ <;> trivial

/-- A program does not fail either, and is over at the end of the input. -/
theorem program_meets (nested : Nested) (p : Parser) :
    (program nested p).Meets (fun _ q => q.current.kind = .eof) (fun _ => False) True := by
  refine meets_bind.mpr (meets_bounded.mpr ?_)
  refine (meets_many (I := fun _ _ => True) (D := fun _ q => q.current.kind = .eof)
    (fun _ q _ => ?_) trivial).imp (fun _ _ h => h) (fun _ h => h) id
  rw [programItem, meets_bind, meets_current, meets_ite]
  exact ⟨fun heof => heof, fun _ => meets_bind.mpr
    ((statement_meets nested q).imp (fun _ _ _ => trivial) (fun _ h => h) id)⟩

end Rule

/-! ## Runs that end -/

/-- **A depth above the number of tokens left is enough.** -/
theorem Nested.ends_level (n : Nat) : (level n).Ends n := by
  induction n with
  | zero =>
      exact ⟨fun _ _ _ h => absurd h (Nat.not_lt_zero _), fun _ _ h => absurd h (Nat.not_lt_zero _)⟩
  | succ n ih => exact ⟨Rule.ends_expression ih, Rule.ends_block ih⟩

/-- **A whole program is read to its end.** -/
theorem Rule.exists_program_eq_done {p : Parser} (hp : p.Steady) :
    ∃ program q, Rule.program.run p = .done program q ∧ p.Reaches q ∧ q.current.kind = .eof := by
  have hends : Ends (p.ahead.length + 2) (Rule.program (Nested.level (p.ahead.length + 2))) :=
    (Rule.ends_programItems (Nested.ends_level _)).bind fun _ => ends_pure _
  have hdone := hends p hp (by omega)
  have hnofail := Rule.program_meets (Nested.level (p.ahead.length + 2)) p
  show ∃ program q, Rule.program (Nested.level (p.ahead.length + 2)) p = .done program q ∧ _
  cases h : Rule.program (Nested.level (p.ahead.length + 2)) p with
  | done program q =>
      rw [h] at hdone hnofail
      exact ⟨program, q, rfl, hdone, hnofail⟩
  | failed q =>
      rw [h] at hnofail
      exact hnofail.elim
  | exhausted =>
      rw [h] at hdone
      exact hdone.elim

end ExprLang
