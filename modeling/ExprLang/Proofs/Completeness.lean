/-
# Completeness

What the grammar derives is read without an error, as the tree of the
derivation.  The induction is on the derivation.  An expression on the left of an
operator is read by the loop that goes on with the operator, so what is shown of
an expression is that the run comes to the point where the loop has it in hand
(`Phrase.Read`).  Main statements: `Derives.read` and `Rule.program_complete`.
-/
import ExprLang.Proofs.Window

namespace ExprLang

variable {α β : Type}

/-! ## Runs that add no error -/

namespace Parser

variable {p q r : Parser}

/-- A state behind `p` without a further error. -/
structure Passes (p q : Parser) : Prop where
  regular : q.Regular
  errors : q.errors = p.errors

theorem Passes.refl (hp : p.Regular) : p.Passes p :=
  ⟨hp, rfl⟩

theorem Passes.advance (h : p.Passes q) : p.Passes q.advance :=
  ⟨h.regular.advance, h.errors⟩

theorem Passes.trans (h : p.Passes q) (h' : q.Passes r) : p.Passes r :=
  ⟨h'.regular, h'.errors.trans h.errors⟩

/-- A procedure gives a value without a further error, and leaves what is behind
its last token. -/
def Yields (p : Parser) (a : α) (rest : List Token) (o : Outcome α) : Prop :=
  o.Meets (fun b q => b = a ∧ p.Passes q ∧ q.ahead.tail = rest) (fun _ => False) True

end Parser

/-- Tokens that do not go on with an expression read under a floor. -/
def Follows (floor : Precedence) (rest : List Token) : Prop :=
  ∀ t ∈ rest.head?, ¬ floor < t.kind.strength ∧ t.kind ≠ .kwEl

namespace Parse

variable {p q : Parser} {D : β → Parser → Prop}

/-- A sequence goes on with what its first part yields. -/
theorem meets_bind_of_yields {m : Parse α} {f : α → Parse β} {a : α} {ts : List Token}
    (hm : p.Yields a ts (m p))
    (hf : ∀ q, p.Passes q → q.ahead.tail = ts → (f a q).Meets D (fun _ => False) True) :
    ((m >>= f) p).Meets D (fun _ => False) True := by
  refine meets_bind.mpr (hm.imp (fun b q hq => ?_) (fun _ h => h) id)
  obtain ⟨rfl, hpass, hahead⟩ := hq
  exact hf q hpass hahead

end Parse

namespace Parser

variable {p q : Parser}

/-- An expression ends in front of what does not go on with it. -/
theorem Regular.not_lt_of_follows (hp : p.Regular) {floor : Precedence}
    (h : Follows floor p.ahead.tail) : ¬ floor < p.peek.kind.strength := by
  cases hts : p.ahead.tail with
  | nil =>
      have heof : p.peek.kind = .eof := hp.advance.ahead_eq_nil_iff.mp hts
      rw [heof]
      exact Nat.not_lt_zero _
  | cons t ts =>
      rw [peek_of_tail_eq hts]
      exact (h t (by rw [hts]; rfl)).1

end Parser

/-- An expected token that is there becomes the current one. -/
theorem Parse.meets_expect_bind_of_tail_eq {p : Parser} {D : β → Parser → Prop} {kind : Token.Kind}
    {f : Token → Parse β} {t : Token} {ts : List Token} (hts : p.ahead.tail = t :: ts)
    (ht : t.kind = kind)
    (hf : p.advance.ahead.tail = ts → (f t p.advance).Meets D (fun _ => False) True) :
    ((expect kind >>= f) p).Meets D (fun _ => False) True := by
  have hpeek := Parser.peek_of_tail_eq hts
  rw [meets_bind, meets_expect, hpeek]
  exact ⟨fun _ => hf (by rw [Parser.ahead_advance, hts]; rfl), fun h => absurd ht h⟩

/-! ## What is shown of a phrase -/

open Parse

/-- An item of a run of statements, and the tokens on which it is over: on
others it is a statement, behind which the next token is made current. -/
structure ItemReads (nested : Nested) (ends : Token.Kind → Prop)
    (item : Parse (Option (Option Stmt))) : Prop where
  stops : ∀ {p : Parser}, p.Regular → ends p.current.kind → item p = .done none p
  statement : ∀ {p : Parser} {s : Stmt} {rest : List Token}, ¬ ends p.current.kind →
    p.Yields (some s) rest (Rule.statement nested p) →
      (item p).Meets (fun next q => next = some (some s) ∧ p.Passes q ∧ q.ahead = rest)
        (fun _ => False) True

/-- What is shown of a phrase with some tokens and others behind it, at every
depth of nesting.  For an expression: if the loop over operators goes well from
where it has the expression in hand, then the run that reads the expression goes
well. -/
def Phrase.Read : Phrase → List Token → List Token → Prop
  | .expr level e, ts, rest => ∀ (n : Nat) (floor : Precedence) (p : Parser)
      (D : Expr → Parser → Prop), p.Regular → p.ahead = ts → floor.Admits level →
      Follows level rest →
      (∀ (q : Parser) (bound : Nat), p.Passes q → q.ahead.tail = rest →
        (iterate (fun left => Rule.continue? floor left (.level n)) bound e q).Meets D
          (fun _ => False) True) →
      (Rule.expression floor (.level n) p).Meets D (fun _ => False) True
  | .arguments es, ts, rest => ∀ (n : Nat) (p : Parser), p.Regular → p.ahead.tail = ts →
      p.Yields es rest (Rule.arguments (.level n) p)
  | .furtherArguments es, ts, rest => ∀ (n bound : Nat) (p : Parser), p.Regular →
      p.ahead.tail = ts →
      (many (Rule.furtherArgument (.level n)) bound p).Meets
        (fun fs q => fs = es ∧ p.Passes q ∧
          ∃ closing, closing.kind = .closeParen ∧ q.ahead.tail = closing :: rest)
        (fun _ => False) True
  | .alternative b, ts, rest => ∀ (n : Nat) (p : Parser), p.Regular → p.ahead.tail = ts →
      (∀ t ∈ rest.head?, t.kind ≠ .kwEl) → p.Yields b rest (Rule.alternative (.level n) p)
  | .statement s, ts, rest => ∀ (n : Nat) (p : Parser), p.Regular → p.ahead = ts →
      (∀ t ∈ rest.head?, t.kind ≠ .kwEl) → p.Yields (some s) rest (Rule.statement (.level n) p)
  | .statements ss, ts, rest => ∀ (n bound : Nat) (ends : Token.Kind → Prop)
      (item : Parse (Option (Option Stmt))) (p : Parser), p.Regular → p.ahead = ts →
      ItemReads (.level n) ends item → (∀ k, ends k → k = .closeCurly ∨ k = .eof) →
      (∀ q : Parser, q.Regular → q.ahead = rest → ends q.current.kind) →
      (∀ t ∈ rest.head?, t.kind = .closeCurly) →
      (many item bound p).Meets
        (fun items q => items = ss.map some ∧ p.Passes q ∧ q.ahead = rest) (fun _ => False) True
  | .block b, ts, rest => ∀ (n : Nat) (p : Parser), p.Regular → p.ahead.tail = ts →
      p.Yields b rest (Rule.bracedBlock (.level n) p)

namespace Phrase.Read

/-! ## Expressions in place -/

variable {e : Expr} {level floor : Precedence} {ts rest : List Token} {n : Nat} {p : Parser}

/-- The loop over operators stops in front of what does not go on with the
expression. -/
theorem meets_iterate_of_follows {D : Expr → Parser → Prop} {nested : Nested} {bound : Nat}
    (hp : p.Regular) (hrest : Follows floor p.ahead.tail) (hD : D e p) :
    (iterate (fun left => Rule.continue? floor left nested) bound e p).Meets D (fun _ => False)
      True := by
  cases bound with
  | zero => trivial
  | succ bound =>
      rw [meets_iterate_succ, Rule.continue?, meets_bind, meets_get,
        hp.continuation?_eq_none_iff.mpr (hp.not_lt_of_follows hrest)]
      exact hD

/-- A nested expression is read whole and nothing more. -/
theorem nested_expr (h : (Phrase.expr level e).Read ts rest) (hp : p.Regular) (hts : p.ahead = ts)
    (hfloor : floor.Admits level) (hrest : Follows floor rest) :
    p.Yields e rest ((Nested.level n).expr floor p) := by
  cases n with
  | zero => trivial
  | succ n =>
      refine h n floor p _ hp hts hfloor (fun t ht => ?_) fun q bound hq hahead => ?_
      · obtain ⟨hlt, hel⟩ := hrest t ht
        exact ⟨fun hlevel => hlt (hfloor _ (Nat.le_of_lt hlevel)), hel⟩
      · exact meets_iterate_of_follows hq.regular (by rwa [hahead]) ⟨rfl, hq, hahead⟩

/-- An expression that a leading form yields is what the loop over operators
starts with. -/
theorem of_leading {t : Token} (form : LeadingForm) (hform : t.kind ∈ form.kinds)
    (h : ∀ (n : Nat) (p : Parser), p.Regular → p.ahead = t :: ts → p.current = t →
      Follows level rest → p.Yields e rest (Rule.leading form (.level n) p)) :
    (Phrase.expr level e).Read (t :: ts) rest := by
  intro n floor p D hp hts _ hrest hloop
  have hcurrent := Parser.current_of_ahead_eq hts
  have hoperand : p.Yields e rest (Rule.operand (.level n) p) := by
    rw [Rule.operand, Parser.Yields, meets_bind, meets_current, meets_bind, meets_get,
      Parser.leadingForm?, hp.forms, hcurrent, Forms.leading_eq_some_iff.mpr hform]
    exact h n p hp hts hcurrent hrest
  apply meets_bind_of_yields hoperand
  intro q hq hahead
  exact meets_bounded.mpr (hloop q _ hq hahead)

theorem identifier {t : Token} (ht : t.kind = .identifier) :
    (Phrase.expr .call (.identifier ⟨t, t.text⟩)).Read (t :: rest) rest := by
  apply of_leading .identifier (List.mem_singleton.mpr ht)
  intro n p hp hts hcurrent _
  rw [Rule.leading, Rule.identifier, Parser.Yields, meets_bind, meets_current, hcurrent]
  exact ⟨rfl, .refl hp, by rw [hts]; rfl⟩

theorem integer {t : Token} (ht : t.kind = .integer)
    (hvalue : Text.decimalValue t.text.toList ≤ Text.maxInteger) :
    (Phrase.expr .call (.integer t (Text.decimalValue t.text.toList))).Read (t :: rest) rest := by
  apply of_leading .integer (List.mem_singleton.mpr ht)
  intro n p hp hts hcurrent _
  have hspells := hp.spelled t (by rw [hts]; exact List.mem_cons_self)
  rw [ht] at hspells
  obtain ⟨hne, hdigits⟩ := hspells.of_integer
  have hinteger := Text.integer?_eq_some_iff.mpr ⟨hne, hdigits, hvalue, rfl⟩
  rw [Rule.leading, Rule.integer, Parser.Yields, meets_bind, meets_current, hcurrent, hinteger]
  exact ⟨rfl, .refl hp, by rw [hts]; rfl⟩

theorem boolean {t : Token} (ht : t.kind = .kwTrue ∨ t.kind = .kwFalse) :
    (Phrase.expr .call (.boolean t (t.kind = .kwTrue))).Read (t :: rest) rest := by
  apply of_leading .boolean (by simpa [LeadingForm.kinds] using ht)
  intro n p hp hts hcurrent _
  rw [Rule.leading, Rule.boolean, Parser.Yields, meets_bind, meets_current, hcurrent]
  exact ⟨rfl, .refl hp, by rw [hts]; rfl⟩

theorem unary {t : Token} (ht : t.kind = .bang ∨ t.kind = .minus)
    (he : (Phrase.expr .unary e).Read ts rest) :
    (Phrase.expr .unary (.unary t t.text e)).Read (t :: ts) rest := by
  apply of_leading .unary (by simpa [LeadingForm.kinds] using ht)
  intro n p hp hts hcurrent hrest
  have htail : p.advance.ahead = ts := by rw [Parser.ahead_advance, hts]; rfl
  rw [Rule.leading, Rule.unary, Parser.Yields, meets_bind, meets_current, hcurrent, meets_bind,
    meets_advance]
  apply meets_bind_of_yields (he.nested_expr hp.advance htail
    (Precedence.admits_right (by simp)) hrest)
  intro q hq hahead
  exact ⟨rfl, (Parser.Passes.refl hp).advance.trans hq, hahead⟩

/-- What ends an expression between parentheses. -/
theorem follows_of_closeParen {closing : Token} (hclosing : closing.kind = .closeParen) :
    Follows .lowest (closing :: rest) := by
  intro t ht
  cases ht
  rw [hclosing]
  exact ⟨Nat.not_lt_zero _, by simp⟩

theorem grouping {opening closing : Token} (hopening : opening.kind = .openParen)
    (hclosing : closing.kind = .closeParen)
    (he : (Phrase.expr .equality e).Read ts (closing :: rest)) :
    (Phrase.expr .call e).Read (opening :: ts) rest := by
  apply of_leading .grouping (List.mem_singleton.mpr hopening)
  intro n p hp hts hcurrent _
  have htail : p.advance.ahead = ts := by rw [Parser.ahead_advance, hts]; rfl
  rw [Rule.leading, Rule.grouping, Parser.Yields, meets_bind, meets_advance]
  apply meets_bind_of_yields (he.nested_expr hp.advance htail
    (Precedence.admits_right (by simp)) (follows_of_closeParen hclosing))
  intro q hq hahead
  apply meets_expect_bind_of_tail_eq hahead hclosing
  intro hrest
  exact ⟨rfl, ((Parser.Passes.refl hp).advance.trans hq).advance, hrest⟩

theorem conditional {t opening closing : Token} {condition : Expr} {consequence : Block}
    {alternative : Option Block} {ts' ts'' : List Token} (ht : t.kind = .kwIf)
    (hopening : opening.kind = .openParen) (hclosing : closing.kind = .closeParen)
    (hcondition : (Phrase.expr .equality condition).Read ts (closing :: ts'))
    (hconsequence : (Phrase.block consequence).Read ts' ts'')
    (halternative : (Phrase.alternative alternative).Read ts'' rest) :
    (Phrase.expr .call (.conditional t condition consequence alternative)).Read
      (t :: opening :: ts) rest := by
  apply of_leading .conditional (List.mem_singleton.mpr ht)
  intro n p hp hts hcurrent hrest
  have htail : p.ahead.tail = opening :: ts := by rw [hts]; rfl
  rw [Rule.leading, Rule.conditional, Parser.Yields, meets_bind, meets_current, hcurrent]
  apply meets_expect_bind_of_tail_eq htail hopening
  intro htail
  have hpass := (Parser.Passes.refl hp).advance.advance
  rw [meets_bind, meets_advance]
  apply meets_bind_of_yields (hcondition.nested_expr hpass.regular htail
    (Precedence.admits_right (by simp)) (follows_of_closeParen hclosing))
  intro q hq hqts
  apply meets_expect_bind_of_tail_eq hqts hclosing
  intro hqts
  apply meets_bind_of_yields (hconsequence n q.advance hq.advance.regular hqts)
  intro r hr hrts
  apply meets_bind_of_yields (halternative n r hr.regular hrts fun u hu => (hrest u hu).2)
  intro s hs hsts
  exact ⟨rfl, (hpass.trans hq.advance).trans (hr.trans hs), hsts⟩

/-! ## Parameters -/

/-- A list of parameters behind the first is read up to its parenthesis. -/
theorem furtherParameters {names : List Identifier} (h : FurtherParameters names ts rest)
    (bound : Nat) (hp : p.Regular) (hts : p.ahead.tail = ts) :
    (many Rule.furtherParameter bound p).Meets
      (fun ns q => ns = names ∧ p.Passes q ∧
        ∃ closing, closing.kind = .closeParen ∧ q.ahead.tail = closing :: rest)
      (fun _ => False) True := by
  induction h generalizing bound p with
  | @nil closing rest hclosing =>
      -- a bound that cuts the loop short promises nothing
      cases bound with
      | zero => trivial
      | succ bound =>
          rw [meets_many_succ, Rule.furtherParameter, meets_bind, meets_peek, meets_ite,
            Parser.peek_of_tail_eq hts]
          refine ⟨fun hcomma => ?_, fun _ => ⟨rfl, .refl hp, closing, hclosing, hts⟩⟩
          rw [hclosing] at hcomma
          cases hcomma
  | @cons comma name names ts rest hcomma hname _ ih =>
      cases bound with
      | zero => trivial
      | succ bound =>
          rw [meets_many_succ, Rule.furtherParameter, meets_bind, meets_peek, meets_ite,
            Parser.peek_of_tail_eq hts]
          refine ⟨fun _ => ?_, fun h => absurd hcomma h⟩
          have htail : p.advance.ahead.tail = name :: ts := by rw [Parser.ahead_advance, hts]; rfl
          rw [meets_bind, meets_advance, meets_map, Rule.parameter]
          apply meets_expect_bind_of_tail_eq htail hname
          intro htail
          have hpass := (Parser.Passes.refl hp).advance.advance
          refine (ih bound hpass.regular htail).imp (fun ns q hq => ?_) (fun _ h => h) id
          obtain ⟨rfl, hq, hclosing⟩ := hq
          exact ⟨rfl, hpass.trans hq, hclosing⟩

theorem parameters {names : List Identifier} (h : Parameters names ts rest) (hp : p.Regular)
    (hts : p.ahead.tail = ts) : p.Yields names rest (Rule.parameters p) := by
  rw [Rule.parameters, Parser.Yields, meets_bind, meets_peek, meets_ite]
  cases h with
  | @nil closing rest hclosing =>
      rw [Parser.peek_of_tail_eq hts]
      refine ⟨fun _ => ?_, fun h => absurd hclosing h⟩
      exact ⟨rfl, (Parser.Passes.refl hp).advance, by rw [Parser.ahead_advance, hts]; rfl⟩
  | @cons name names ts rest hname hnames =>
      rw [Parser.peek_of_tail_eq hts]
      refine ⟨fun h => absurd (hname.symm.trans h) (by simp), fun _ => ?_⟩
      rw [Rule.parameter, meets_bind]
      apply meets_expect_bind_of_tail_eq hts hname
      intro htail
      have hpass := (Parser.Passes.refl hp).advance
      rw [meets_pure, meets_bind, meets_bounded]
      refine (furtherParameters hnames _ hpass.regular htail).imp (fun ns q hq => ?_)
        (fun _ h => h) id
      obtain ⟨rfl, hq, closing, hclosing, hqts⟩ := hq
      apply meets_expect_bind_of_tail_eq hqts hclosing
      intro hqts
      exact ⟨rfl, hpass.trans hq.advance, hqts⟩

theorem function {t opening : Token} {names : List Identifier} {body : Block}
    {ts' : List Token} (ht : t.kind = .kwFn) (hopening : opening.kind = .openParen)
    (hnames : Parameters names ts ts') (hbody : (Phrase.block body).Read ts' rest) :
    (Phrase.expr .call (.function t names body)).Read (t :: opening :: ts) rest := by
  apply of_leading .function (List.mem_singleton.mpr ht)
  intro n p hp hts hcurrent _
  have htail : p.ahead.tail = opening :: ts := by rw [hts]; rfl
  rw [Rule.leading, Rule.function, Parser.Yields, meets_bind, meets_current, hcurrent]
  apply meets_expect_bind_of_tail_eq htail hopening
  intro htail
  have hpass := (Parser.Passes.refl hp).advance
  apply meets_bind_of_yields (parameters hnames hpass.regular htail)
  intro q hq hqts
  apply meets_bind_of_yields (hbody n q hq.regular hqts)
  intro r hr hrts
  exact ⟨rfl, hpass.trans (hq.trans hr), hrts⟩

/-! ## Trailing forms -/

/-- A round of the loop over operators, by the form of the next token. -/
theorem meets_continue?_of_trailing {D : Option Expr → Parser → Prop} {nested : Nested}
    (hp : p.Regular) {t : Token} {form : TrailingForm} (hts : p.ahead.tail = t :: ts)
    (hfloor : floor < t.kind.strength) (hform : Forms.standard.trailing t.kind = some form)
    (h : (Rule.trailing form e nested p.advance).Meets (fun e => D (some e)) (fun _ => False)
      True) :
    (Rule.continue? floor e nested p).Meets D (fun _ => False) True := by
  have hcontinue : Rule.continuation? floor p = some form := by
    rw [hp.continuation?_eq, Parser.peek_of_tail_eq hts, if_pos hfloor, hform]
  rw [Rule.continue?, meets_bind, meets_get, hcontinue, meets_bind, meets_advance, meets_map]
  exact h

theorem call {opening : Token} {es : List Expr} {ts' : List Token}
    (hopening : opening.kind = .openParen) (he : (Phrase.expr .call e).Read ts (opening :: ts'))
    (hes : (Phrase.arguments es).Read ts' rest) :
    (Phrase.expr .call (.call opening e es)).Read ts rest := by
  intro n floor p D hp hts hfloor _ hloop
  have hstrength : opening.kind.strength = .call := by rw [hopening]; rfl
  -- the callee is read in earlier rounds of the same loop, the arguments in one more
  refine he n floor p D hp hts hfloor (fun t ht => ?_) fun q bound hq hqts => ?_
  · cases ht
    exact ⟨Precedence.not_call_lt _, by rw [hopening]; simp⟩
  · cases bound with
    | zero => trivial
    | succ bound =>
        have hlt : floor < opening.kind.strength := hfloor _ (by rw [hstrength])
        have htrailing : Forms.standard.trailing opening.kind = some .call := by rw [hopening]; rfl
        have htail : q.advance.ahead.tail = ts' := by rw [Parser.ahead_advance, hqts]; rfl
        rw [meets_iterate_succ]
        refine meets_continue?_of_trailing hq.regular hqts hlt htrailing ?_
        rw [Rule.trailing, Rule.call, meets_bind, meets_current, Parser.current_advance,
          Parser.peek_of_tail_eq hqts]
        apply meets_bind_of_yields (hes n q.advance hq.advance.regular htail)
        intro r hr hrts
        exact hloop r bound (hq.advance.trans hr) hrts

theorem binary {t : Token} {left right : Expr} {ts' : List Token}
    (hbinary : t.kind.strength.IsBinary)
    (hleft : (Phrase.expr t.kind.strength left).Read ts (t :: ts'))
    (hright : (Phrase.expr t.kind.strength.right right).Read ts' rest) :
    (Phrase.expr t.kind.strength (.binary t t.text left right)).Read ts rest := by
  intro n floor p D hp hts hfloor hrest hloop
  have hne : t.kind.strength ≠ .call := by
    intro h
    rw [h] at hbinary
    exact absurd hbinary (by decide)
  -- the left operand is read in earlier rounds of the same loop
  refine hleft n floor p D hp hts hfloor (fun u hu => ?_) fun q bound hq hqts => ?_
  · cases hu
    refine ⟨Nat.lt_irrefl _, fun hel => ?_⟩
    rw [hel] at hbinary
    exact absurd hbinary (by decide)
  · cases bound with
    | zero => trivial
    | succ bound =>
        have hlt : floor < t.kind.strength := hfloor _ (Nat.le_refl _)
        have htail : q.advance.advance.ahead = ts' := by
          rw [Parser.ahead_advance, Parser.ahead_advance, hqts]; rfl
        rw [meets_iterate_succ]
        refine meets_continue?_of_trailing hq.regular hqts hlt
          (Forms.trailing_eq_binary_iff.mpr hbinary) ?_
        rw [Rule.trailing, Rule.binary, meets_bind, meets_current, Parser.current_advance,
          hq.regular.precedence_peek, Parser.peek_of_tail_eq hqts, meets_bind, meets_advance]
        apply meets_bind_of_yields (hright.nested_expr hq.advance.advance.regular htail
          (Precedence.admits_right hne) hrest)
        intro r hr hrts
        exact hloop r bound (hq.advance.advance.trans hr) hrts

/-- On a looser level an expression is read as on a tighter one. -/
theorem loosen {k : Precedence} (hle : k.rank ≤ level.rank)
    (he : (Phrase.expr level e).Read ts rest) :
    (Phrase.expr k e).Read ts rest := by
  intro n floor p D hp hts hfloor hrest hloop
  refine he n floor p D hp hts (hfloor.of_le hle) (fun t ht => ?_) hloop
  obtain ⟨hlt, hel⟩ := hrest t ht
  exact ⟨fun h => hlt (Nat.lt_of_le_of_lt hle h), hel⟩

/-! ## Arguments -/

/-- What ends an argument. -/
theorem follows_of_comma {comma : Token} (hcomma : comma.kind = .comma) :
    Follows .lowest (comma :: rest) := by
  intro t ht
  cases ht
  rw [hcomma]
  exact ⟨Nat.not_lt_zero _, by simp⟩

theorem noArguments {closing : Token} (hclosing : closing.kind = .closeParen) :
    (Phrase.arguments []).Read (closing :: rest) rest := by
  intro n p hp hts
  rw [Rule.arguments, Parser.Yields, meets_bind, meets_peek, meets_ite, Parser.peek_of_tail_eq hts]
  refine ⟨fun _ => ?_, fun h => absurd hclosing h⟩
  exact ⟨rfl, (Parser.Passes.refl hp).advance, by rw [Parser.ahead_advance, hts]; rfl⟩

theorem arguments {es : List Expr} {ts' : List Token} (he : (Phrase.expr .equality e).Read ts ts')
    (hstart : ∃ t us, ts = t :: us ∧ t.kind ≠ .closeParen) (hfollows : Follows .lowest ts')
    (hes : (Phrase.furtherArguments es).Read ts' rest) :
    (Phrase.arguments (e :: es)).Read ts rest := by
  intro n p hp hts
  obtain ⟨t, us, rfl, ht⟩ := hstart
  rw [Rule.arguments, Parser.Yields, meets_bind, meets_peek, meets_ite, Parser.peek_of_tail_eq hts]
  refine ⟨fun h => absurd h ht, fun _ => ?_⟩
  have hpass := (Parser.Passes.refl hp).advance
  rw [meets_bind, meets_advance]
  apply meets_bind_of_yields (he.nested_expr hpass.regular hts
    (Precedence.admits_right (by simp)) hfollows)
  intro q hq hqts
  rw [meets_bind, meets_bounded]
  refine (hes n _ q hq.regular hqts).imp (fun fs r hr => ?_) (fun _ h => h) id
  obtain ⟨rfl, hr, closing, hclosing, hrts⟩ := hr
  apply meets_expect_bind_of_tail_eq hrts hclosing
  intro hrts
  exact ⟨rfl, hpass.trans (hq.trans hr.advance), hrts⟩

theorem noFurtherArguments {closing : Token} (hclosing : closing.kind = .closeParen) :
    (Phrase.furtherArguments []).Read (closing :: rest) rest := by
  intro n bound p hp hts
  cases bound with
  | zero => trivial
  | succ bound =>
      rw [meets_many_succ, Rule.furtherArgument, meets_bind, meets_peek, meets_ite,
        Parser.peek_of_tail_eq hts]
      refine ⟨fun hcomma => ?_, fun _ => ⟨rfl, .refl hp, closing, hclosing, hts⟩⟩
      rw [hclosing] at hcomma
      cases hcomma

theorem furtherArguments {comma : Token} {es : List Expr} {ts' : List Token}
    (hcomma : comma.kind = .comma) (he : (Phrase.expr .equality e).Read ts ts')
    (hfollows : Follows .lowest ts') (hes : (Phrase.furtherArguments es).Read ts' rest) :
    (Phrase.furtherArguments (e :: es)).Read (comma :: ts) rest := by
  intro n bound p hp hts
  cases bound with
  | zero => trivial
  | succ bound =>
      rw [meets_many_succ, Rule.furtherArgument, meets_bind, meets_peek, meets_ite,
        Parser.peek_of_tail_eq hts]
      refine ⟨fun _ => ?_, fun h => absurd hcomma h⟩
      have hpass := (Parser.Passes.refl hp).advance.advance
      have htail : p.advance.advance.ahead = ts := by
        rw [Parser.ahead_advance, Parser.ahead_advance, hts]; rfl
      rw [meets_bind, meets_advance, meets_bind, meets_advance, meets_map]
      refine (he.nested_expr hpass.regular htail (Precedence.admits_right (by simp)) hfollows).imp
        (fun f q hq => ?_) (fun _ h => h) id
      obtain ⟨rfl, hq, hqts⟩ := hq
      refine (hes n bound q hq.regular hqts).imp (fun fs r hr => ?_) (fun _ h => h) id
      obtain ⟨rfl, hr, hclosing⟩ := hr
      exact ⟨rfl, hpass.trans (hq.trans hr), hclosing⟩

/-! ## Blocks -/

theorem noAlternative : (Phrase.alternative none).Read rest rest := by
  intro n p hp hts hrest
  rw [Rule.alternative, Parser.Yields, meets_bind, meets_peek, meets_ite]
  refine ⟨fun hel => ?_, fun _ => ⟨rfl, .refl hp, hts⟩⟩
  have htail := hp.tail_eq_cons (by rw [hel]; simp)
  rw [hts] at htail
  exact absurd hel (hrest p.peek (by rw [htail]; rfl))

theorem alternative {t : Token} {b : Block} (ht : t.kind = .kwEl)
    (hb : (Phrase.block b).Read ts rest) : (Phrase.alternative (some b)).Read (t :: ts) rest := by
  intro n p hp hts _
  rw [Rule.alternative, Parser.Yields, meets_bind, meets_peek, meets_ite,
    Parser.peek_of_tail_eq hts]
  refine ⟨fun _ => ?_, fun h => absurd ht h⟩
  have hpass := (Parser.Passes.refl hp).advance
  rw [meets_bind, meets_advance, meets_map]
  refine (hb n p.advance hpass.regular (by rw [Parser.ahead_advance, hts]; rfl)).imp
    (fun c q hq => ?_) (fun _ h => h) id
  obtain ⟨rfl, hq, hqts⟩ := hq
  exact ⟨rfl, hpass.trans hq, hqts⟩

/-! ## Statements -/

/-- What ends a statement does not go on with its expression. -/
theorem follows_of_terminated {ts' : List Token} (hend : Terminated ts' rest)
    (hrest : ∀ t ∈ rest.head?, t.kind ≠ .kwEl) : Follows .lowest ts' := by
  cases hend with
  | semicolon ht =>
      intro t h
      cases h
      rw [ht]
      exact ⟨Nat.not_lt_zero _, by simp⟩
  | bare hbare =>
      intro t h
      rw [(hbare t h).2]
      exact ⟨Nat.not_lt_zero _, hrest t h⟩

/-- The semicolon that ends a statement is passed. -/
theorem optional_semicolon {ts' : List Token} (hend : Terminated ts' rest) (hp : p.Regular)
    (hts : p.ahead.tail = ts') : p.Yields () rest (optional .semicolon p) := by
  rw [Parser.Yields, meets_optional]
  cases hend with
  | semicolon ht =>
      rw [Parser.peek_of_tail_eq hts]
      refine ⟨fun _ => ?_, fun h => absurd ht h⟩
      exact ⟨rfl, (Parser.Passes.refl hp).advance, by rw [Parser.ahead_advance, hts]; rfl⟩
  | bare hbare =>
      refine ⟨fun hsemicolon => ?_, fun _ => ⟨rfl, .refl hp, hts⟩⟩
      have htail := hp.tail_eq_cons (by rw [hsemicolon]; simp)
      rw [hts] at htail
      exact absurd hsemicolon (hbare p.peek (by rw [htail]; rfl)).1

/-- A statement is read by the form of its first token, and logged. -/
theorem of_statementForm {s : Stmt} {t : Token} (form : StatementForm)
    (hform : (Forms.standard.statement t.kind).getD .expression = form)
    (h : ∀ (n : Nat) (p : Parser), p.Regular → p.ahead = t :: ts → p.current = t →
      (∀ u ∈ rest.head?, u.kind ≠ .kwEl) →
      p.Yields s rest (Rule.statementForm form (.level n) p)) :
    (Phrase.statement s).Read (t :: ts) rest := by
  intro n p hp hts hrest
  have hcurrent := Parser.current_of_ahead_eq hts
  have hforms : Parser.statementForm { p with visits := [] } = form := by
    rw [← hform, ← hcurrent, ← hp.forms]
    rfl
  rw [Rule.statement, Parser.Yields, meets_logged, meets_bind, meets_get, meets_bind,
    meets_attempt, hforms]
  refine (h n { p with visits := [] } (hp.withVisits []) hts hcurrent hrest).imp
    (fun s q hq => ?_) (fun _ h => h.elim) id
  obtain ⟨rfl, hq, hqts⟩ := hq
  exact ⟨rfl, ⟨hq.regular.withVisits _, hq.errors⟩, hqts⟩

theorem binding {t name assign : Token} {ts' : List Token} (ht : t.kind = .atSign)
    (hname : name.kind = .identifier) (hassign : assign.kind = .assign)
    (he : (Phrase.expr .equality e).Read ts ts') (hend : Terminated ts' rest) :
    (Phrase.statement (.binding t ⟨name, name.text⟩ e)).Read (t :: name :: assign :: ts) rest := by
  refine of_statementForm .binding (by rw [ht]; rfl) fun n p hp hts hcurrent hrest => ?_
  have htail : p.ahead.tail = name :: assign :: ts := by rw [hts]; rfl
  rw [Rule.statementForm, Rule.binding, Parser.Yields, meets_bind, meets_current, hcurrent]
  apply meets_expect_bind_of_tail_eq htail hname
  intro htail
  apply meets_expect_bind_of_tail_eq htail hassign
  intro htail
  have hpass := (Parser.Passes.refl hp).advance.advance.advance
  rw [meets_bind, meets_advance]
  apply meets_bind_of_yields (he.nested_expr hpass.regular htail (Precedence.admits_right (by simp))
    (follows_of_terminated hend hrest))
  intro q hq hqts
  apply meets_bind_of_yields (optional_semicolon hend hq.regular hqts)
  intro r hr hrts
  exact ⟨rfl, hpass.trans (hq.trans hr), hrts⟩

theorem ret {t : Token} {ts' : List Token} (ht : t.kind = .kwRet)
    (hstart : ∃ u us, ts = u :: us ∧ Rule.endsReturn u.kind = false)
    (he : (Phrase.expr .equality e).Read ts ts') (hend : Terminated ts' rest) :
    (Phrase.statement (.ret t (some e))).Read (t :: ts) rest := by
  refine of_statementForm .ret (by rw [ht]; rfl) fun n p hp hts hcurrent hrest => ?_
  obtain ⟨u, us, rfl, hu⟩ := hstart
  have htail : p.ahead.tail = u :: us := by rw [hts]; rfl
  rw [Rule.statementForm, Rule.ret, Parser.Yields, meets_bind, meets_current, hcurrent,
    Rule.returnedValue, meets_bind, meets_bind, meets_peek, meets_ite, Parser.peek_of_tail_eq htail,
    hu]
  refine ⟨fun h => absurd h (by simp), fun _ => ?_⟩
  have hpass := (Parser.Passes.refl hp).advance
  rw [meets_bind, meets_advance, meets_map]
  refine (he.nested_expr hpass.regular htail (Precedence.admits_right (by simp))
    (follows_of_terminated hend hrest)).imp (fun f q hq => ?_) (fun _ h => h) id
  obtain ⟨rfl, hq, hqts⟩ := hq
  apply meets_bind_of_yields (optional_semicolon hend hq.regular hqts)
  intro r hr hrts
  exact ⟨rfl, hpass.trans (hq.trans hr), hrts⟩

theorem bareRet {t : Token} (ht : t.kind = .kwRet)
    (hnext : ∀ u ∈ ts.head?, u.kind = .semicolon ∨ u.kind = .closeCurly)
    (hend : Terminated ts rest) : (Phrase.statement (.ret t none)).Read (t :: ts) rest := by
  refine of_statementForm .ret (by rw [ht]; rfl) fun n p hp hts hcurrent _ => ?_
  have htail : p.ahead.tail = ts := by rw [hts]; rfl
  have hends : Rule.endsReturn p.peek.kind = true := by
    cases hcase : ts with
    | nil =>
        have heof : p.peek.kind = .eof := hp.advance.ahead_eq_nil_iff.mp (htail.trans hcase)
        rw [heof]
        rfl
    | cons u us =>
        rw [Parser.peek_of_tail_eq (htail.trans hcase)]
        rcases hnext u (by rw [hcase]; rfl) with h | h
        · rw [h]; rfl
        · rw [h]; rfl
  rw [Rule.statementForm, Rule.ret, Parser.Yields, meets_bind, meets_current, hcurrent,
    Rule.returnedValue, meets_bind, meets_bind, meets_peek, meets_ite, hends]
  refine ⟨fun _ => ?_, fun h => absurd rfl h⟩
  rw [meets_pure]
  apply meets_bind_of_yields (optional_semicolon hend hp htail)
  intro q hq hqts
  exact ⟨rfl, hq, hqts⟩

theorem expression {t : Token} {ts' : List Token} (hform : Forms.standard.statement t.kind = none)
    (he : (Phrase.expr .equality e).Read (t :: ts) ts') (hend : Terminated ts' rest) :
    (Phrase.statement (.expression t e)).Read (t :: ts) rest := by
  refine of_statementForm .expression (by rw [hform]; rfl) fun n p hp hts hcurrent hrest => ?_
  rw [Rule.statementForm, Rule.expressionStatement, Parser.Yields, meets_bind, meets_current,
    hcurrent]
  apply meets_bind_of_yields (he.nested_expr hp hts (Precedence.admits_right (by simp))
    (follows_of_terminated hend hrest))
  intro q hq hqts
  apply meets_bind_of_yields (optional_semicolon hend hq.regular hqts)
  intro r hr hrts
  exact ⟨rfl, hq.trans hr, hrts⟩

/-! ## Runs of statements -/

theorem noStatements : (Phrase.statements []).Read rest rest := by
  intro n bound ends item p hp hts hitem _ hover _
  cases bound with
  | zero => trivial
  | succ bound =>
      rw [meets_many_succ, hitem.stops hp (hover p hp hts)]
      exact ⟨rfl, .refl hp, hts⟩

theorem statements {s : Stmt} {ss : List Stmt} {ts' : List Token}
    (hs : (Phrase.statement s).Read ts ts') (hss : (Phrase.statements ss).Read ts' rest)
    (hstart : ∃ t us, ts = t :: us ∧ t.kind ≠ .closeCurly)
    (hnext : (∀ t ∈ rest.head?, t.kind = .closeCurly) → ∀ t ∈ ts'.head?, t.kind ≠ .kwEl) :
    (Phrase.statements (s :: ss)).Read ts rest := by
  intro n bound ends item p hp hts hitem hends hover hrest
  cases bound with
  | zero => trivial
  | succ bound =>
      obtain ⟨t, us, rfl, ht⟩ := hstart
      have hopen : ¬ ends p.current.kind := by
        intro h
        rcases hends _ h with h | h
        · rw [Parser.current_of_ahead_eq hts] at h
          exact ht h
        · rw [← hp.ahead_eq_nil_iff, hts] at h
          cases h
      rw [meets_many_succ]
      refine (hitem.statement hopen (hs n p hp hts (hnext hrest))).imp (fun next q hq => ?_)
        (fun _ h => h) id
      obtain ⟨rfl, hq, hqts⟩ := hq
      refine (hss n bound ends item q hq.regular hqts hitem hends hover hrest).imp
        (fun items r hr => ?_) (fun _ h => h) id
      obtain ⟨rfl, hr, hrts⟩ := hr
      exact ⟨rfl, hq.trans hr, hrts⟩

theorem itemReads_block (nested : Nested) :
    ItemReads nested (fun k => k = .closeCurly ∨ k = .eof) (Rule.blockItem nested) where
  stops {p} hp hends := by
    have hover : Rule.endsBlock p.current.kind = true := by simpa [Rule.endsBlock] using hends
    show (if Rule.endsBlock p.current.kind = true then pure none else _ : Parse _) p = _
    rw [if_pos hover]
    rfl
  statement {p s rest} hopen hs := by
    have hover : ¬ Rule.endsBlock p.current.kind = true := by simpa [Rule.endsBlock] using hopen
    rw [Rule.blockItem, meets_bind, meets_current, meets_ite]
    refine ⟨fun h => absurd h hover, fun _ => meets_bind.mpr (hs.imp (fun result q hq => ?_)
      (fun _ h => h) id)⟩
    obtain ⟨rfl, hq, hqts⟩ := hq
    exact ⟨rfl, hq.advance, hqts⟩

theorem itemReads_program (nested : Nested) :
    ItemReads nested (fun k => k = .eof) (Rule.programItem nested) where
  stops {p} hp hends := by
    show (if p.current.kind = .eof then pure none else _ : Parse _) p = _
    rw [if_pos hends]
    rfl
  statement {p s rest} hopen hs := by
    rw [Rule.programItem, meets_bind, meets_current, meets_ite]
    refine ⟨fun h => absurd h hopen, fun _ => meets_bind.mpr (hs.imp (fun result q hq => ?_)
      (fun _ h => h) id)⟩
    obtain ⟨rfl, hq, hqts⟩ := hq
    exact ⟨rfl, hq.advance, hqts⟩

theorem block {opening : Token} {ss : List Stmt} {ts' : List Token}
    (hopening : opening.kind = .openCurly) (hss : (Phrase.statements ss).Read ts ts')
    (hclosed : Closed ts' rest) : (Phrase.block (.mk opening ss)).Read (opening :: ts) rest := by
  intro n p hp hts
  apply meets_expect_bind_of_tail_eq hts hopening
  intro htail
  cases n with
  | zero => trivial
  | succ n =>
      have hpass := (Parser.Passes.refl hp).advance
      have hempty := (hpass.regular.withVisits []).advance
      rw [Nested.block_level_succ, Rule.block, meets_logged, meets_bind, meets_current, meets_bind,
        meets_advance, meets_bind, meets_bounded]
      refine (hss n _ _ _ _ hempty htail (itemReads_block _) (fun _ h => h) ?_ ?_).imp
        (fun items q hq => ?_) (fun _ h => h.elim) id
      · intro q hq hqts
        cases hclosed with
        | brace ht => exact .inl (by rw [Parser.current_of_ahead_eq hqts, ht])
        | input => exact .inr (hq.ahead_eq_nil_iff.mp hqts)
      · intro t ht
        cases hclosed with
        | brace hkind =>
            cases ht
            exact hkind
        | input => cases ht
      · obtain ⟨rfl, hq, hqts⟩ := hq
        refine ⟨?_, ⟨hq.regular.withVisits _, hq.errors⟩, ?_⟩
        · show Block.mk p.advance.current ((ss.map some).filterMap id) = _
          rw [Parser.current_advance, Parser.peek_of_tail_eq hts, List.filterMap_map]
          simp
        · show q.ahead.tail = rest
          rw [hqts]
          cases hclosed with
          | brace => rfl
          | input => rfl

end Phrase.Read

/-! ## From derivations to runs -/

namespace Derives

variable {ts rest : List Token}

/-- What follows an argument does not go on with it. -/
theorem follows_of_furtherArguments {es : List Expr} (h : Derives (.furtherArguments es) ts rest) :
    Follows .lowest ts := by
  cases h with
  | noFurtherArguments hclosing => exact Phrase.Read.follows_of_closeParen hclosing
  | furtherArguments hcomma => exact Phrase.Read.follows_of_comma hcomma

/-- An expression starts neither with a closing parenthesis nor with what ends a
return, and not as any other form of statement. -/
theorem exists_of_expr {level : Precedence} {e : Expr} (h : Derives (.expr level e) ts rest) :
    ∃ t us, ts = t :: us ∧ t.kind ≠ .closeParen ∧ Rule.endsReturn t.kind = false ∧
      Forms.standard.statement t.kind = none := by
  obtain ⟨t, us, form, rfl, hform⟩ := h.exists_leading
  refine ⟨t, us, rfl, ?_⟩
  refine ⟨?_, ?_, ?_⟩ <;> revert hform <;> cases t.kind <;> simp [Forms.standard, Rule.endsReturn]

/-- A statement starts neither with a closing brace nor with the keyword of a
second branch. -/
theorem exists_of_statement {s : Stmt} (h : Derives (.statement s) ts rest) :
    ∃ t us, ts = t :: us ∧ t.kind ≠ .closeCurly ∧ t.kind ≠ .kwEl := by
  obtain ⟨t, us, rfl, hstart⟩ := h.exists_start
  refine ⟨t, us, rfl, ?_, ?_⟩
  · intro ht
    rw [ht] at hstart
    rcases hstart with h | h <;> exact h rfl
  · intro ht
    rw [ht] at hstart
    rcases hstart with h | h <;> exact h rfl

theorem ne_kwEl_of_statements {ss : List Stmt} (h : Derives (.statements ss) ts rest)
    (hrest : ∀ t ∈ rest.head?, t.kind = .closeCurly) : ∀ t ∈ ts.head?, t.kind ≠ .kwEl := by
  intro t ht
  cases h with
  | noStatements =>
      rw [hrest t ht]
      simp
  | statements hs _ =>
      obtain ⟨u, us, rfl, -, hu⟩ := hs.exists_of_statement
      cases ht
      exact hu

/-- **What is derived is read**, without a further error and as the derived tree. -/
theorem read {φ : Phrase} (h : Derives φ ts rest) : φ.Read ts rest := by
  induction h with
  | identifier ht => exact .identifier ht
  | integer ht hvalue => exact .integer ht hvalue
  | boolean ht => exact .boolean ht
  | grouping hopening hclosing _ ih => exact .grouping hopening hclosing ih
  | conditional ht hopening hclosing _ _ _ ihcondition ihconsequence ihalternative =>
      exact .conditional ht hopening hclosing ihcondition ihconsequence ihalternative
  | function ht hopening hnames _ ih => exact .function ht hopening hnames ih
  | call hopening _ _ ihcallee ihes => exact .call hopening ihcallee ihes
  | applied _ ih => exact ih.loosen (by decide)
  | unary ht _ ih => exact .unary ht ih
  | operand _ _ ih => exact ih.loosen (Precedence.rank_le_right _)
  | binary hbinary _ _ ihleft ihright => exact .binary hbinary ihleft ihright
  | noArguments hclosing => exact .noArguments hclosing
  | arguments he hes ihe ihes =>
      obtain ⟨t, us, hts, ht, -⟩ := he.exists_of_expr
      exact .arguments ihe ⟨t, us, hts, ht⟩ hes.follows_of_furtherArguments ihes
  | noFurtherArguments hclosing => exact .noFurtherArguments hclosing
  | furtherArguments hcomma _ hes ihe ihes =>
      exact .furtherArguments hcomma ihe hes.follows_of_furtherArguments ihes
  | noAlternative => exact .noAlternative
  | alternative ht _ ih => exact .alternative ht ih
  | binding ht hname hassign _ hend ih => exact .binding ht hname hassign ih hend
  | ret ht hvalue hend ih =>
      obtain ⟨u, us, hts, -, hu, -⟩ := hvalue.exists_of_expr
      exact .ret ht ⟨u, us, hts, hu⟩ ih hend
  | bareRet ht hnext hend => exact .bareRet ht hnext hend
  | expression hvalue hend ih =>
      obtain ⟨u, us, hts, -, -, hu⟩ := hvalue.exists_of_expr
      cases hts
      exact .expression hu ih hend
  | noStatements => exact .noStatements
  | statements hs hss ihs ihss =>
      obtain ⟨t, us, hts, ht, -⟩ := hs.exists_of_statement
      exact .statements ihs ihss ⟨t, us, hts, ht⟩ hss.ne_kwEl_of_statements
  | block hopening _ hclosed ih => exact .block hopening ih hclosed

end Derives

/-- **A derived program is read** as it is derived. -/
theorem Rule.program_complete {program : Program} {p : Parser} (h : program.DerivedFrom p.ahead)
    (hp : p.Regular) (n : Nat) :
    (Rule.program (.level n) p).Meets (fun r q => r = program ∧ q.errors = p.errors)
      (fun _ => False) True := by
  rw [Rule.program, meets_bind, meets_bounded]
  refine (h.read n _ _ _ p hp rfl (Phrase.Read.itemReads_program _) (fun _ h => .inr h)
    (fun q hq hqts => hq.ahead_eq_nil_iff.mp hqts) (by simp)).imp (fun items q hq => ?_)
    (fun _ h => h) id
  obtain ⟨rfl, hq, -⟩ := hq
  refine ⟨?_, hq.errors⟩
  show (⟨(program.statements.map some).filterMap id⟩ : Program) = program
  rw [List.filterMap_map]
  simp

end ExprLang
