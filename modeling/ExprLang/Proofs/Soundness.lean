/-
# Soundness

What is read without an error is derived by the grammar.  A run that ends without
errors had none on the way (`Parser.Clears`), so that the derivations of its
parts can be put together from the front; the loop over operators keeps, with
what it has read, a level for it that the next token does not bind tighter than.
Main statements: `Nested.sound_level` (expressions and blocks) and
`Rule.program_sound` (whole programs).
-/
import ExprLang.Proofs.Window

namespace ExprLang

variable {α β : Type}

/-! ## Runs without errors -/

namespace Parser

variable {p q r : Parser} {G H K : Prop}

/-- A state behind `p` of which `G` is known unless there are errors in it.  If
there are none, there were none in `p`. -/
structure Clears (p : Parser) (G : Prop) (q : Parser) : Prop where
  regular : q.Regular
  clean : q.errors = [] → p.errors = [] ∧ G

/-- A state behind a failure: it has an error. -/
structure Stuck (q : Parser) : Prop where
  regular : q.Regular
  errors : q.errors ≠ []

theorem Clears.refl (hp : p.Regular) (hG : G) : p.Clears G p :=
  ⟨hp, fun h => ⟨h, hG⟩⟩

theorem Clears.advance (h : p.Clears G q) : p.Clears G q.advance :=
  ⟨h.regular.advance, h.clean⟩

/-- What is known of two stretches of a run is known of both together. -/
theorem Clears.trans (h : p.Clears G q) (h' : q.Clears H r) (hK : G → H → K) : p.Clears K r := by
  refine ⟨h'.regular, fun hr => ?_⟩
  obtain ⟨hq, hH⟩ := h'.clean hr
  obtain ⟨hp, hG⟩ := h.clean hq
  exact ⟨hp, hK hG hH⟩

theorem Clears.imp (h : p.Clears G q) (hK : G → K) : p.Clears K q :=
  ⟨h.regular, fun hq => (h.clean hq).imp_right hK⟩

theorem Regular.stuck_report (hp : p.Regular) (error : SyntaxError) : (p.report error).Stuck := by
  refine ⟨hp.of_reaches (p.reaches_report error), ?_⟩
  rw [errors_report]
  exact List.append_ne_nil_of_right_ne_nil _ (List.cons_ne_nil _ _)

end Parser

namespace Parse

variable {p q : Parser} {G : Prop} {D : β → Parser → Prop}

/-- Behind what is known of a run, a sequence adds what is known of its first part. -/
theorem meets_bind_of_clears {H : α → Parser → Prop} {m : Parse α} {f : α → Parse β}
    (hq : p.Clears G q) (hm : (m q).Meets (fun a r => q.Clears (H a r) r) Parser.Stuck True)
    (hf : ∀ a r, p.Clears (G ∧ H a r) r → (f a r).Meets D Parser.Stuck True) :
    ((m >>= f) q).Meets D Parser.Stuck True :=
  meets_bind.mpr (hm.imp (fun a r hr => hf a r (hq.trans hr And.intro)) (fun _ h => h) id)

/-- Behind what is known of a run, an expected token is the first one behind the
current token. -/
theorem meets_expect_bind_of_clears {kind : Token.Kind} (hkind : kind ≠ .eof)
    {f : Token → Parse β} (hq : p.Clears G q)
    (hf : q.peek.kind = kind → q.ahead.tail = q.peek :: q.advance.ahead.tail →
      p.Clears G q.advance → (f q.peek q.advance).Meets D Parser.Stuck True) :
    ((expect kind >>= f) q).Meets D Parser.Stuck True := by
  rw [meets_bind, meets_expect]
  refine ⟨fun h => ?_, fun _ => hq.regular.stuck_report _⟩
  exact hf h (hq.regular.tail_eq_cons (by rwa [h])) hq.advance

end Parse

/-- What is read by nested constructs is derived; behind an expression stands no
token that binds tighter than its floor. -/
structure Nested.Sound (nested : Nested) : Prop where
  expr : ∀ {floor : Precedence} {p : Parser}, floor ≠ .call → p.Regular →
    (nested.expr floor p).Meets
      (fun e q => p.Clears (Derives (.expr floor.right e) p.ahead q.ahead.tail ∧
        ¬ floor < q.peek.kind.strength) q) Parser.Stuck True
  block : ∀ {p : Parser}, p.Regular → p.current.kind = .openCurly →
    (nested.block p).Meets (fun b q => p.Clears (Derives (.block b) p.ahead q.ahead.tail) q)
      Parser.Stuck True

/-- An expression has been read from some tokens up to a state: it stands on a
level that the floor lets through, and what is next binds no tighter than that.
The loop over operators keeps this. -/
def Parser.HasRead (q : Parser) (ts : List Token) (floor : Precedence) (e : Expr) : Prop :=
  ∃ level : Precedence, floor.right.rank ≤ level.rank ∧
    Derives (.expr level e) ts q.ahead.tail ∧ ¬ level < q.peek.kind.strength

/-- An operand is let through by every floor under which operands are read. -/
theorem Parser.HasRead.of_unary {q : Parser} {ts : List Token} {floor : Precedence} {e : Expr}
    (h : q.HasRead ts .unary e) (hfloor : floor ≠ .call) : q.HasRead ts floor e := by
  obtain ⟨level, hlevel, he⟩ := h
  refine ⟨level, Nat.le_trans ?_ hlevel, he⟩
  cases floor <;> first | exact absurd rfl hfloor | decide

namespace Rule

open Parse

variable {nested : Nested} {p : Parser}

/-! ## Leading forms -/

theorem integer_sound (hp : p.Regular) (ht : p.current.kind = .integer) :
    (integer nested p).Meets
      (fun e q => p.Clears (Derives (.expr .call e) p.ahead q.ahead.tail) q) Parser.Stuck True := by
  rw [integer, meets_bind, meets_current]
  have hahead := hp.ahead_eq_cons (by rw [ht]; simp)
  cases hvalue : Text.integer? p.current.text with
  | none => exact hp.stuck_report _
  | some value =>
      obtain ⟨-, -, hle, rfl⟩ := Text.integer?_eq_some_iff.mp hvalue
      refine .refl hp ?_
      rw [hahead]
      exact .integer ht hle

theorem bracedBlock_sound (hn : nested.Sound) (hp : p.Regular) :
    (bracedBlock nested p).Meets
      (fun b q => p.Clears (Derives (.block b) p.ahead.tail q.ahead.tail) q) Parser.Stuck True := by
  apply meets_expect_bind_of_clears (by simp) (.refl hp trivial)
  intro hopening _ hq
  exact (hn.block hp.advance hopening).imp (fun b r hr => hq.trans hr fun _ h => h)
    (fun _ h => h) id

theorem alternative_sound (hn : nested.Sound) (hp : p.Regular) :
    (alternative nested p).Meets
      (fun b q => p.Clears (Derives (.alternative b) p.ahead.tail q.ahead.tail) q) Parser.Stuck
      True := by
  rw [alternative, meets_bind, meets_peek, meets_ite]
  refine ⟨fun hel => ?_, fun _ => .refl hp .noAlternative⟩
  rw [meets_bind, meets_advance, meets_map]
  refine (bracedBlock_sound hn hp.advance).imp (fun b q hq => ?_) (fun _ h => h) id
  apply (Parser.Clears.refl hp trivial).advance.trans hq
  intro _ hb
  rw [hp.tail_eq_cons (by rw [hel]; simp)]
  exact .alternative hel hb

theorem conditional_sound (hn : nested.Sound) (hp : p.Regular) (ht : p.current.kind = .kwIf) :
    (conditional nested p).Meets
      (fun e q => p.Clears (Derives (.expr .call e) p.ahead q.ahead.tail) q) Parser.Stuck True := by
  rw [conditional, meets_bind, meets_current]
  apply meets_expect_bind_of_clears (by simp) (.refl hp trivial)
  intro hopening htail hq
  have hahead := hp.ahead_eq_cons (by rw [ht]; simp)
  rw [htail] at hahead
  rw [meets_bind, meets_advance]
  apply meets_bind_of_clears hq.advance (hn.expr (by simp) hq.advance.regular)
  intro condition r hr
  apply meets_expect_bind_of_clears (by simp) hr
  intro hclosing htail hr
  apply meets_bind_of_clears hr (bracedBlock_sound hn hr.regular)
  intro consequence s hs
  rw [meets_bind]
  refine (alternative_sound hn hs.regular).imp (fun alternative t ht' => ?_) (fun _ h => h) id
  apply hs.trans ht'
  intro hparts halternative
  obtain ⟨⟨-, hcondition, -⟩, hconsequence⟩ := hparts
  rw [htail] at hcondition
  rw [hahead]
  exact .conditional ht hopening hclosing hcondition hconsequence halternative

/-! ## Parameters -/

/-- The parameters read so far come in front of those that follow. -/
theorem furtherParameters_sound (hp : p.Regular) :
    (bounded (many furtherParameter) p).Meets
      (fun names q => p.Clears (∀ ts rest, FurtherParameters ts q.ahead.tail rest →
        FurtherParameters (names ++ ts) p.ahead.tail rest) q) Parser.Stuck True := by
  -- whatever follows the names read so far is put behind them
  refine meets_bounded.mpr (meets_many (I := fun names q => p.Clears
    (∀ ts rest, FurtherParameters ts q.ahead.tail rest →
      FurtherParameters (names ++ ts) p.ahead.tail rest) q) (fun names q hq => ?_)
    (.refl hp fun _ _ h => h))
  rw [furtherParameter, meets_bind, meets_peek, meets_ite]
  refine ⟨fun hcomma => ?_, fun _ => hq⟩
  have htail := hq.regular.tail_eq_cons (by rw [hcomma]; simp)
  rw [meets_bind, meets_advance, meets_map, parameter]
  apply meets_expect_bind_of_clears (by simp) hq.advance
  intro hname htail' hr
  apply hr.imp
  intro hnames ts rest hts
  rw [List.append_assoc]
  apply hnames _ rest
  rw [htail, show q.ahead.tail.tail = q.advance.ahead.tail from rfl, htail']
  exact .cons hcomma hname hts

theorem parameters_sound (hp : p.Regular) :
    (parameters p).Meets
      (fun names q => p.Clears (Parameters names p.ahead.tail q.ahead.tail) q) Parser.Stuck
      True := by
  rw [parameters, meets_bind, meets_peek, meets_ite]
  constructor
  · intro hclosing
    rw [meets_bind, meets_advance]
    refine (Parser.Clears.refl hp ?_).advance
    rw [hp.tail_eq_cons (by rw [hclosing]; simp)]
    exact .nil hclosing
  · intro _
    rw [parameter, meets_bind]
    refine meets_expect_bind_of_clears (by simp) (.refl hp trivial) fun hname htail hq => ?_
    refine meets_bind_of_clears hq (furtherParameters_sound hq.regular) fun names r hr => ?_
    refine meets_expect_bind_of_clears (by simp) hr fun hclosing htail' hr => ?_
    refine hr.imp fun hparts => ?_
    have hnames := hparts.2 [] r.advance.ahead.tail (by rw [htail']; exact .nil hclosing)
    rw [List.append_nil] at hnames
    rw [htail]
    exact .cons hname hnames

theorem function_sound (hn : nested.Sound) (hp : p.Regular) (ht : p.current.kind = .kwFn) :
    (function nested p).Meets
      (fun e q => p.Clears (Derives (.expr .call e) p.ahead q.ahead.tail) q) Parser.Stuck True := by
  rw [function, meets_bind, meets_current]
  apply meets_expect_bind_of_clears (by simp) (.refl hp trivial)
  intro hopening htail hq
  have hahead := hp.ahead_eq_cons (by rw [ht]; simp)
  rw [htail] at hahead
  apply meets_bind_of_clears hq (parameters_sound hq.regular)
  intro names r hr
  rw [meets_bind]
  refine (bracedBlock_sound hn hr.regular).imp (fun body s hs => ?_) (fun _ h => h) id
  apply hr.trans hs
  intro hparts hbody
  rw [hahead]
  exact .function ht hopening hparts.2 hbody

/-- **A leading form** makes an operand of a call, or a prefix operation behind
which no call begins. -/
theorem leading_sound (hn : nested.Sound) (hp : p.Regular) {form : LeadingForm}
    (hform : p.current.kind ∈ form.kinds) :
    (leading form nested p).Meets
      (fun e q => p.Clears (q.HasRead p.ahead .unary e) q) Parser.Stuck True := by
  have heof : p.current.kind ≠ .eof := by
    intro heof
    rw [heof, ← Forms.leading_eq_some_iff] at hform
    cases hform
  have hahead := hp.ahead_eq_cons heof
  -- every form but a prefix operation stands on the level of calls
  have hcall : ∀ {e : Expr} {q : Parser}, Derives (.expr .call e) p.ahead q.ahead.tail →
      q.HasRead p.ahead .unary e :=
    fun he => ⟨.call, by decide, he, Precedence.not_call_lt _⟩
  cases form with
  | identifier =>
      refine .refl hp (hcall ?_)
      rw [hahead]
      exact .identifier (List.mem_singleton.mp hform)
  | integer =>
      exact (@integer_sound nested p hp (List.mem_singleton.mp hform)).imp
        (fun e q hq => hq.imp hcall) (fun _ h => h) id
  | boolean =>
      refine .refl hp (hcall ?_)
      rw [hahead]
      exact .boolean (by simpa [LeadingForm.kinds] using hform)
  | unary =>
      rw [leading, unary, meets_bind, meets_current, meets_bind, meets_advance, meets_bind]
      refine (hn.expr (by simp) hp.advance).imp (fun e q hq => ?_) (fun _ h => h) id
      refine (Parser.Clears.refl hp trivial).advance.trans hq fun _ he =>
        ⟨.unary, Nat.le_refl _, ?_, he.2⟩
      rw [hahead]
      exact .unary (by simpa [LeadingForm.kinds] using hform) he.1
  | grouping =>
      rw [leading, grouping, meets_bind, meets_advance]
      apply meets_bind_of_clears (Parser.Clears.refl hp trivial).advance
        (hn.expr (by simp) hp.advance)
      intro e q hq
      apply meets_expect_bind_of_clears (by simp) hq
      intro hclosing htail hr
      refine hr.imp fun hparts => hcall ?_
      have he := hparts.2.1
      rw [htail] at he
      rw [hahead]
      exact .grouping (List.mem_singleton.mp hform) hclosing he
  | conditional =>
      exact (conditional_sound hn hp (List.mem_singleton.mp hform)).imp
        (fun e q hq => hq.imp hcall) (fun _ h => h) id
  | function =>
      exact (function_sound hn hp (List.mem_singleton.mp hform)).imp
        (fun e q hq => hq.imp hcall) (fun _ h => h) id

/-! ## Trailing forms -/

/-- The arguments read so far come in front of those that follow. -/
theorem furtherArguments_sound (hn : nested.Sound) (hp : p.Regular) :
    (bounded (many (furtherArgument nested)) p).Meets
      (fun es q => p.Clears (∀ fs rest, Derives (.furtherArguments fs) q.ahead.tail rest →
        Derives (.furtherArguments (es ++ fs)) p.ahead.tail rest) q) Parser.Stuck True := by
  -- whatever follows the arguments read so far is put behind them
  refine meets_bounded.mpr (meets_many (I := fun es q => p.Clears
    (∀ fs rest, Derives (.furtherArguments fs) q.ahead.tail rest →
      Derives (.furtherArguments (es ++ fs)) p.ahead.tail rest) q) (fun es q hq => ?_)
    (.refl hp fun _ _ h => h))
  rw [furtherArgument, meets_bind, meets_peek, meets_ite]
  refine ⟨fun hcomma => ?_, fun _ => hq⟩
  have htail := hq.regular.tail_eq_cons (by rw [hcomma]; simp)
  rw [meets_bind, meets_advance, meets_bind, meets_advance, meets_map]
  refine (hn.expr (by simp) hq.advance.advance.regular).imp (fun e r hr => ?_) (fun _ h => h) id
  apply hq.advance.advance.trans hr
  intro hes he fs rest hfs
  rw [List.append_assoc]
  apply hes _ rest
  rw [htail]
  exact .furtherArguments hcomma he.1 hfs

theorem arguments_sound (hn : nested.Sound) (hp : p.Regular) :
    (arguments nested p).Meets
      (fun es q => p.Clears (Derives (.arguments es) p.ahead.tail q.ahead.tail) q) Parser.Stuck
      True := by
  rw [arguments, meets_bind, meets_peek, meets_ite]
  constructor
  · intro hclosing
    rw [meets_bind, meets_advance]
    refine (Parser.Clears.refl hp ?_).advance
    rw [hp.tail_eq_cons (by rw [hclosing]; simp)]
    exact .noArguments hclosing
  · intro _
    rw [meets_bind, meets_advance]
    refine meets_bind_of_clears (Parser.Clears.refl hp trivial).advance
      (hn.expr (by simp) hp.advance) fun e q hq => ?_
    refine meets_bind_of_clears hq (furtherArguments_sound hn hq.regular) fun es r hr => ?_
    refine meets_expect_bind_of_clears (by simp) hr fun hclosing htail hs => ?_
    refine hs.imp fun hparts => ?_
    obtain ⟨⟨-, he, -⟩, hes⟩ := hparts
    have hes' := hes [] r.advance.ahead.tail (by rw [htail]; exact .noFurtherArguments hclosing)
    rw [List.append_nil] at hes'
    exact .arguments he hes'

/-! ## Expressions -/

theorem operand_sound (hn : nested.Sound) (hp : p.Regular) :
    (operand nested p).Meets (fun e q => p.Clears (q.HasRead p.ahead .unary e) q) Parser.Stuck
      True := by
  rw [operand, meets_bind, meets_current, meets_bind, meets_get]
  cases h : p.leadingForm? with
  | none => exact hp.stuck_report _
  | some form =>
      rw [Parser.leadingForm?, hp.forms, Forms.leading_eq_some_iff] at h
      exact leading_sound hn hp h

/-- A binary operator brings the level down to its own, as nothing tighter
follows its right operand. -/
theorem binary_sound (hn : nested.Sound) (hp : p.Regular) {floor : Precedence}
    (hfloor : floor < p.peek.kind.strength) (hbinary : p.peek.kind.strength.IsBinary)
    (left : Expr) :
    (binary left nested p.advance).Meets
      (fun e q => p.Clears (∀ ts, p.HasRead ts floor left → q.HasRead ts floor e) q) Parser.Stuck
      True := by
  rw [binary, meets_bind, meets_current, meets_bind, meets_advance, meets_bind,
    Parser.current_advance, hp.precedence_peek]
  have hne : p.peek.kind.strength ≠ .call := by
    intro h
    rw [h] at hbinary
    exact absurd hbinary (by decide)
  refine (hn.expr hne hp.advance.advance).imp (fun right q hq => ?_) (fun _ h => h) id
  apply (Parser.Clears.refl hp trivial).advance.advance.trans hq
  intro _ hright ts hleft
  obtain ⟨level, -, hleft, hlevel⟩ := hleft
  refine ⟨p.peek.kind.strength, Precedence.rank_right_le hfloor, ?_, hright.2⟩
  have hpeek : p.peek.kind ≠ .eof := by
    intro heof
    rw [heof] at hfloor
    exact Nat.not_lt_zero _ hfloor
  rw [hp.tail_eq_cons hpeek] at hleft
  -- the left operand binds at least as tightly as the operator, since no tighter one follows
  refine .binary hbinary (hleft.loosen ?_ ?_) hright.1
  · intro h
    rw [h] at hfloor
    exact Nat.not_lt_zero _ hfloor
  · exact Nat.le_of_not_lt hlevel

/-- Arguments may follow only what stands on the level of calls, and there the
call stands again. -/
theorem call_sound (hn : nested.Sound) (hp : p.Regular) {floor : Precedence}
    (hfloor : floor < p.peek.kind.strength) (hopening : p.peek.kind = .openParen) (callee : Expr) :
    (call callee nested p.advance).Meets
      (fun e q => p.Clears (∀ ts, p.HasRead ts floor callee → q.HasRead ts floor e) q) Parser.Stuck
      True := by
  rw [call, meets_bind, meets_current, meets_bind]
  refine (arguments_sound hn hp.advance).imp (fun es q hq => ?_) (fun _ h => h) id
  apply (Parser.Clears.refl hp trivial).advance.trans hq
  intro _ hes ts hcallee
  obtain ⟨level, -, hcallee, hlevel⟩ := hcallee
  have hstrength : p.peek.kind.strength = .call := by
    rw [hopening]
    rfl
  -- the callee stands on the level of calls, above which there is none
  refine ⟨.call, ?_, ?_, Precedence.not_call_lt _⟩
  · rw [← hstrength]
    exact Precedence.rank_right_le hfloor
  · rw [hp.tail_eq_cons (by rw [hopening]; simp)] at hcallee
    rw [hstrength] at hlevel
    exact .call hopening (hcallee.loosen (by simp) (Nat.le_of_not_lt hlevel)) hes

/-- **One more operator** keeps what has been read. -/
theorem continue?_sound (hn : nested.Sound) (hp : p.Regular) (floor : Precedence) (left : Expr) :
    (continue? floor left nested p).Meets
      (fun next q => next.elim (q = p ∧ ¬ floor < p.peek.kind.strength) fun e =>
        p.Clears (∀ ts, p.HasRead ts floor left → q.HasRead ts floor e) q) Parser.Stuck True := by
  rw [continue?, meets_bind, meets_get]
  cases h : continuation? floor p with
  | none => exact ⟨rfl, hp.continuation?_eq_none_iff.mp h⟩
  | some form =>
      rw [hp.continuation?_eq, Option.ite_none_right_eq_some] at h
      obtain ⟨hfloor, hform⟩ := h
      rw [meets_bind, meets_advance, meets_map]
      cases form with
      | binary => exact binary_sound hn hp hfloor (Forms.trailing_eq_binary_iff.mp hform) left
      | call => exact call_sound hn hp hfloor (Forms.trailing_eq_call_iff.mp hform) left

/-- **What is read as an expression is derived**, on the level above the floor. -/
theorem expression_sound (hn : nested.Sound) (hp : p.Regular) {floor : Precedence}
    (hfloor : floor ≠ .call) :
    (expression floor nested p).Meets
      (fun e q => p.Clears (Derives (.expr floor.right e) p.ahead q.ahead.tail ∧
        ¬ floor < q.peek.kind.strength) q) Parser.Stuck True := by
  refine meets_bind.mpr ((operand_sound hn hp).imp (fun left q hq => ?_) (fun _ h => h) id)
  -- the loop keeps `HasRead`, which its end turns into a derivation under the floor
  refine meets_bounded.mpr (meets_iterate
    (I := fun left q => p.Clears (q.HasRead p.ahead floor left) q) (fun left q hq => ?_)
    (hq.imp fun hread => hread.of_unary hfloor))
  refine (continue?_sound hn hq.regular floor left).imp (fun next r hr => ?_) (fun _ h => h) id
  cases next with
  | none =>
      obtain ⟨rfl, hend⟩ := hr
      refine hq.imp fun ⟨level, hlevel, hleft, _⟩ => ⟨hleft.loosen ?_ hlevel, hend⟩
      cases floor <;> simp [Precedence.right]
  | some e => exact hq.trans hr fun hread hstep => hstep _ hread

/-! ## Statements -/

/-- **A statement ends** where the grammar lets it end. -/
theorem optional_sound (hp : p.Regular) :
    (optional .semicolon p).Meets
      (fun _ q => p.Clears (¬ Precedence.lowest < p.peek.kind.strength →
        Terminated p.ahead.tail q.ahead.tail) q) Parser.Stuck True := by
  rw [meets_optional]
  refine ⟨fun hsemicolon => ?_, fun hsemicolon => .refl hp fun hnext => .bare fun t ht => ?_⟩
  · refine (Parser.Clears.refl hp fun _ => ?_).advance
    rw [hp.tail_eq_cons (by rw [hsemicolon]; simp)]
    exact .semicolon hsemicolon
  · rw [← Parser.peek_eq_of_mem_head? ht]
    exact ⟨hsemicolon, Precedence.rank_injective (Nat.eq_zero_of_not_pos hnext)⟩

theorem binding_sound (hn : nested.Sound) (hp : p.Regular) (ht : p.current.kind = .atSign) :
    (binding nested p).Meets
      (fun s q => p.Clears (Derives (.statement s) p.ahead q.ahead.tail) q) Parser.Stuck True := by
  rw [binding, meets_bind, meets_current]
  apply meets_expect_bind_of_clears (by simp) (.refl hp trivial)
  intro hname htail hq
  apply meets_expect_bind_of_clears (by simp) hq
  intro hassign htail' hr
  rw [meets_bind, meets_advance]
  apply meets_bind_of_clears hr.advance (hn.expr (by simp) hr.advance.regular)
  intro value s hs
  apply meets_bind_of_clears hs (optional_sound hs.regular)
  intro _ u hu
  apply hu.imp
  intro hparts
  obtain ⟨⟨-, hvalue, hnext⟩, hend⟩ := hparts
  rw [hp.ahead_eq_cons (by rw [ht]; simp), htail, htail']
  exact .binding ht hname hassign hvalue (hend hnext)

theorem ret_sound (hn : nested.Sound) (hp : p.Regular) (ht : p.current.kind = .kwRet) :
    (ret nested p).Meets
      (fun s q => p.Clears (Derives (.statement s) p.ahead q.ahead.tail) q) Parser.Stuck True := by
  rw [ret, meets_bind, meets_current, returnedValue, meets_bind, meets_bind, meets_peek, meets_ite]
  have hahead := hp.ahead_eq_cons (by rw [ht]; simp)
  constructor
  · intro hends
    -- a bare one: the token that ends it continues no expression
    rw [meets_pure, meets_bind]
    refine (optional_sound hp).imp (fun _ q hq => hq.imp fun hend => ?_) (fun _ h => h) id
    have hkind : p.peek.kind = .semicolon ∨ p.peek.kind = .closeCurly ∨ p.peek.kind = .eof := by
      simpa [endsReturn, or_assoc] using hends
    rw [hahead]
    refine .bareRet ht (fun u hu => ?_) (hend ?_)
    · have heof := hp.kind_ne_eof_of_mem_head? hu
      rw [Parser.peek_eq_of_mem_head? hu] at hkind
      rcases hkind with h | h | h
      · exact .inl h
      · exact .inr h
      · exact absurd h heof
    · rcases hkind with h | h | h <;> rw [h] <;> exact Nat.not_lt_zero _
  · intro _
    rw [meets_bind, meets_advance, meets_map]
    refine (hn.expr (by simp) hp.advance).imp (fun value q hq => ?_) (fun _ h => h) id
    replace hq := (Parser.Clears.refl hp trivial).advance.trans hq fun _ h => h
    refine meets_bind_of_clears hq (optional_sound hq.regular) fun _ r hr => ?_
    refine hr.imp fun hparts => ?_
    obtain ⟨⟨hvalue, hnext⟩, hend⟩ := hparts
    rw [hahead]
    exact .ret ht hvalue (hend hnext)

theorem expressionStatement_sound (hn : nested.Sound) (hp : p.Regular)
    (ht : p.current.kind ≠ .eof) :
    (expressionStatement nested p).Meets
      (fun s q => p.Clears (Derives (.statement s) p.ahead q.ahead.tail) q) Parser.Stuck True := by
  rw [expressionStatement, meets_bind, meets_current]
  apply meets_bind_of_clears (.refl hp trivial) (hn.expr (by simp) hp)
  intro value q hq
  apply meets_bind_of_clears hq (optional_sound hq.regular)
  intro _ r hr
  apply hr.imp
  intro hparts
  obtain ⟨⟨-, hvalue, hnext⟩, hend⟩ := hparts
  rw [hp.ahead_eq_cons ht] at hvalue ⊢
  exact .expression hvalue (hend hnext)

/-- **What is read as a statement is derived.** -/
theorem statementForm_sound (hn : nested.Sound) (hp : p.Regular) (ht : p.current.kind ≠ .eof) :
    (statementForm p.statementForm nested p).Meets
      (fun s q => p.Clears (Derives (.statement s) p.ahead q.ahead.tail) q) Parser.Stuck True := by
  cases h : p.statementForm with
  | binding => exact binding_sound hn hp (hp.statementForm_eq_binding_iff.mp h)
  | ret => exact ret_sound hn hp (hp.statementForm_eq_ret_iff.mp h)
  | expression => exact expressionStatement_sound hn hp ht

/-- A statement that cannot be read leaves an error. -/
theorem statement_sound (hn : nested.Sound) (hp : p.Regular) (ht : p.current.kind ≠ .eof) :
    (statement nested p).Meets
      (fun result q => p.Clears (∃ s, result = some s ∧
        Derives (.statement s) p.ahead q.ahead.tail) q) Parser.Stuck True := by
  rw [statement, meets_logged, meets_bind, meets_get, meets_bind, meets_attempt]
  refine (statementForm_sound hn (hp.withVisits []) ht).imp (fun s q hq => ?_) (fun q hq => ?_) id
  · refine ⟨hq.regular.withVisits _, fun hclean => ?_⟩
    obtain ⟨hbefore, hs⟩ := hq.clean hclean
    exact ⟨hbefore, s, rfl, hs⟩
  · rw [meets_bind, meets_modify, meets_pure]
    refine ⟨(hq.regular.of_reaches q.reaches_recover).withVisits _, fun hclean => ?_⟩
    exact absurd (q.errors_recover.symm.trans hclean) hq.errors

/-! ## Runs of statements -/

/-- An item of a run of statements: a statement, behind which the next token is
current, or none where the run is over. -/
def ItemSound (ends : Token.Kind → Prop) (item : Parse (Option (Option Stmt))) : Prop :=
  ∀ p : Parser, p.Regular → (item p).Meets
    (fun next q => p.Clears (next.elim (q.ahead = p.ahead ∧ ends q.current.kind) fun result =>
      ∃ s, result = some s ∧ Derives (.statement s) p.ahead q.ahead) q) Parser.Stuck True

theorem blockItem_sound (hn : nested.Sound) :
    ItemSound (fun k => k = .closeCurly ∨ k = .eof) (blockItem nested) := by
  intro p hp
  rw [blockItem, meets_bind, meets_current, meets_ite]
  refine ⟨fun hends => .refl hp ⟨rfl, by simpa [endsBlock] using hends⟩, fun hopen => ?_⟩
  have heof : p.current.kind ≠ .eof := fun heof => hopen (by rw [heof]; rfl)
  refine meets_bind.mpr ((statement_sound hn hp heof).imp (fun result q hq => ?_) (fun _ h => h) id)
  cases result with
  | none =>
      -- an item without a statement is the mark of an error, and then nothing is promised
      have hstuck : q.errors ≠ [] := fun hclean => by
        obtain ⟨-, s, hnone, -⟩ := hq.clean hclean
        cases hnone
      rw [meets_bind, meets_get, meets_ite]
      exact ⟨fun _ => ⟨hq.regular, fun h => absurd h hstuck⟩,
        fun _ => ⟨hq.regular.advance, fun h => absurd h hstuck⟩⟩
  | some s => exact hq.advance

theorem programItem_sound (hn : nested.Sound) :
    ItemSound (fun k => k = .eof) (programItem nested) := by
  intro p hp
  rw [programItem, meets_bind, meets_current, meets_ite]
  refine ⟨fun heof => .refl hp ⟨rfl, heof⟩, fun heof => ?_⟩
  exact meets_bind.mpr ((statement_sound hn hp heof).imp (fun result q hq => hq.advance)
    (fun _ h => h) id)

/-- **What is read as a run of statements is derived.** -/
theorem items_sound {ends : Token.Kind → Prop} {item : Parse (Option (Option Stmt))}
    (hitem : ItemSound ends item) (hp : p.Regular) :
    (bounded (many item) p).Meets
      (fun items q => p.Clears (Derives (.statements (items.filterMap id)) p.ahead q.ahead ∧
        ends q.current.kind) q) Parser.Stuck True := by
  -- the statements read so far come in front of those that follow
  refine meets_bounded.mpr (meets_many (I := fun items q => p.Clears
    (∀ ss rest, Derives (.statements ss) q.ahead rest →
      Derives (.statements (items.filterMap id ++ ss)) p.ahead rest) q) (fun items q hq => ?_)
    (.refl hp fun _ _ h => h))
  refine (hitem q hq.regular).imp (fun next r hr => ?_) (fun _ h => h) id
  cases next with
  | none =>
      apply hq.trans hr
      intro hitems hover
      obtain ⟨hahead, hends⟩ := hover
      have hnil := hitems [] q.ahead .noStatements
      rw [List.append_nil] at hnil
      exact ⟨by rwa [hahead], hends⟩
  | some result =>
      apply hq.trans hr
      intro hitems hnext ss rest hss
      obtain ⟨s, rfl, hs⟩ := hnext
      rw [List.filterMap_append, List.append_assoc]
      exact hitems _ rest (.statements hs hss)

/-- **What is read as a block is derived.** -/
theorem block_sound (hn : nested.Sound) (hp : p.Regular) (ht : p.current.kind = .openCurly) :
    (block nested p).Meets (fun b q => p.Clears (Derives (.block b) p.ahead q.ahead.tail) q)
      Parser.Stuck True := by
  rw [block, meets_logged, meets_bind, meets_current, meets_bind, meets_advance, meets_bind]
  have hempty := hp.withVisits []
  refine (items_sound (blockItem_sound hn) hempty.advance).imp (fun items q hq => ?_)
    (fun q hq => ⟨hq.regular.withVisits _, hq.errors⟩) id
  refine ⟨hq.regular.withVisits _, fun hclean => ?_⟩
  obtain ⟨hbefore, hitems, hends⟩ := hq.clean hclean
  refine ⟨hbefore, ?_⟩
  rw [hp.ahead_eq_cons (by rw [ht]; simp)]
  refine .block ht hitems ?_
  rcases hends with hbrace | heof
  · rw [hq.regular.ahead_eq_cons (by rw [hbrace]; simp)]
    exact .brace hbrace
  · have hnil := hq.regular.ahead_eq_nil_iff.mpr heof
    rw [hnil]
    exact .input

/-- **What is read as a program is derived**, up to the end of the input. -/
theorem program_sound (hn : nested.Sound) (hp : p.Regular) :
    (program nested p).Meets
      (fun program q => p.Clears (program.DerivedFrom p.ahead) q) Parser.Stuck True := by
  rw [program, meets_bind]
  refine (items_sound (programItem_sound hn) hp).imp (fun items q hq => ?_) (fun _ h => h) id
  refine hq.imp fun ⟨hitems, heof⟩ => ?_
  rwa [hq.regular.ahead_eq_nil_iff.mpr heof] at hitems

end Rule

/-- **What is read is derived**, at every depth of nesting. -/
theorem Nested.sound_level (n : Nat) : (level n).Sound := by
  induction n with
  | zero => exact ⟨fun _ _ => trivial, fun _ _ => trivial⟩
  | succ n ih =>
      exact ⟨fun hfloor hp => Rule.expression_sound ih hp hfloor,
        fun hp ht => Rule.block_sound ih hp ht⟩

end ExprLang
