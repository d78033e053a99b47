/-
# What the window shows

The states of a run over a source with the tables of the language.  Their tokens
are spelled as their kinds demand, with the end marker last; so the kind of a
token alone decides how it binds, and the end marker is current only when no token
is left.  Where the positions of tokens do not wrap around, which is so in sources
shorter than 4 GiB, the tokens also start one behind the other.  Main statements:
`Parser.regular_ofSource` and `Parser.ordered_ofSource`, `Parser.Regular.of_reaches`
and `Parser.Regular.continuation?_eq` (how an expression goes on).
-/
import ExprLang.Proofs.ByteView
import ExprLang.Proofs.Grammar
import ExprLang.Proofs.Scan
import ExprLang.Proofs.Termination

namespace ExprLang

/-! ## Kinds decide -/

/-- A text that binds is the spelling of a symbol. -/
theorem Precedence.exists_spelling?_eq {text : String} (h : text ∈ bindingTexts) :
    ∃ k : Token.Kind, k.spelling? = some text ∧ text.toList.any Char.isDigit = false := by
  simp only [bindingTexts, List.mem_cons, List.not_mem_nil, or_false] at h
  rcases h with rfl | rfl | rfl | rfl | rfl | rfl | rfl | rfl | rfl
  · exact ⟨.equal, rfl, by decide⟩
  · exact ⟨.notEqual, rfl, by decide⟩
  · exact ⟨.less, rfl, by decide⟩
  · exact ⟨.greater, rfl, by decide⟩
  · exact ⟨.plus, rfl, by decide⟩
  · exact ⟨.minus, rfl, by decide⟩
  · exact ⟨.star, rfl, by decide⟩
  · exact ⟨.slash, rfl, by decide⟩
  · exact ⟨.openParen, rfl, by decide⟩

/-- A text that does not bind has the lowest strength. -/
theorem Precedence.ofText_eq_lowest {text : String} (h : text ∉ bindingTexts) :
    ofText text = lowest := by
  rw [← lowest_lt_ofText_iff] at h
  exact rank_injective (Nat.eq_zero_of_not_pos h)

/-- The strength of a token is that of its kind. -/
theorem Token.precedence_eq {t : Token} (h : t.kind.Spells t.text.toList) :
    t.precedence = t.kind.strength := by
  obtain ⟨kind, text, start, stop⟩ := t
  show Precedence.ofText text = kind.strength
  replace h : kind.Spells text.toList := h
  generalize hcs : text.toList = cs at h
  have htext : text = String.ofList cs := by rw [← hcs, String.ofList_toList]
  subst htext
  have hfree : (∀ k : Token.Kind, k.spelling? ≠ some (String.ofList cs)) →
      Precedence.ofText (String.ofList cs) = .lowest := by
    intro hnot
    apply Precedence.ofText_eq_lowest
    intro hmem
    obtain ⟨k, hk, -⟩ := Precedence.exists_spelling?_eq hmem
    exact hnot k hk
  cases h with
  | fixed h =>
      cases kind <;>
        first | cases h | (rw [Token.Kind.spelling?, Option.some.injEq] at h; rw [← h]; rfl)
  | integer hne hdigits =>
      apply Precedence.ofText_eq_lowest
      intro hmem
      obtain ⟨-, -, hnot⟩ := Precedence.exists_spelling?_eq hmem
      obtain ⟨c, rest, rfl⟩ := List.exists_cons_of_ne_nil hne
      rw [String.toList_ofList, List.any_eq_false] at hnot
      exact hnot c List.mem_cons_self (hdigits c List.mem_cons_self)
  | identifier _ h => exact hfree h
  | @illegal c _ _ h => exact hfree h

/-- The kinds of token that a leading form starts with. -/
def LeadingForm.kinds : LeadingForm → List Token.Kind
  | identifier => [.identifier]
  | integer => [.integer]
  | boolean => [.kwTrue, .kwFalse]
  | unary => [.bang, .minus]
  | grouping => [.openParen]
  | conditional => [.kwIf]
  | function => [.kwFn]

namespace Forms

theorem leading_eq_some_iff {k : Token.Kind} {form : LeadingForm} :
    standard.leading k = some form ↔ k ∈ form.kinds := by
  cases form <;> cases k <;> decide

theorem trailing_eq_binary_iff {k : Token.Kind} :
    standard.trailing k = some .binary ↔ k.strength.IsBinary := by
  cases k <;> decide

theorem trailing_eq_call_iff {k : Token.Kind} :
    standard.trailing k = some .call ↔ k = .openParen := by
  cases k <;> decide

theorem trailing_eq_none_iff {k : Token.Kind} :
    standard.trailing k = none ↔ k.strength = .lowest := by
  cases k <;> decide

end Forms

/-! ## The tokens left -/

namespace Parser

variable {p q : Parser}

/-- The tokens from the current one on, the end marker last. -/
def remaining (p : Parser) : List Token :=
  p.ahead ++ [p.eof]

/-- The current token is the first of them. -/
theorem exists_remaining_eq_cons (p : Parser) : ∃ rest, p.remaining = p.current :: rest := by
  rw [remaining, current]
  cases p.ahead with
  | nil => exact ⟨[], rfl⟩
  | cons t ts => exact ⟨ts ++ [p.eof], rfl⟩

theorem current_mem_remaining (p : Parser) : p.current ∈ p.remaining := by
  obtain ⟨rest, hrest⟩ := p.exists_remaining_eq_cons
  rw [hrest]
  exact List.mem_cons_self

/-- The token behind it is one of them. -/
theorem peek_mem_remaining (p : Parser) : p.peek ∈ p.remaining := by
  rw [remaining, peek]
  rcases p.ahead with _ | ⟨t, _ | ⟨u, ts⟩⟩ <;> simp

/-- Fewer of them are left where fewer tokens are. -/
theorem remaining_suffix (hahead : q.ahead <:+ p.ahead) (heof : q.eof = p.eof) :
    q.remaining <:+ p.remaining := by
  rw [remaining, remaining, heof]
  exact (List.suffix_append_inj_of_length_eq rfl).mpr ⟨hahead, rfl⟩

/-- Moved one token forward each, two places are as far apart or nearer. -/
theorem tail_suffix_tail {s r : List Token} (h : r <:+ s) : r.tail <:+ s.tail := by
  refine List.suffix_of_suffix_length_le ((List.tail_suffix _).trans h) (List.tail_suffix _) ?_
  rw [List.length_tail, List.length_tail]
  exact Nat.sub_le_sub_right h.length_le 1

theorem Reaches.remaining (h : p.Reaches q) : q.remaining <:+ p.remaining :=
  remaining_suffix h.ahead h.eof

end Parser

/-! ## States of a run over a source -/

/-- A state with the tables of the language, with tokens that are spelled, and with
an end marker behind them. -/
structure Parser.Regular (p : Parser) : Prop where
  eof : ∃ size, p.eof = Token.endOfInput size
  forms : p.forms = .standard
  spelled : ∀ t ∈ p.ahead, t.kind.Spells t.text.toList

/-- Such a state the tokens of which, if `exact`, start one behind the other.  What
is proved of it with `exact` left open holds wherever positions wrap around, and
says more where they do not. -/
structure Parser.OrderedIf (exact : Prop) (p : Parser) : Prop extends p.Regular where
  ascending : exact → p.remaining.Pairwise fun t u => t.start < u.start

/-- Such a state the tokens of which start one behind the other. -/
abbrev Parser.Ordered (p : Parser) : Prop :=
  p.OrderedIf True

namespace Parser

variable {p q : Parser} {exact : Prop}

/-- **A source starts in such a state.** -/
theorem regular_ofSource (source : String) : (ofSource source).Regular := by
  have hscan : Scans 0 source.toList ((ofSource source).ahead ++ [(ofSource source).eof]) :=
    Lexer.scans_iff_eq_tokenize.mpr (ahead_ofSource source)
  obtain ⟨body, htokens, hspelled⟩ := hscan.exists_eq_append
  obtain ⟨hbody, heof⟩ := List.append_inj' htokens rfl
  exact ⟨⟨_, (List.cons.inj heof).1⟩, rfl, hbody ▸ hspelled⟩

/-- **In a source that is shorter than 4 GiB** its tokens start one behind the other. -/
theorem orderedIf_ofSource (source : String) :
    (ofSource source).OrderedIf (source.utf8ByteSize < UInt32.size) where
  toRegular := regular_ofSource source
  ascending hsize := by
    have hscan : Scans 0 source.toList ((ofSource source).ahead ++ [(ofSource source).eof]) :=
      Lexer.scans_iff_eq_tokenize.mpr (ahead_ofSource source)
    refine (hscan.ascending ?_).1
    rwa [Nat.zero_add, ← Text.utf8ByteSize_eq]

theorem ordered_ofSource {source : String} (hsize : source.utf8ByteSize < UInt32.size) :
    (ofSource source).Ordered :=
  ⟨regular_ofSource source, fun _ => (orderedIf_ofSource source).ascending hsize⟩

/-- **Every state of its run is one.** -/
theorem Regular.of_reaches (hp : p.Regular) (h : p.Reaches q) : q.Regular := by
  obtain ⟨eof, forms, spelled⟩ := hp
  exact ⟨h.eof ▸ eof, h.forms.trans forms, fun t ht => spelled t (h.ahead.mem ht)⟩

theorem OrderedIf.of_reaches (hp : p.OrderedIf exact) (h : p.Reaches q) : q.OrderedIf exact :=
  ⟨hp.toRegular.of_reaches h, fun he => (hp.ascending he).sublist h.remaining.sublist⟩

theorem Regular.advance (hp : p.Regular) : p.advance.Regular :=
  hp.of_reaches p.reaches_advance

theorem OrderedIf.advance (hp : p.OrderedIf exact) : p.advance.OrderedIf exact :=
  hp.of_reaches p.reaches_advance

theorem Regular.withVisits (hp : p.Regular) (visits : List Visit) :
    Regular { p with visits := visits } :=
  ⟨hp.eof, hp.forms, hp.spelled⟩

theorem OrderedIf.withVisits (hp : p.OrderedIf exact) (visits : List Visit) :
    OrderedIf exact { p with visits := visits } :=
  ⟨hp.toRegular.withVisits visits, hp.ascending⟩

/-- No token that is left starts in front of the current one. -/
theorem OrderedIf.current_le (hp : p.OrderedIf exact) (he : exact) {t : Token}
    (ht : t ∈ p.remaining) : p.current.start ≤ t.start := by
  obtain ⟨rest, hrest⟩ := p.exists_remaining_eq_cons
  have hpairs := hp.ascending he
  rw [hrest] at ht hpairs
  rcases List.mem_cons.mp ht with rfl | ht
  · exact UInt32.le_refl _
  · exact UInt32.le_of_lt ((List.pairwise_cons.mp hpairs).1 t ht)

/-- Nothing nests at the end marker. -/
theorem Regular.steady (hp : p.Regular) : p.Steady := by
  obtain ⟨size, heof⟩ := hp.eof
  refine ⟨by rw [heof]; rfl, by rw [heof]; rfl, ?_, ?_⟩
  · rw [hp.forms, Forms.standard]
    simp
  · rw [hp.forms, Forms.standard]
    simp

/-- The end marker is current only when no token is left. -/
theorem Regular.ahead_eq_nil_iff (hp : p.Regular) : p.ahead = [] ↔ p.current.kind = .eof := by
  constructor
  · intro h
    rw [current, h]
    exact hp.steady.kind
  · intro h
    by_contra hne
    obtain ⟨t, ts, hts⟩ := List.exists_cons_of_ne_nil hne
    rw [current, hts, List.headD_cons] at h
    exact (hp.spelled t (by rw [hts]; exact List.mem_cons_self)).ne_eof h

/-- With a token other than the end marker current, that token is the first. -/
theorem Regular.ahead_eq_cons (hp : p.Regular) (h : p.current.kind ≠ .eof) :
    p.ahead = p.current :: p.ahead.tail := by
  have hne := hp.steady.ahead_ne_nil h
  obtain ⟨t, ts, hts⟩ := List.exists_cons_of_ne_nil hne
  rw [current, hts]
  rfl

/-- With another token next, that token is the first behind the current one. -/
theorem Regular.tail_eq_cons (hp : p.Regular) (h : p.peek.kind ≠ .eof) :
    p.ahead.tail = p.peek :: p.ahead.tail.tail :=
  hp.advance.ahead_eq_cons h

/-- The token behind the current one is next. -/
theorem peek_of_tail_eq {t : Token} {ts : List Token} (h : p.ahead.tail = t :: ts) :
    p.peek = t := by
  rw [peek, h]
  rfl

theorem current_of_ahead_eq {t : Token} {ts : List Token} (h : p.ahead = t :: ts) :
    p.current = t := by
  rw [current, h]
  rfl

/-- What is first behind the current token is next. -/
theorem peek_eq_of_mem_head? {t : Token} (h : t ∈ p.ahead.tail.head?) : p.peek = t := by
  rw [peek, List.headD_eq_head?_getD, Option.mem_def.mp h]
  rfl

/-- What is first behind the current token is not the end marker. -/
theorem Regular.kind_ne_eof_of_mem_head? (hp : p.Regular) {t : Token}
    (h : t ∈ p.ahead.tail.head?) : t.kind ≠ .eof :=
  (hp.spelled t (List.mem_of_mem_tail (List.mem_of_mem_head? h))).ne_eof

theorem Regular.precedence_current (hp : p.Regular) :
    p.current.precedence = p.current.kind.strength := by
  by_cases h : p.current.kind = .eof
  · have hnil := hp.ahead_eq_nil_iff.mpr h
    obtain ⟨size, heof⟩ := hp.eof
    rw [current, hnil, List.headD_nil, heof]
    rfl
  · refine Token.precedence_eq (hp.spelled _ ?_)
    rw [hp.ahead_eq_cons h]
    exact List.mem_cons_self

theorem Regular.precedence_peek (hp : p.Regular) : p.peek.precedence = p.peek.kind.strength :=
  hp.advance.precedence_current

/-- **An expression goes on** when the next token binds tighter than the floor. -/
theorem Regular.continuation?_eq (hp : p.Regular) (floor : Precedence) :
    Rule.continuation? floor p =
      if floor < p.peek.kind.strength then Forms.standard.trailing p.peek.kind else none := by
  rw [Rule.continuation?, trailingForm?, hp.forms, hp.precedence_peek]
  by_cases h : p.peek.kind = .semicolon
  · -- a semicolon does not bind, so that the test for it makes no difference
    have hlow : ¬ floor < p.peek.kind.strength := by
      rw [h]
      exact Nat.not_lt_zero _
    rw [if_neg (fun hboth => hboth.1 h), if_neg hlow]
  · simp only [h, ne_eq, not_false_eq_true, true_and]

theorem Regular.statementForm_eq_binding_iff (hp : p.Regular) :
    p.statementForm = .binding ↔ p.current.kind = .atSign := by
  rw [statementForm, hp.forms]
  cases p.current.kind <;> decide

theorem Regular.statementForm_eq_ret_iff (hp : p.Regular) :
    p.statementForm = .ret ↔ p.current.kind = .kwRet := by
  rw [statementForm, hp.forms]
  cases p.current.kind <;> decide

/-- An expression ends where the next token does not bind tighter than the floor. -/
theorem Regular.continuation?_eq_none_iff (hp : p.Regular) {floor : Precedence} :
    Rule.continuation? floor p = none ↔ ¬ floor < p.peek.kind.strength := by
  rw [hp.continuation?_eq]
  split
  · next h =>
      rw [Forms.trailing_eq_none_iff]
      refine ⟨fun hlow => ?_, fun hnot => absurd h hnot⟩
      rw [hlow]
      exact Nat.not_lt_zero _
  · next h => exact ⟨fun _ => h, fun _ => rfl⟩

end Parser

/-! ## The run of a source -/

/-- The tokens that a source starts with are all but its end marker. -/
theorem Parser.ahead_ofSource_eq_dropLast (source : String) :
    (Parser.ofSource source).ahead = (Lexer.tokenize source).dropLast := by
  rw [← Parser.ahead_ofSource, List.dropLast_concat]

/-- What comes of a source is what its run ends with. -/
theorem exists_parse_eq (source : String) :
    ∃ program q, Rule.program.run (Parser.ofSource source) = .done program q ∧
      parse source = ⟨program, q.errors, q.visits⟩ := by
  obtain ⟨program, q, hrun, -⟩ :=
    Rule.exists_program_eq_done (Parser.regular_ofSource source).steady
  refine ⟨program, q, hrun, ?_⟩
  rw [parse, hrun]
  rfl

end ExprLang
