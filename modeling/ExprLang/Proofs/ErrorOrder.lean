/-
# Where the errors of a source are

Every error is on a token of the source that gives rise to it, and the errors stand
in the order of these tokens, which their positions show in a source that is shorter
than 4 GiB.  While a construct is read no error is behind the current token; where it
breaks, the last one may be on the token behind it, but then nothing more is found
before that token is current, or the brace that closes the block is.  Main statements:
`parse_errors_in_order` and, from 4 GiB on, `parse_errors_in_order_apart`.
-/
import ExprLang.Proofs.Pieces
import ExprLang.Proofs.Wrapping

namespace ExprLang

/-! ## Errors and the tokens that give rise to them -/

/-- A token gives rise to an error: the error is where the token starts.  A token that
was not expected and one that starts no expression are named by their kind, an integer
that is too large by its text. -/
def SyntaxError.ArisesAt (e : SyntaxError) (t : Token) : Prop :=
  e.position = t.start ∧
    match e.cause with
    | .unexpected expected found => found = t.kind ∧ found ≠ expected
    | .noExpression found => found = t.kind ∧ Forms.standard.leading found = none
    | .badInteger text =>
        text = t.text ∧ t.kind = .integer ∧ (∀ c ∈ text.toList, c.isDigit) ∧
          Text.maxInteger < Text.decimalValue text.toList

/-- Errors that arise at some of the tokens `ts` and, if `exact`, each no further on than
the next one, and none behind a place `bound`. -/
structure SyntaxError.InOrder (exact : Prop) (ts : List Token) (bound : UInt32)
    (errors : List SyntaxError) : Prop where
  ascending : exact → errors.Pairwise fun e f => e.position ≤ f.position
  bounded : exact → ∀ e ∈ errors, e.position ≤ bound
  arising : ∀ e ∈ errors, ∃ t ∈ ts, e.ArisesAt t

namespace SyntaxError.InOrder

variable {exact : Prop} {ts : List Token} {bound : UInt32} {errors : List SyntaxError}

theorem nil : InOrder exact ts bound [] :=
  ⟨fun _ => .nil, by simp, by simp⟩

/-- A place further on bounds the errors too. -/
theorem mono (h : InOrder exact ts bound errors) {place : UInt32} (hle : exact → bound ≤ place) :
    InOrder exact ts place errors :=
  ⟨h.ascending, fun hx e he => UInt32.le_trans (h.bounded hx e he) (hle hx), h.arising⟩

/-- A further error comes last if it arises behind the bound. -/
theorem concat (h : InOrder exact ts bound errors) {e : SyntaxError} {t : Token} (ht : t ∈ ts)
    (hle : exact → bound ≤ t.start) (he : e.ArisesAt t) :
    InOrder exact ts t.start (errors ++ [e]) := by
  have hbounded : exact → ∀ f ∈ errors, f.position ≤ t.start := (h.mono hle).bounded
  refine ⟨fun hx => List.pairwise_append.mpr
    ⟨h.ascending hx, List.pairwise_singleton _ _, ?_⟩, fun hx => ?_, ?_⟩
  · intro f hf g hg
    rw [List.mem_singleton.mp hg, he.1]
    exact hbounded hx f hf
  · intro f hf
    rcases List.mem_append.mp hf with hf | hf
    · exact hbounded hx f hf
    · rw [List.mem_singleton.mp hf, he.1]
      exact UInt32.le_refl _
  · intro f hf
    rcases List.mem_append.mp hf with hf | hf
    · exact h.arising f hf
    · rw [List.mem_singleton.mp hf]
      exact ⟨t, ht, he⟩

/-- No error is behind the last one. -/
theorem of_getLast? (h : InOrder exact ts bound errors) {place : UInt32}
    (hlast : errors.getLast?.map SyntaxError.position = some place) :
    InOrder exact ts place errors := by
  obtain ⟨last, hget, rfl⟩ := Option.map_eq_some_iff.mp hlast
  obtain ⟨front, rfl⟩ := List.getLast?_eq_some_iff.mp hget
  refine ⟨h.ascending, fun hx e he => ?_, h.arising⟩
  rcases List.mem_append.mp he with he | he
  · exact (List.pairwise_append.mp (h.ascending hx)).2.2 e he last List.mem_cons_self
  · rw [List.mem_singleton.mp he]
    exact UInt32.le_refl _

end SyntaxError.InOrder

/-! ## Errors of a run -/

/-- A state of a run over a source with the tokens `ts`, with no error behind the token
that `last` shows. -/
structure Parser.Orderly (exact : Prop) (ts : List Token) (last : Parser → Token) (p : Parser) :
    Prop where
  ordered : p.OrderedIf exact
  remaining : p.remaining <:+ ts
  errors : SyntaxError.InOrder exact ts (last p).start p.errors

namespace Parser

variable {exact : Prop} {ts : List Token} {p : Parser}

/-- A state that was reached without a further error is one if the bound did not move back. -/
theorem Orderly.of_reaches {last last' : Parser → Token} (h : p.Orderly exact ts last) {q : Parser}
    (hq : p.Reaches q) (herrors : q.errors = p.errors)
    (hle : exact → (last p).start ≤ (last' q).start) : q.Orderly exact ts last' :=
  ⟨h.ordered.of_reaches hq, hq.remaining.trans h.remaining, herrors ▸ h.errors.mono hle⟩

/-- A token of the window gives rise to a further error. -/
theorem Orderly.report (h : p.Orderly exact ts current) {t : Token} (ht : t ∈ p.remaining)
    {cause : SyntaxError.Cause} (he : (⟨cause, t.start⟩ : SyntaxError).ArisesAt t)
    (hle : exact → t.start ≤ p.peek.start) : (p.report ⟨cause, t.start⟩).Orderly exact ts peek :=
  ⟨h.ordered.report _, h.remaining,
    (h.errors.concat (h.remaining.mem ht) (fun hx => h.ordered.current_le hx ht) he).mono hle⟩

theorem OrderedIf.current_le_peek (hp : p.OrderedIf exact) (hx : exact) :
    p.current.start ≤ p.peek.start :=
  hp.current_le hx p.peek_mem_remaining

/-- The token behind the current one does not move back. -/
theorem OrderedIf.peek_le_peek (hp : p.OrderedIf exact) {q : Parser} (h : p.Reaches q)
    (hx : exact) : p.peek.start ≤ q.peek.start := by
  have hsuffix : q.advance.remaining <:+ p.advance.remaining :=
    remaining_suffix (tail_suffix_tail h.ahead) h.eof
  exact hp.advance.current_le hx (hsuffix.mem q.advance.current_mem_remaining)

/-- An integer literal that is refused is too large. -/
theorem arisesAt_of_badInteger (hp : p.Regular) (hform : p.leadingForm? = some .integer)
    (hbad : Text.integer? p.current.text = none) :
    (⟨.badInteger p.current.text, p.current.start⟩ : SyntaxError).ArisesAt p.current := by
  rw [leadingForm?, hp.forms, Forms.leading_eq_some_iff, LeadingForm.kinds,
    List.mem_singleton] at hform
  have hahead := hp.ahead_eq_cons (by rw [hform]; simp)
  have hspells := hp.spelled p.current (by rw [hahead]; exact List.mem_cons_self)
  rw [hform] at hspells
  obtain ⟨hne, hdigits⟩ := hspells.of_integer
  refine ⟨rfl, rfl, hform, hdigits, ?_⟩
  by_contra hle
  rw [Text.integer?, if_pos (Text.isInteger_iff.mpr ⟨hne, hdigits, Nat.not_lt.mp hle⟩)] at hbad
  cases hbad

/-- **The order of the errors is kept**: none is behind the current token, nor, where a
statement broke, behind the token behind that. -/
theorem resumes_orderly (exact : Prop) (ts : List Token) :
    Resumes (Orderly exact ts current) (Orderly exact ts peek) where
  advance hp := hp.of_reaches (reaches_advance _) rfl hp.ordered.current_le_peek
  unexpected hp hne :=
    hp.report (peek_mem_remaining _) ⟨rfl, rfl, hne⟩ fun _ => UInt32.le_refl _
  noExpression {p} hp hform := by
    refine hp.report p.current_mem_remaining ⟨rfl, rfl, ?_⟩ hp.ordered.current_le_peek
    rwa [leadingForm?, hp.ordered.forms] at hform
  badInteger hp hform hbad := hp.report (current_mem_remaining _)
    (arisesAt_of_badInteger hp.ordered.toRegular hform hbad) hp.ordered.current_le_peek
  recover {p} hp := hp.of_reaches p.reaches_recover p.errors_recover
    (hp.ordered.peek_le_peek p.reaches_recover)
  resume hp := hp.of_reaches (reaches_advance _) rfl fun _ => UInt32.le_refl _
  close hp hran := ⟨hp.ordered, hp.remaining,
    hp.errors.of_getLast? (ranIntoClosingBrace_iff.mp hran).2⟩
  log visits hp := ⟨hp.ordered.withVisits visits, hp.remaining, hp.errors⟩
  logBroken visits hp := ⟨hp.ordered.withVisits visits, hp.remaining, hp.errors⟩

/-- The run of a source comes to its end in such a state. -/
theorem exists_orderly_parse (source : String) :
    ∃ program q, Rule.program.run (ofSource source) = .done program q ∧
      q.Orderly (source.utf8ByteSize < UInt32.size) (Lexer.tokenize source) current ∧
        parse source = ⟨program, q.errors, q.visits⟩ := by
  obtain ⟨program, q, hrun, hparse⟩ := exists_parse_eq source
  have hbegin : (ofSource source).Orderly (source.utf8ByteSize < UInt32.size)
      (Lexer.tokenize source) current := ⟨orderedIf_ofSource source, List.suffix_refl _, .nil⟩
  have hs := resumes_orderly (source.utf8ByteSize < UInt32.size) (Lexer.tokenize source)
  have hend := Rule.resumes_program hs
    (Nested.upholds_level hs ((ofSource source).ahead.length + 2)) _ hbegin
  have hrun' := hrun
  rw [Rule.run] at hrun'
  rw [hrun'] at hend
  exact ⟨program, q, hrun, hend, hparse⟩

end Parser

/-- **Errors point at the tokens that give rise to them, in source order**: the run of a
source comes to its end, each position of an error is that of a token of the source, its
end marker included, to which the cause of the error fits, and in a source that is
shorter than 4 GiB the positions do not decrease. -/
theorem parse_errors_in_order (source : String) :
    (∃ program q, Rule.program.run (.ofSource source) = .done program q) ∧
      (source.utf8ByteSize < UInt32.size →
        (parse source).errors.Pairwise (fun e f => e.position ≤ f.position)) ∧
      ∀ e ∈ (parse source).errors, ∃ t ∈ Lexer.tokenize source, e.ArisesAt t := by
  obtain ⟨program, q, hrun, hend, hparse⟩ := Parser.exists_orderly_parse source
  rw [hparse]
  exact ⟨⟨program, q, hrun⟩, hend.errors.ascending, hend.errors.arising⟩

/-- In a longer source the second of two errors may be in front of the first. -/
theorem parse_errors_in_order_apart :
    ¬ (parse (apart " ];" ' ' (UInt32.size - 3) "]")).errors.Pairwise
      fun e f => e.position ≤ f.position := by
  have hturn : " ];".utf8ByteSize + (UInt32.size - 3) = UInt32.size + 0 := by decide +kernel
  rw [parse_apart (by decide) (by decide) hturn]
  decide +kernel

end ExprLang
