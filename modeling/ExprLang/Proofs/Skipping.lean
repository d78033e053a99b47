/-
# Where recovery stops

While a broken statement is skipped, the open braces are counted, and a closing brace
that closes none leaves the count alone.  So the count is the number of opening braces
passed whose matching brace is still ahead, and the place where skipping stops can be
told from the tokens, without counting: it is the first one, from the current token on,
at which no brace is left open and the statement or what is around it ends, or else the
end of the input.  Main statements: `Delimited.exists_skipStatement_eq_drop` (the moves
of the window until skipping has to stop) and `recover_stops_first`.
-/
import ExprLang.Proofs.Extent
import ExprLang.Proofs.Operations
import Mathlib.Order.Bounds.Defs

namespace ExprLang

/-! ## Braces that are closed again -/

/-- Each opening brace among some tokens has its matching brace among them too.  A
closing brace that matches none of them does not count. -/
def AllClosed (us : List Token) : Prop :=
  ∀ front opening tail, us = front ++ opening :: tail → opening.kind = .openCurly →
    ∃ after, after ≠ [] ∧ MatchesBrace tail after

/-- A brace has a match when the closing brace is found. -/
theorem exists_matchesBrace_iff {tail : List Token} :
    (∃ after, after ≠ [] ∧ MatchesBrace tail after) ↔ closing 0 tail ≠ [] := by
  constructor
  · rintro ⟨after, hne, ⟨inside, c, rest, htail, hinside, hc, -⟩ | ⟨hnil, -⟩⟩
    · rw [closing_eq_cons_iff.mpr ⟨inside, htail, hc, hinside⟩]
      simp
    · exact absurd hnil hne
  · exact fun h => ⟨_, h, matches_closing tail⟩

/-- What is closed among some tokens, one token at a time. -/
theorem allClosed_cons_iff {t : Token} {ts : List Token} :
    AllClosed (t :: ts) ↔ (t.kind = .openCurly → closing 0 ts ≠ []) ∧ AllClosed ts := by
  constructor
  · intro h
    refine ⟨fun ht => exists_matchesBrace_iff.mp (h [] t ts rfl ht), ?_⟩
    intro front opening tail hsplit
    exact h (t :: front) opening tail (by rw [hsplit]; rfl)
  · rintro ⟨hfirst, hrest⟩ front opening tail hsplit hopening
    cases front with
    | nil =>
        obtain ⟨rfl, rfl⟩ := List.cons.inj hsplit
        exact exists_matchesBrace_iff.mpr (hfirst hopening)
    | cons u front =>
        obtain ⟨-, hsplit⟩ := List.cons.inj hsplit
        exact hrest front opening tail hsplit hopening

/-- **All braces are closed** exactly when none is left open. -/
theorem allClosed_iff_unclosed {us : List Token} : AllClosed us ↔ unclosed us = [] := by
  induction us with
  | nil =>
      refine ⟨fun _ => rfl, fun _ front opening tail hsplit => ?_⟩
      simp at hsplit
  | cons t ts ih =>
      rw [allClosed_cons_iff, ih, unclosed]
      split
      · next h => simp [h.1, h.2]
      · next h => exact and_iff_right fun ht hclosing => h ⟨ht, hclosing⟩

/-- That is to say, when the count is zero behind them. -/
theorem allClosed_iff {us : List Token} : AllClosed us ↔ depthBehind 0 us = 0 :=
  allClosed_iff_unclosed.trans unclosed_eq_nil_iff

instance (us : List Token) : Decidable (AllClosed us) :=
  decidable_of_iff _ allClosed_iff.symm

/-! ## Skipping, one move of the window at a time -/

namespace Parser

variable {p : Parser} {depth : Nat}

/-- The end marker is behind the tokens that are left, and is not one of them. -/
structure Delimited (p : Parser) : Prop where
  eof : p.eof.kind = .eof
  ahead : ∀ t ∈ p.ahead, t.kind ≠ .eof

theorem Delimited.advance (hp : p.Delimited) : p.advance.Delimited :=
  ⟨hp.eof, fun t ht => hp.ahead t (List.mem_of_mem_tail ht)⟩

theorem Delimited.current_eq_eof_iff (hp : p.Delimited) :
    p.current.kind = .eof ↔ p.ahead = [] := by
  rw [current]
  cases hahead : p.ahead with
  | nil => simp [hp.eof]
  | cons t ts => simpa using hp.ahead t (by simp [hahead])

/-- Skipping has to stop on the current token, with `depth` braces open behind it. -/
def HasToStop (depth : Nat) (p : Parser) : Prop :=
  p.current.kind = .eof ∨ p.peek.kind = .eof ∨
    (depth = 0 ∧ (p.current.kind = .semicolon ∨ p.peek.kind = .closeCurly))

instance (depth : Nat) (p : Parser) : Decidable (p.HasToStop depth) :=
  inferInstanceAs (Decidable (_ ∨ _ ∨ _))

/-- **One step of skipping**: it stays on a token on which it has to stop, and goes on
from the next token otherwise. -/
theorem Delimited.skipStatement_ahead (hp : p.Delimited) (depth : Nat) :
    skipStatement depth p.ahead =
      if p.HasToStop (depthAfter depth p.current) then p.ahead
      else skipStatement (depthAfter depth p.current) p.advance.ahead := by
  have hnext := hp.advance.current_eq_eof_iff
  rw [current_advance, ahead_advance] at hnext
  simp only [HasToStop, hp.current_eq_eof_iff, hnext, ahead_advance]
  rcases hahead : p.ahead with _ | ⟨t, _ | ⟨u, us⟩⟩
  · rfl
  · simp [skipStatement_singleton]
  · rw [current_of_ahead_eq hahead, peek_of_tail_eq (by rw [hahead]; rfl),
      skipStatement_cons_cons]
    simp

/-- A number of moves of the window. -/
theorem iterate_advance (p : Parser) (n : Nat) :
    Parser.advance^[n] p = { p with ahead := p.ahead.drop n } := by
  induction n generalizing p with
  | zero => rfl
  | succ n ih =>
      rw [Function.iterate_succ_apply, ih, ahead_advance, ← List.drop_one, List.drop_drop,
        Nat.add_comm]
      rfl

/-- Skipping that begins with `depth` braces open has to stop after `n` moves of the
window.  The token that is then current is counted. -/
def StopsAfter (depth : Nat) (p : Parser) (n : Nat) : Prop :=
  (Parser.advance^[n] p).HasToStop (depthBehind depth (p.ahead.take (n + 1)))

theorem stopsAfter_zero_iff {t : Token} {ts : List Token} (h : p.ahead = t :: ts) :
    p.StopsAfter depth 0 ↔ p.HasToStop (depthAfter depth t) := by
  rw [StopsAfter, h]
  rfl

/-- Past a token skipping goes on as if it began there. -/
theorem stopsAfter_succ_iff {t : Token} {ts : List Token} {n : Nat} (h : p.ahead = t :: ts) :
    p.StopsAfter depth (n + 1) ↔ p.advance.StopsAfter (depthAfter depth t) n := by
  rw [StopsAfter, StopsAfter, ahead_advance, h]
  rfl

/-- **Skipping moves the window** until it has to stop for the first time. -/
theorem Delimited.exists_skipStatement_eq_drop (hp : p.Delimited) (depth : Nat) :
    ∃ n, IsLeast {n | p.StopsAfter depth n} n ∧ skipStatement depth p.ahead = p.ahead.drop n := by
  -- on the tokens left: behind a token that is passed the first stop is one move nearer
  induction hahead : p.ahead generalizing p depth with
  | nil =>
      exact ⟨0, ⟨.inl (hp.current_eq_eof_iff.mpr hahead), fun _ _ => Nat.zero_le _⟩, rfl⟩
  | cons t ts ih =>
      have hstep := hp.skipStatement_ahead depth
      rw [current_of_ahead_eq hahead, hahead] at hstep
      by_cases hstop : p.HasToStop (depthAfter depth t)
      · rw [if_pos hstop] at hstep
        have hzero := (stopsAfter_zero_iff hahead).mpr hstop
        exact ⟨0, ⟨hzero, fun _ _ => Nat.zero_le _⟩, hstep⟩
      · have htail : p.advance.ahead = ts := by rw [ahead_advance, hahead, List.tail_cons]
        rw [if_neg hstop, htail] at hstep
        obtain ⟨n, ⟨hn, hleast⟩, hskip⟩ := ih hp.advance (depthAfter depth t) htail
        refine ⟨n + 1, ⟨(stopsAfter_succ_iff hahead).mpr hn, fun m hm => ?_⟩, hstep.trans hskip⟩
        cases m with
        | zero => exact absurd ((stopsAfter_zero_iff hahead).mp hm) hstop
        | succ m => exact Nat.succ_le_succ (hleast ((stopsAfter_succ_iff hahead).mp hm))

/-- **Recovery moves the window** until skipping has to stop for the first time. -/
theorem Delimited.exists_recover_eq (hp : p.Delimited) (hran : ¬ p.ranIntoClosingBrace = true) :
    ∃ n, IsLeast {n | p.StopsAfter 0 n} n ∧ p.recover = Parser.advance^[n] p := by
  obtain ⟨n, hn, hskip⟩ := hp.exists_skipStatement_eq_drop 0
  refine ⟨n, hn, ?_⟩
  rw [recover_of_not_ranInto hran, hskip, iterate_advance]

end Parser

/-! ## Numbers of tokens -/

/-- The token number `i` is of a kind.  The last one, the end marker, is followed by
itself for ever. -/
def KindAt (tokens : List Token) (i : Nat) (kind : Token.Kind) : Prop :=
  tokens[min i (tokens.length - 1)]?.map Token.kind = some kind

instance (tokens : List Token) (i : Nat) (kind : Token.Kind) : Decidable (KindAt tokens i kind) :=
  inferInstanceAs (Decidable (_ = _))

/-- Skipping that begins on the token number `k` has to stop on the token number `j`:
that one or the next is the end marker; or all braces opened from `k` to `j` are closed
again there, and the token is a semicolon or the next one is a closing brace. -/
def StopsAt (tokens : List Token) (k j : Nat) : Prop :=
  KindAt tokens j .eof ∨ KindAt tokens (j + 1) .eof ∨
    (AllClosed ((tokens.take (j + 1)).drop k) ∧
      (KindAt tokens j .semicolon ∨ KindAt tokens (j + 1) .closeCurly))

instance (tokens : List Token) (k j : Nat) : Decidable (StopsAt tokens k j) :=
  inferInstanceAs (Decidable (_ ∨ _ ∨ _))

namespace Parser

variable {p : Parser} {tokens : List Token} {k : Nat}

/-- The window of a parser is on the token number `k`: what is left are the tokens from
there on. -/
def StandsOn (tokens : List Token) (k : Nat) (p : Parser) : Prop :=
  p.remaining = tokens.drop (min k (tokens.length - 1))

/-- The token at that number is the current one. -/
theorem StandsOn.kindAt_iff (h : p.StandsOn tokens k) {kind : Token.Kind} :
    KindAt tokens k kind ↔ p.current.kind = kind := by
  obtain ⟨rest, hrest⟩ := p.exists_remaining_eq_cons
  rw [KindAt, ← List.head?_drop, ← h, hrest, List.head?_cons, Option.map_some, Option.some.injEq]

/-- The number tells how many tokens are left. -/
theorem StandsOn.length_ahead (h : p.StandsOn tokens k) :
    p.ahead.length + 1 = tokens.length - min k (tokens.length - 1) := by
  have hlength := congrArg List.length h
  rwa [remaining, List.length_append, List.length_singleton, List.length_drop] at hlength

/-- **A move of the window** goes on by one token, or stays on the end marker. -/
theorem StandsOn.advance (h : p.StandsOn tokens k) : p.advance.StandsOn tokens (k + 1) := by
  have hlength := h.length_ahead
  rw [StandsOn, remaining] at h ⊢
  cases hahead : p.ahead with
  | nil =>
      rw [hahead, List.length_nil] at hlength
      rw [show min (k + 1) (tokens.length - 1) = min k (tokens.length - 1) by omega, ← h,
        ahead_advance, hahead]
      rfl
  | cons t ts =>
      rw [hahead, List.length_cons] at hlength
      rw [show min (k + 1) (tokens.length - 1) = min k (tokens.length - 1) + 1 by omega,
        ← List.tail_drop, ← h, ahead_advance, hahead]
      rfl

theorem StandsOn.iterate_advance (h : p.StandsOn tokens k) (n : Nat) :
    (Parser.advance^[n] p).StandsOn tokens (k + n) := by
  induction n with
  | zero => exact h
  | succ n ih =>
      rw [Function.iterate_succ_apply']
      exact ih.advance

/-- **The count of open braces** is zero exactly when all those are closed again that
were opened from the current token on. -/
theorem StandsOn.allClosed_between_iff (h : p.StandsOn tokens k) (hp : p.Delimited) (n : Nat) :
    AllClosed ((tokens.take (k + n + 1)).drop k) ↔
      depthBehind 0 (p.ahead.take (n + 1)) = 0 := by
  have hlength := h.length_ahead
  rw [allClosed_iff, List.drop_take, show k + n + 1 - k = n + 1 by omega]
  by_cases hk : k ≤ tokens.length - 1
  · rw [StandsOn, Nat.min_eq_left hk, remaining] at h
    -- the tokens up to there may include the end marker
    have hmarker : ∀ depth m, depthBehind depth ([p.eof].take m) = depth := by
      intro depth m
      cases m with
      | zero => rfl
      | succ m =>
          rw [List.take_succ_cons, List.take_nil]
          exact depthAfter_of_eof hp.eof
    rw [← h, List.take_append, depthBehind_append, hmarker]
  · have hahead : p.ahead = [] := List.length_eq_zero_iff.mp (by omega)
    rw [hahead, List.drop_eq_nil_of_le (by omega)]

/-- **Where skipping has to stop** can be told from the numbers of the tokens. -/
theorem StandsOn.stopsAt_iff (h : p.StandsOn tokens k) (hp : p.Delimited) {n : Nat} :
    StopsAt tokens k (k + n) ↔ p.StopsAfter 0 n := by
  have hn := h.iterate_advance n
  rw [StopsAt, StopsAfter, HasToStop, hn.kindAt_iff, hn.kindAt_iff, hn.advance.kindAt_iff,
    hn.advance.kindAt_iff, h.allClosed_between_iff hp, current_advance]

/-- The states over a source are delimited. -/
theorem StandsOn.delimited {source : String} (h : p.StandsOn (Lexer.tokenize source) k) :
    p.Delimited := by
  have hsource := regular_ofSource source
  have hsuffix : p.remaining <:+ (ofSource source).remaining := by
    rw [h]
    exact List.drop_suffix _ _
  rw [remaining, remaining] at hsuffix
  obtain ⟨hahead, heof⟩ := (List.suffix_append_inj_of_length_eq (by simp)).mp hsuffix
  refine ⟨?_, fun t ht => (hsource.spelled t (hahead.mem ht)).ne_eof⟩
  rw [List.singleton_inj.mp heof]
  exact hsource.steady.kind

/-- What is left are the tokens from some number on. -/
theorem standsOn_of_suffix (h : p.remaining <:+ tokens) :
    p.StandsOn tokens (tokens.length - 1 - p.ahead.length) := by
  have hlength : p.remaining.length = p.ahead.length + 1 := by
    rw [remaining, List.length_append, List.length_singleton]
  have hdrop := List.suffix_iff_eq_drop.mp h
  rwa [hlength, Nat.add_comm, ← Nat.sub_sub,
    ← Nat.min_eq_left (Nat.sub_le (tokens.length - 1) p.ahead.length)] at hdrop

/-! ## Recovery -/

/-- **Recovery stops at the first place where it has to**, in every state that operations
on a source lead to, and in every other one over its tokens, whatever errors it holds:
a statement that ran into a closing brace is left there; and any other is skipped, with
no error recorded, by as many moves of the window as it takes to the first token, from
the current one on, on which skipping has to stop. -/
theorem recover_stops_first (source : String) :
    (∀ ops, ∀ p ∈ Operation.trail (ofSource source) ops,
        ∃ k, p.StandsOn (Lexer.tokenize source) k) ∧
      ∀ (p : Parser) (k : Nat), p.StandsOn (Lexer.tokenize source) k →
        (p.ranIntoClosingBrace = true → p.recover = p) ∧
          (p.ranIntoClosingBrace = false →
            ∃ j, IsLeast {j | k ≤ j ∧ StopsAt (Lexer.tokenize source) k j} j ∧
              p.recover.StandsOn (Lexer.tokenize source) j ∧
              p.recover.errors = p.errors ∧ p.recover = advance^[j - k] p) := by
  refine ⟨fun ops p hp => ?_, fun p k hk => ⟨recover_of_ranInto, fun hran => ?_⟩⟩
  · exact ⟨_, standsOn_of_suffix (Operation.remaining_suffix_of_mem_trail hp)⟩
  · have hp := hk.delimited
    obtain ⟨n, ⟨hn, hleast⟩, hrecover⟩ := hp.exists_recover_eq (by simp [hran])
    refine ⟨k + n, ⟨⟨Nat.le_add_right k n, (hk.stopsAt_iff hp).mpr hn⟩, ?_⟩, ?_, ?_, ?_⟩
    · rintro j ⟨hle, hstop⟩
      obtain ⟨m, rfl⟩ := Nat.exists_eq_add_of_le hle
      exact Nat.add_le_add_left (hleast ((hk.stopsAt_iff hp).mp hstop)) k
    · rw [hrecover]
      exact hk.iterate_advance n
    · exact p.errors_recover
    · rw [hrecover, Nat.add_sub_cancel_left]

/-- Skipping from a closing brace without a match, over a semicolon in a block. -/
theorem recover_stops_first_sample :
    (advance (ofSource "a \x7d 3 \x7b ; \x7d ; z")).StandsOn
        (Lexer.tokenize "a \x7d 3 \x7b ; \x7d ; z") 1 ∧
      (advance (ofSource "a \x7d 3 \x7b ; \x7d ; z")).ranIntoClosingBrace = false ∧
      IsLeast {j | 1 ≤ j ∧ StopsAt (Lexer.tokenize "a \x7d 3 \x7b ; \x7d ; z") 1 j} 6 := by
  have hstands : (advance (ofSource "a \x7d 3 \x7b ; \x7d ; z")).StandsOn
      (Lexer.tokenize "a \x7d 3 \x7b ; \x7d ; z") 1 := by
    rw [StandsOn]
    decide +kernel
  have hran : (advance (ofSource "a \x7d 3 \x7b ; \x7d ; z")).ranIntoClosingBrace = false := by
    decide +kernel
  obtain ⟨j, hleast, hj, -⟩ := ((recover_stops_first _).2 _ 1 hstands).2 hran
  refine ⟨hstands, hran, ?_⟩
  have hlength := hj.length_ahead
  rw [show (advance (ofSource "a \x7d 3 \x7b ; \x7d ; z")).recover.ahead.length = 2 by
      decide +kernel,
    show (Lexer.tokenize "a \x7d 3 \x7b ; \x7d ; z").length = 9 by decide +kernel] at hlength
  obtain rfl : j = 6 := by omega
  exact hleast

example : (List.range' 1 8).filter (StopsAt (Lexer.tokenize "a \x7d 3 \x7b ; \x7d ; z") 1) =
    [6, 7, 8] := by
  decide +kernel

end Parser

end ExprLang
