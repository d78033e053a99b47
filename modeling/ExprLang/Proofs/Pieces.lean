/-
# Where a broken statement ends

A brace level falls into pieces: each semicolon of the level ends one, and so does
the end of the level, while a pair of braces counts as a single token.  `pieceEnd`
finds the end of a piece; a statement that could not be read is skipped up to
there.  Main statements: `pieceEnd_succ` (a pair is stepped over) and
`Parser.BrokeBefore.recover` (recovery goes to the end of the piece).
-/
import ExprLang.Proofs.Blocks

namespace ExprLang

/-! ## Plain tokens -/

/-- The kinds of token that neither open or close a brace nor end a statement or
the input. -/
def Token.Kind.Plain (k : Token.Kind) : Prop :=
  k ≠ .openCurly ∧ k ≠ .closeCurly ∧ k ≠ .semicolon ∧ k ≠ .eof

instance (k : Token.Kind) : Decidable k.Plain :=
  inferInstanceAs (Decidable (_ ∧ _ ∧ _ ∧ _))

/-- Leading forms start with plain tokens. -/
theorem LeadingForm.plain_of_mem_kinds {form : LeadingForm} {k : Token.Kind}
    (h : k ∈ form.kinds) : k.Plain := by
  rw [← Forms.leading_eq_some_iff] at h
  cases k <;> first | decide | cases h

/-- Trailing forms start with plain tokens. -/
theorem Forms.plain_of_trailing {form : TrailingForm} {k : Token.Kind}
    (h : standard.trailing k = some form) : k.Plain := by
  cases k <;> first | decide | cases h

/-! ## The end of a piece -/

/-- What is left of some tokens behind the piece they begin in, with `depth` braces
open in it.  A semicolon belongs to the piece that it ends, a closing brace of the
level around does not. -/
def pieceEnd (depth : Nat) : List Token → List Token
  | [] => []
  | t :: ts =>
      if depth = 0 ∧ t.kind = .closeCurly then t :: ts
      else if depth = 0 ∧ t.kind = .semicolon then ts
      else pieceEnd (depthAfter depth t) ts

section PieceEnd

variable {depth : Nat} {t : Token} {ts : List Token}

@[simp]
theorem pieceEnd_nil (depth : Nat) : pieceEnd depth [] = [] := rfl

theorem pieceEnd_of_closeCurly (h : t.kind = .closeCurly) : pieceEnd 0 (t :: ts) = t :: ts := by
  rw [pieceEnd, if_pos ⟨rfl, h⟩]

theorem pieceEnd_of_semicolon (h : t.kind = .semicolon) : pieceEnd 0 (t :: ts) = ts := by
  rw [pieceEnd, if_neg (by rw [h]; simp), if_pos ⟨rfl, h⟩]

theorem pieceEnd_cons (hclose : t.kind = .closeCurly → depth ≠ 0)
    (hsemi : t.kind = .semicolon → depth ≠ 0) :
    pieceEnd depth (t :: ts) = pieceEnd (depthAfter depth t) ts := by
  rw [pieceEnd, if_neg fun h => hclose h.2 h.1, if_neg fun h => hsemi h.2 h.1]

theorem pieceEnd_of_openCurly (h : t.kind = .openCurly) :
    pieceEnd 0 (t :: ts) = pieceEnd 1 ts := by
  rw [pieceEnd_cons (by rw [h]; simp) (by rw [h]; simp), depthAfter_of_openCurly h]

/-- The end of a piece is further on. -/
theorem pieceEnd_suffix (depth : Nat) (ts : List Token) : pieceEnd depth ts <:+ ts := by
  induction ts generalizing depth with
  | nil => exact List.suffix_refl _
  | cons t ts ih =>
      rw [pieceEnd]
      split
      · exact List.suffix_refl _
      · split
        · exact List.suffix_cons t ts
        · exact (ih _).trans (List.suffix_cons t ts)

/-- **A pair of braces is stepped over.** -/
theorem pieceEnd_succ (depth : Nat) (ts : List Token) :
    pieceEnd (depth + 1) ts = pieceEnd 0 (closing depth ts).tail := by
  induction ts generalizing depth with
  | nil => rfl
  | cons t ts ih =>
      rw [pieceEnd_cons (fun _ => by omega) (fun _ => by omega)]
      by_cases hstop : depth = 0 ∧ t.kind = .closeCurly
      · obtain ⟨rfl, ht⟩ := hstop
        rw [closing_cons_of_closeCurly ht, depthAfter_of_closeCurly ht, List.tail_cons]
      · have hne : t.kind = .closeCurly → depth ≠ 0 := fun ht hd => hstop ⟨hd, ht⟩
        rw [closing_cons hne, ← ih, Nat.add_comm, depthAfter_add 1 hne, Nat.add_comm]

/-- Skipping leaves what is behind the piece, if the token where it starts is taken
as part of it. -/
theorem tail_skipStatement (depth : Nat) (t : Token) (ts : List Token) :
    (skipStatement depth (t :: ts)).tail =
      if depthAfter depth t = 0 ∧ t.kind = .semicolon then ts
      else pieceEnd (depthAfter depth t) ts := by
  induction ts generalizing depth t with
  | nil =>
      rw [skipStatement_singleton]
      split <;> rfl
  | cons u us ih =>
      rw [skipStatement_cons_cons]
      by_cases hsemi : depthAfter depth t = 0 ∧ t.kind = .semicolon
      · rw [if_pos ⟨hsemi.1, .inl hsemi.2⟩, if_pos hsemi, List.tail_cons]
      · rw [if_neg hsemi, pieceEnd]
        by_cases hclose : depthAfter depth t = 0 ∧ u.kind = .closeCurly
        · rw [if_pos ⟨hclose.1, .inr hclose.2⟩, if_pos hclose, List.tail_cons]
        · rw [if_neg fun h => h.2.elim (hsemi ⟨h.1, ·⟩) (hclose ⟨h.1, ·⟩), if_neg hclose, ih]
          by_cases hnext : u.kind = .semicolon
          · rw [depthAfter_of_semicolon hnext]
          · rw [if_neg fun h => hnext h.2, if_neg fun h => hnext h.2]

/-- Skipping from a token that is still to be taken. -/
theorem tail_skipStatement_of_ne (h : ∀ t ∈ ts.head?, t.kind ≠ .closeCurly) :
    (skipStatement 0 ts).tail = pieceEnd 0 ts := by
  cases ts with
  | nil => rfl
  | cons t ts =>
      have hclose : t.kind ≠ .closeCurly := h t rfl
      by_cases hsemi : t.kind = .semicolon
      · have hdepth : depthAfter 0 t = 0 := depthAfter_of_semicolon hsemi
        rw [tail_skipStatement, if_pos ⟨hdepth, hsemi⟩, pieceEnd_of_semicolon hsemi]
      · rw [tail_skipStatement, if_neg fun h => hsemi h.2,
          pieceEnd_cons (fun h => absurd h hclose) (fun h => absurd h hsemi)]

/-- Skipping from a token that is taken. -/
theorem tail_skipStatement_of_taken (hopen : ∀ t ∈ ts.head?, t.kind ≠ .openCurly)
    (hsemi : ∀ t ∈ ts.head?, t.kind ≠ .semicolon) :
    (skipStatement 0 ts).tail = pieceEnd 0 ts.tail := by
  cases ts with
  | nil => rfl
  | cons t ts =>
      rw [tail_skipStatement, depthAfter_zero (hopen t rfl), if_neg fun h => hsemi t rfl h.2,
        List.tail_cons]

end PieceEnd

/-! ## Recovery -/

namespace Parser

variable {p : Parser} {exact : Prop} {s : List Token}

/-- The current token is taken, and is neither an opening brace nor a semicolon. -/
structure Taken (exact : Prop) (p : Parser) : Prop where
  ordered : p.OrderedIf exact
  opening : p.current.kind ≠ .openCurly
  semicolon : p.current.kind ≠ .semicolon

theorem Regular.report (hp : p.Regular) (error : SyntaxError) : (p.report error).Regular :=
  hp.of_reaches (p.reaches_report error)

theorem OrderedIf.report (hp : p.OrderedIf exact) (error : SyntaxError) :
    (p.report error).OrderedIf exact :=
  hp.of_reaches (p.reaches_report error)

theorem Regular.recover (hp : p.Regular) : p.recover.Regular :=
  hp.of_reaches p.reaches_recover

theorem OrderedIf.recover (hp : p.OrderedIf exact) : p.recover.OrderedIf exact :=
  hp.of_reaches p.reaches_recover

/-- A brace that closes a block is taken with the block, and so is the end of the
input. -/
theorem taken_of_brace (hp : p.OrderedIf exact) (h : ∀ t ∈ p.ahead.head?, t.kind = .closeCurly) :
    p.Taken exact := by
  have hkind : p.current.kind = .closeCurly ∨ p.current.kind = .eof := by
    by_cases heof : p.current.kind = .eof
    · exact .inr heof
    · refine .inl (h p.current ?_)
      rw [hp.ahead_eq_cons heof]
      rfl
  refine ⟨hp, ?_, ?_⟩ <;> rcases hkind with h | h <;> simp [h]

theorem Taken.report (h : p.Taken exact) (error : SyntaxError) : (p.report error).Taken exact :=
  ⟨h.ordered.report error, h.opening, h.semicolon⟩

/-- A statement broke in front of the tokens `s`, with its error on the first of
them.  That is the current token, or else the next one. -/
def BrokeBefore (exact : Prop) (s : List Token) (p : Parser) : Prop :=
  (p.OrderedIf exact ∧ p.ahead = s ∧ p.BrokeOn p.current) ∨
    (p.Taken exact ∧ p.ahead.tail = s ∧ p.BrokeOn p.peek)

/-- The error is on the first of the tokens left, or on the end marker. -/
theorem BrokeBefore.brokeOn (h : p.BrokeBefore exact s) : p.BrokeOn (s.headD p.eof) := by
  rcases h with ⟨-, rfl, h⟩ | ⟨-, rfl, h⟩
  · exact h
  · exact h

theorem BrokeBefore.ordered (h : p.BrokeBefore exact s) : p.OrderedIf exact :=
  h.elim (·.1) (·.1.ordered)

/-- The braces around are closed where they are behind the place where it broke. -/
theorem BrokeBefore.broken (h : p.BrokeBefore exact s) : p.Broken exact s := by
  rcases h with ⟨hordered, rfl, hon⟩ | ⟨htaken, rfl, hon⟩
  · exact .inl ⟨⟨hordered, .refl _⟩, hon⟩
  · exact .inr ⟨⟨htaken.ordered, .refl _, htaken.opening⟩, hon⟩

/-- What is skipped reaches to the end of the piece. -/
theorem BrokeBefore.tail_recover (h : p.BrokeBefore exact s)
    (hran : ¬ p.ranIntoClosingBrace = true) : p.recover.ahead.tail = pieceEnd 0 s := by
  rw [recover_of_not_ranInto hran]
  rcases h with ⟨-, rfl, hon⟩ | ⟨htaken, rfl, -⟩
  · refine tail_skipStatement_of_ne (forall_mem_head?_of_current fun hkind => ?_)
    exact hran (ranIntoClosingBrace_iff.mpr ⟨hkind, hon⟩)
  · exact tail_skipStatement_of_taken (forall_mem_head?_of_current htaken.opening)
      (forall_mem_head?_of_current htaken.semicolon)

/-- **Recovery goes to the end of the piece**: a statement that ran into the brace
which closes what is around stays on it; any other is skipped, and what is then
left is what is behind its piece.  Where positions wrap around, a statement may also be
taken to have run into a brace that it did not break on. -/
theorem BrokeBefore.recover (h : p.BrokeBefore exact s) :
    (p.recover.ranIntoClosingBrace = true → p.recover.ahead = s ∨
        (¬ exact ∧ p.recover.ahead.tail <:+ s)) ∧
      (¬ p.recover.ranIntoClosingBrace = true → p.recover.ahead.tail = pieceEnd 0 s) := by
  by_cases hran : p.ranIntoClosingBrace = true
  · rw [recover_of_ranInto hran]
    refine ⟨fun _ => ?_, fun hnot => absurd hran hnot⟩
    rcases h with ⟨-, hs, -⟩ | ⟨htaken, hs, hpeek⟩
    · exact .inl hs
    · exact .inr ⟨fun he => htaken.ordered.not_brokeOn_peek he hran hpeek, hs ▸ List.suffix_refl _⟩
  · have htail := h.tail_recover hran
    refine ⟨fun hagain => .inr ⟨fun he => h.broken.not_ranInto_recover he hran hagain, ?_⟩,
      fun _ => htail⟩
    rw [htail]
    exact pieceEnd_suffix 0 s

end Parser

end ExprLang
