/-
# What stands between braces stays there

Two sources that differ only in what stands between one pair of braces, where the
braces are balanced on both sides.  Outside of that pair nothing comes of the
difference: the same statements are read, down to the block that the pair may be,
and the same errors are found, moved along as the texts demand.  What is left of both
sources is compared by `Around`, until the pair is passed.  Main statements:
`parse_enclosed` and, from 4 GiB on, `parse_enclosed_apart`.
-/
import ExprLang.Proofs.Alignment
import ExprLang.Proofs.Wrapping

namespace ExprLang

/-! ## Places outside of a pair of braces -/

/-- A position is moved along by a number of bytes and does not wrap around. -/
def Moves (position : UInt32) (n : Nat) : Prop :=
  position.toNat + n < UInt32.size

/-- A token outside of the braces that open at a position and hold so many bytes, and
the same token where they hold another number of bytes. -/
inductive Token.SamePlace (brace size size' : Nat) : Token → Token → Prop where
  | inFront {t : Token} (h : t.start.toNat ≤ brace) : SamePlace brace size size' t t
  | behind {t : Token} (h : Moves t.start (brace + 1 + size + 1))
      (h' : Moves t.start (brace + 1 + size' + 1)) :
      SamePlace brace size size' (t.shift (brace + 1 + size + 1)) (t.shift (brace + 1 + size' + 1))

/-- An error outside of the braces, and the same error where they hold another number
of bytes. -/
inductive SyntaxError.SamePlace (brace size size' : Nat) : SyntaxError → SyntaxError → Prop where
  | inFront {e : SyntaxError} (h : e.position.toNat ≤ brace) : SamePlace brace size size' e e
  | behind {e : SyntaxError} (h : Moves e.position (brace + 1 + size + 1))
      (h' : Moves e.position (brace + 1 + size' + 1)) :
      SamePlace brace size size' (e.shift (brace + 1 + size + 1)) (e.shift (brace + 1 + size' + 1))

/-- Whether an error is found at or in front of the opening brace, or behind the
closing one. -/
def SyntaxError.outside (brace size : Nat) (e : SyntaxError) : Bool :=
  e.position.toNat ≤ brace || brace + 1 + size < e.position.toNat

theorem SyntaxError.outside_iff {brace size : Nat} {e : SyntaxError} :
    e.outside brace size = true ↔
      e.position.toNat ≤ brace ∨ brace + 1 + size < e.position.toNat := by
  simp [outside]

section SamePlace

variable {brace size size' : Nat} {t u : Token}

theorem Moves.toNat_add {position : UInt32} {n : Nat} (h : Moves position n) :
    (position + n.toUInt32).toNat = position.toNat + n := by
  have hlt : position.toNat + n < UInt32.size := h
  rw [UInt32.toNat_add, Nat.toUInt32_eq, UInt32.toNat_ofNat_of_lt' (show n < UInt32.size by omega),
    Nat.mod_eq_of_lt hlt]

theorem Token.SamePlace.kind (h : Token.SamePlace brace size size' t u) : t.kind = u.kind := by
  cases h <;> rfl

theorem Token.SamePlace.text (h : Token.SamePlace brace size size' t u) : t.text = u.text := by
  cases h <;> rfl

/-- Errors on tokens in the same place are in the same place. -/
theorem Token.SamePlace.error (h : Token.SamePlace brace size size' t u)
    (cause : Token.Kind → String → SyntaxError.Cause) :
    SyntaxError.SamePlace brace size size' ⟨cause t.kind t.text, t.start⟩
      ⟨cause u.kind u.text, u.start⟩ := by
  cases h with
  | inFront h => exact .inFront h
  | @behind t h h' => exact .behind (e := ⟨cause t.kind t.text, t.start⟩) h h'

theorem SyntaxError.SamePlace.outside {e f : SyntaxError}
    (h : SyntaxError.SamePlace brace size size' e f) :
    e.outside brace size = true ∧ f.outside brace size' = true := by
  rw [SyntaxError.outside_iff, SyntaxError.outside_iff]
  cases h with
  | inFront h => exact ⟨.inl h, .inl h⟩
  | behind h h' =>
      rw [SyntaxError.shift, SyntaxError.shift, h.toNat_add, h'.toNat_add]
      omega

end SamePlace

/-! ## Tokens around a pair of braces -/

/-- What stands between the braces: tokens that are balanced and lie there. -/
structure Enclosed (brace size : Nat) (inside : List Token) : Prop where
  balanced : BraceBalanced inside
  within : ∀ t ∈ inside, brace < t.start.toNat ∧ t.start.toNat ≤ brace + 1 + size
  fits : brace + 1 + size < UInt32.size

/-- Tokens left of two sources that are the same but for one pair of braces, which may
still be there or be passed. -/
inductive Around (brace size size' : Nat) : List Token → List Token → Prop where
  | nil : Around brace size size' [] []
  | token {t u : Token} {s s' : List Token} (htu : Token.SamePlace brace size size' t u)
      (hne : t ≠ Lexer.openingAt brace) (h : Around brace size size' s s') :
      Around brace size size' (t :: s) (u :: s')
  | pair {inside inside' s s' : List Token} (hinside : Enclosed brace size inside)
      (hinside' : Enclosed brace size' inside') (h : Around brace size size' s s') :
      Around brace size size'
        (Lexer.openingAt brace :: (inside ++ Lexer.closingAt (brace + 1 + size) :: s))
        (Lexer.openingAt brace :: (inside' ++ Lexer.closingAt (brace + 1 + size') :: s'))

section Around

variable {brace size size' : Nat} {t u : Token} {inside s s' : List Token}

/-- The closing brace of the pair is the one behind what stands between them. -/
theorem Enclosed.closing (h : Enclosed brace size inside) (s : List Token) :
    closing 0 (inside ++ Lexer.closingAt (brace + 1 + size) :: s) =
      Lexer.closingAt (brace + 1 + size) :: s :=
  closing_eq_cons_iff.mpr ⟨inside, rfl, rfl, h.balanced⟩

/-- Outer braces are closed behind the pair. -/
theorem Enclosed.closing_pair (h : Enclosed brace size inside) (depth : Nat) (s : List Token) :
    ExprLang.closing depth (Lexer.openingAt brace ::
      (inside ++ Lexer.closingAt (brace + 1 + size) :: s)) = ExprLang.closing depth s := by
  rw [closing_cons (by intro h; cases h), depthAfter_of_openCurly rfl, Nat.add_comm,
    ← Nat.zero_add 1, closing_add, h.closing, List.tail_cons]

/-- Errors found between the braces are not outside. -/
theorem Enclosed.filter_outside (h : Enclosed brace size inside) {es : List SyntaxError}
    (hes : ∀ e ∈ es, e.Between (inside ++ Lexer.closingAt (brace + 1 + size) :: s)
      (Lexer.closingAt (brace + 1 + size) :: s)) :
    es.filter (SyntaxError.outside brace size) = [] := by
  rw [List.filter_eq_nil_iff]
  intro e he
  obtain ⟨t, ts, ⟨front, hfront⟩, ⟨middle, hmiddle⟩, hposition⟩ := hes e he
  -- the token of the error is the closing brace, or one of those in front of it
  have hwithin : brace < t.start.toNat ∧ t.start.toNat ≤ brace + 1 + size := by
    cases middle with
    | nil =>
        cases hmiddle
        have hstart : (brace + 1 + size).toUInt32.toNat = brace + 1 + size :=
          UInt32.toNat_ofNat_of_lt' h.fits
        simp only [Lexer.closingAt, hstart]
        omega
    | cons u us =>
        rw [← hmiddle, ← List.append_assoc] at hfront
        have hinside : front ++ u :: us = inside := List.append_cancel_right hfront
        rw [← (List.cons.inj hmiddle).1]
        exact h.within u (by simp [← hinside])
  rw [SyntaxError.outside_iff, hposition]
  omega

/-- Behind a token other than the opening brace of the pair. -/
theorem Around.tail (h : Around brace size size' (t :: s) (u :: s'))
    (hne : t ≠ Lexer.openingAt brace) : Around brace size size' s s' := by
  cases h with
  | token _ _ h => exact h
  | pair => exact absurd rfl hne

/-- **Braces are closed in the same place.** -/
theorem Around.closing (h : Around brace size size' s s') (depth : Nat) :
    Around brace size size' (closing depth s).tail (closing depth s').tail := by
  induction h generalizing depth with
  | nil => exact .nil
  | @token t u s s' htu hne h ih =>
      have hdepth : depthAfter depth t = depthAfter depth u := by
        unfold depthAfter
        rw [htu.kind]
      rw [ExprLang.closing, ExprLang.closing, htu.kind, hdepth]
      split
      · exact h
      · exact ih _
  | pair hinside hinside' _ ih =>
      rw [hinside.closing_pair, hinside'.closing_pair]
      exact ih depth

/-- Behind the block of an opening brace, which may be that of the pair. -/
theorem Around.leave (h : Around brace size size' (t :: s) (u :: s')) :
    Around brace size size' (ExprLang.closing 0 s).tail (ExprLang.closing 0 s').tail := by
  cases h with
  | token _ _ h => exact h.closing 0
  | pair hinside hinside' h =>
      rw [hinside.closing, hinside'.closing]
      exact h

end Around

/-- Sources that are the same but for what stands between one pair of braces.  The
block of the pair is not compared, and neither are the errors found in it. -/
def Alignment.around (brace size size' : Nat) (eof eof' : Token)
    (heof : Token.SamePlace brace size size' eof eof') : Alignment where
  alike := Token.SamePlace brace size size'
  free t := t = Lexer.openingAt brace
  eof := eof
  eof' := eof'
  left := Around brace size size'
  next := Around brace size size'
  errors es es' := List.Forall₂ (SyntaxError.SamePlace brace size size')
    (es.filter (SyntaxError.outside brace size)) (es'.filter (SyntaxError.outside brace size'))
  kind h := h.kind
  text h := h.text
  nil h := by
    cases h
    exact ⟨rfl, heof⟩
  cons h := by
    cases h with
    | token htu => exact ⟨_, _, rfl, htu⟩
    | pair => exact ⟨_, _, rfl, .inFront (Nat.mod_le _ _)⟩
  take h hopen _ _ := h.tail (by rintro rfl; exact hopen rfl)
  semicolon h hsemi := h.tail (by rintro rfl; cases hsemi)
  stray h hclose := h.tail (by rintro rfl; cases hclose)
  enter h _ hfree := h.tail hfree
  leave h _ := h.leave
  next_of_left h := h
  left_of_next h _ := h
  unclosed _ _ _ _ _ _ h := h
  report cause h htu := by
    have herror := htu.error cause
    rw [List.filter_append, List.filter_append, List.filter_singleton, List.filter_singleton,
      herror.outside.1, herror.outside.2]
    exact List.rel_append h (.cons herror .nil)
  skip h _ hfree herrors hfs hfs' := by
    cases h with
    | token _ hne => exact absurd hfree hne
    | pair hinside hinside' =>
        -- all errors of the block lie between the braces, and are left out on both sides
        rw [hinside.closing] at hfs
        rw [hinside'.closing] at hfs'
        rw [List.filter_append, List.filter_append,
          hinside.filter_outside fun e he => hfs e he (by simp),
          hinside'.filter_outside fun e he => hfs' e he (by simp), List.append_nil,
          List.append_nil]
        exact herrors

/-! ## Programs around a pair of braces -/

/-- A text between braces, with one text in front of them and one behind. -/
def enclose (a x b : String) : String :=
  a ++ "\x7b" ++ x ++ "\x7d" ++ b

theorem utf8ByteSize_enclose (a x b : String) :
    (enclose a x b).utf8ByteSize =
      a.utf8ByteSize + 1 + x.utf8ByteSize + 1 + b.utf8ByteSize := by
  have hopening : "\x7b".utf8ByteSize = 1 := rfl
  have hclosing : "\x7d".utf8ByteSize = 1 := rfl
  simp only [enclose, String.utf8ByteSize_append, hopening, hclosing]

theorem closes_map_shift {depth n : Nat} {ts : List Token} :
    Closes depth (ts.map (Token.shift n)) ↔ Closes depth ts := by
  induction ts generalizing depth with
  | nil => exact Iff.rfl
  | cons t ts ih =>
      rw [List.map_cons, closes_cons_iff, closes_cons_iff, ih]
      exact Iff.rfl

/-- The tokens of a text stand between the braces around it. -/
theorem enclosed_tokenize {x : String} {brace : Nat}
    (hsize : brace + 1 + x.utf8ByteSize < UInt32.size)
    (h : BraceBalanced (Lexer.tokenize x).dropLast) :
    Enclosed brace x.utf8ByteSize
      ((Lexer.tokenize x).dropLast.map (Token.shift (brace + 1))) := by
  refine ⟨closes_map_shift.mpr h, fun t ht => ?_, hsize⟩
  obtain ⟨u, hu, rfl⟩ := List.mem_map.mp ht
  have hlt := Lexer.start_lt_of_mem (by omega) hu
  have hmoves : Moves u.start (brace + 1) := show u.start.toNat + (brace + 1) < UInt32.size by omega
  rw [Token.start_shift, hmoves.toNat_add]
  omega

/-- A source with a text between braces. -/
theorem Parser.ahead_ofSource_enclosed (a x b : String) :
    (ofSource (enclose a x b)).ahead =
      (Lexer.tokenize a).dropLast ++ Lexer.openingAt a.utf8ByteSize ::
        ((Lexer.tokenize x).dropLast.map (Token.shift (a.utf8ByteSize + 1)) ++
          Lexer.closingAt (a.utf8ByteSize + 1 + x.utf8ByteSize) ::
            (Lexer.tokenize b).dropLast.map
              (Token.shift (a.utf8ByteSize + 1 + x.utf8ByteSize + 1))) := by
  rw [enclose, ahead_ofSource_eq_dropLast, Lexer.tokenize_enclosed, Lexer.tokenize_eq_concat b,
    List.map_append, List.dropLast_append_of_ne_nil (by simp),
    List.dropLast_cons_of_ne_nil (by simp), List.dropLast_append_of_ne_nil (by simp),
    List.dropLast_cons_of_ne_nil (by simp), List.map_singleton, List.dropLast_concat,
    List.dropLast_concat]

/-- Its end marker stands behind all of it. -/
theorem Parser.eof_ofSource_enclosed (a x b : String) :
    (ofSource (enclose a x b)).eof =
      (Token.endOfInput b.utf8ByteSize).shift (a.utf8ByteSize + 1 + x.utf8ByteSize + 1) := by
  rw [eof_ofSource, utf8ByteSize_enclose, Token.shift_endOfInput, Nat.add_comm]

/-- Tokens behind the braces go together. -/
theorem around_behind {brace size size' : Nat} {ts : List Token}
    (h : ∀ t ∈ ts, Moves t.start (brace + 1 + size + 1) ∧ Moves t.start (brace + 1 + size' + 1)) :
    Around brace size size' (ts.map (Token.shift (brace + 1 + size + 1)))
      (ts.map (Token.shift (brace + 1 + size' + 1))) := by
  induction ts with
  | nil => exact .nil
  | cons t ts ih =>
      obtain ⟨hmoves, hmoves'⟩ := h t List.mem_cons_self
      refine .token (.behind hmoves hmoves') (fun hopening => ?_)
        (ih fun u hu => h u (List.mem_cons_of_mem t hu))
      have hstart := congrArg (UInt32.toNat ∘ Token.start) hopening
      have hle : (brace.toUInt32).toNat ≤ brace := Nat.mod_le _ _
      simp only [Function.comp_apply, Token.start_shift, hmoves.toNat_add, Lexer.openingAt]
        at hstart
      omega

/-- Tokens in front of the braces go together, with what is left behind them. -/
theorem Around.append {brace size size' : Nat} {front s s' : List Token}
    (hfront : ∀ t ∈ front, t.start.toNat < brace) (hbrace : brace < UInt32.size)
    (h : Around brace size size' s s') :
    Around brace size size' (front ++ s) (front ++ s') := by
  induction front with
  | nil => exact h
  | cons t front ih =>
      have hlt := hfront t List.mem_cons_self
      refine .token (.inFront hlt.le) ?_ (ih fun u hu => hfront u (List.mem_cons_of_mem t hu))
      rintro rfl
      rw [Lexer.openingAt, Nat.toUInt32_eq, UInt32.toNat_ofNat_of_lt' hbrace] at hlt
      exact Nat.lt_irrefl _ hlt

/-- **What stands between braces stays there**: put other balanced tokens between them,
and outside the same comes of the source, statement by statement and error by error.
Both sources are shorter than 4 GiB. -/
theorem parse_enclosed {a x x' b : String} (hsize : (enclose a x b).utf8ByteSize < UInt32.size)
    (hsize' : (enclose a x' b).utf8ByteSize < UInt32.size)
    (h : BraceBalanced (Lexer.tokenize x).dropLast)
    (h' : BraceBalanced (Lexer.tokenize x').dropLast) :
    List.Forall₂
        (Stmt.Alike (Token.SamePlace a.utf8ByteSize x.utf8ByteSize x'.utf8ByteSize)
          (· = Lexer.openingAt a.utf8ByteSize))
        (parse (enclose a x b)).program.statements
        (parse (enclose a x' b)).program.statements ∧
      List.Forall₂ (SyntaxError.SamePlace a.utf8ByteSize x.utf8ByteSize x'.utf8ByteSize)
        ((parse (enclose a x b)).errors.filter
          (SyntaxError.outside a.utf8ByteSize x.utf8ByteSize))
        ((parse (enclose a x' b)).errors.filter
          (SyntaxError.outside a.utf8ByteSize x'.utf8ByteSize)) := by
  have hfits := utf8ByteSize_enclose a x b ▸ hsize
  have hfits' := utf8ByteSize_enclose a x' b ▸ hsize'
  have hmoves : ∀ position : UInt32, position.toNat ≤ b.utf8ByteSize →
      Moves position (a.utf8ByteSize + 1 + x.utf8ByteSize + 1) ∧
        Moves position (a.utf8ByteSize + 1 + x'.utf8ByteSize + 1) := by
    unfold Moves
    omega
  have heof : Token.SamePlace a.utf8ByteSize x.utf8ByteSize x'.utf8ByteSize
      (Parser.ofSource (enclose a x b)).eof (Parser.ofSource (enclose a x' b)).eof := by
    rw [Parser.eof_ofSource_enclosed, Parser.eof_ofSource_enclosed]
    obtain ⟨hend, hend'⟩ := hmoves (Token.endOfInput b.utf8ByteSize).start (Nat.mod_le _ _)
    exact .behind hend hend'
  have htokens : Around a.utf8ByteSize x.utf8ByteSize x'.utf8ByteSize
      (Parser.ofSource (enclose a x b)).ahead (Parser.ofSource (enclose a x' b)).ahead := by
    rw [Parser.ahead_ofSource_enclosed, Parser.ahead_ofSource_enclosed]
    refine .append (fun _ => Lexer.start_lt_of_mem (by omega)) (by omega) ?_
    exact .pair (enclosed_tokenize (by omega) h) (enclosed_tokenize (by omega) h')
      (around_behind fun t ht => hmoves _ (Lexer.start_lt_of_mem (by omega) ht).le)
  exact (Alignment.around _ _ _ _ _ heof).parse_alike (fun _ _ h => h)
    ⟨Parser.ordered_ofSource hsize, Parser.ordered_ofSource hsize', rfl, rfl, htokens, .nil⟩

/-- Two statements break outside of the braces, whatever breaks between them. -/
theorem parse_enclosed_sample :
    (enclose "@ 1; if (c) " "@ 2;" "; @ 4").utf8ByteSize < UInt32.size ∧
      (enclose "@ 1; if (c) " "\x7b y; \x7d ( @ 3" "; @ 4").utf8ByteSize < UInt32.size ∧
      BraceBalanced (Lexer.tokenize "@ 2;").dropLast ∧
      BraceBalanced (Lexer.tokenize "\x7b y; \x7d ( @ 3").dropLast ∧
      (parse (enclose "@ 1; if (c) " "\x7b y; \x7d ( @ 3" "; @ 4")).program.statements.length = 1 ∧
      ((parse (enclose "@ 1; if (c) " "\x7b y; \x7d ( @ 3" "; @ 4")).errors.filter
        (SyntaxError.outside 12 12)).length = 2 := by
  have h : BraceBalanced (Lexer.tokenize "@ 2;").dropLast := by decide +kernel
  have h' : BraceBalanced (Lexer.tokenize "\x7b y; \x7d ( @ 3").dropLast := by decide +kernel
  have hsize : (enclose "@ 1; if (c) " "@ 2;" "; @ 4").utf8ByteSize < UInt32.size := by
    decide +kernel
  have hsize' : (enclose "@ 1; if (c) " "\x7b y; \x7d ( @ 3" "; @ 4").utf8ByteSize <
      UInt32.size := by
    decide +kernel
  have hboth := parse_enclosed (a := "@ 1; if (c) ") (b := "; @ 4") hsize hsize' h h'
  refine ⟨hsize, hsize', h, h', hboth.1.length_eq.symm.trans ?_, hboth.2.length_eq.symm.trans ?_⟩
  · decide +kernel
  · decide +kernel

theorem enclose_repeated (a b : String) (c : Char) (n : Nat) :
    enclose a (repeated c n) b = apart (a ++ "\x7b") c n ("\x7d" ++ b) := by
  simp only [enclose, apart, String.append_assoc]

/-- With 4 GiB of blanks between the braces, or with none, no tokens are there; but the
closing brace of the one source may be taken for the opening one, and then a statement
and an error are added behind it. -/
theorem parse_enclosed_apart :
    ((Lexer.tokenize (repeated ' ' (UInt32.size - 1))).dropLast = [] ∧
        (Lexer.tokenize "").dropLast = []) ∧
      ((parse (enclose "fn() \x7b @ " (repeated ' ' (UInt32.size - 1))
          " \x7d(1)")).program.statements.length = 2 ∧
        (parse (enclose "fn() \x7b @ " "" " \x7d(1)")).program.statements.length = 1) ∧
      (parse (enclose "fn() \x7b @ " (repeated ' ' (UInt32.size - 1))
          " \x7d(1)")).errors.length = 2 ∧
        (parse (enclose "fn() \x7b @ " "" " \x7d(1)")).errors.length = 1 := by
  have hturn : ("fn() \x7b @ " ++ "\x7b").utf8ByteSize + (UInt32.size - 1) = UInt32.size + 9 := by
    decide +kernel
  rw [enclose_repeated, Lexer.dropLast_tokenize_repeated (by decide),
    parse_apart (by decide) (by decide) hturn]
  decide +kernel

end ExprLang
