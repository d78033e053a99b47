/-
# A semicolon outside of blocks is a barrier

Where the tokens of a source end in a semicolon and all blocks are closed, whatever
else may be wrong with it, reading stops at the end and starts afresh in what is put
behind it: no statement runs over the semicolon, no recovery skips it, and the errors
found before decide nothing.  A run is found again in a longer one, its tokens moved
along (`Passage`); as all of them are moved by as much, two of them have one position
exactly if they had before, also where positions wrap around.  Main statement:
`parse_append_of_semicolon`.
-/
import ExprLang.Proofs.Alignment
import ExprLang.Proofs.Concatenation
import Mathlib.Data.List.Infix

namespace ExprLang

/-! ## Barred tokens -/

/-- Every opening brace has a closing one behind it that matches it. -/
def BracesClosed (ts : List Token) : Prop :=
  ∀ opening rest, opening :: rest <:+ ts → opening.kind = .openCurly →
    ∃ inside closing after, rest = inside ++ closing :: after ∧ closing.kind = .closeCurly ∧
      BraceBalanced inside

theorem bracesClosed_iff {ts : List Token} :
    BracesClosed ts ↔
      ∀ s ∈ ts.tails, ∀ opening ∈ s.head?, opening.kind = .openCurly → closing 0 s.tail ≠ [] := by
  constructor
  · intro h s hs opening hopening hkind
    obtain ⟨rest, rfl⟩ := List.head?_eq_some_iff.mp hopening
    obtain ⟨inside, brace, after, hrest, hbrace, hinside⟩ :=
      h opening rest ((List.mem_tails _ _).mp hs) hkind
    rw [List.tail_cons, closing_eq_cons_iff.mpr ⟨inside, hrest, hbrace, hinside⟩]
    simp
  · intro h opening rest hsuffix hkind
    obtain ⟨brace, after, hafter⟩ := List.exists_cons_of_ne_nil
      (h _ ((List.mem_tails _ _).mpr hsuffix) opening rfl hkind)
    obtain ⟨inside, hrest, hbrace, hinside⟩ := closing_eq_cons_iff.mp hafter
    exact ⟨inside, brace, after, hrest, hbrace, hinside⟩

instance (ts : List Token) : Decidable (BracesClosed ts) :=
  decidable_of_iff _ bracesClosed_iff.symm

/-- Tokens that end in a semicolon and leave no brace open. -/
structure Barred (ts : List Token) : Prop where
  last : ts.getLast?.map Token.kind = some .semicolon
  closed : BracesClosed ts

section Barred

variable {t o : Token} {s r w : List Token}

theorem Barred.ne_nil (h : Barred s) : s ≠ [] := by
  rintro rfl
  cases h.last

/-- What is left of barred tokens is barred. -/
theorem Barred.of_suffix (h : Barred s) (hr : r <:+ s) (hne : r ≠ []) : Barred r := by
  obtain ⟨front, rfl⟩ := hr
  refine ⟨?_, fun opening rest hrest => h.closed opening rest ?_⟩
  · rw [← h.last, List.getLast?_append_of_ne_nil front hne]
  · exact hrest.trans (List.suffix_append front r)

/-- Behind a token that is no semicolon some tokens are left. -/
theorem Barred.tail (h : Barred (t :: s)) (ht : t.kind ≠ .semicolon) : Barred s := by
  refine h.of_suffix (List.suffix_cons t s) ?_
  rintro rfl
  exact ht (Option.some.inj h.last)

/-- The closing brace of a block is found, and tokens are left behind it. -/
theorem Barred.exists_closing (h : Barred (o :: s)) (ho : o.kind = .openCurly) :
    ∃ c rest, closing 0 s = c :: rest ∧ Barred rest := by
  obtain ⟨inside, c, rest, hs, hc, hinside⟩ := h.closed o s (List.suffix_refl _) ho
  have hclosing := closing_eq_cons_iff.mpr ⟨inside, hs, hc, hinside⟩
  have hsuffix : c :: rest <:+ o :: s :=
    hclosing ▸ (closing_suffix 0 s).trans (List.suffix_cons o s)
  exact ⟨c, rest, hclosing, (h.of_suffix hsuffix (by simp)).tail (by rw [hc]; simp)⟩

end Barred

/-! ## Skipping in front of a barrier -/

/-- Moved tokens are skipped as those that they were. -/
theorem skipStatement_map_shift (n depth : Nat) (s : List Token) :
    skipStatement depth (s.map (Token.shift n)) = (skipStatement depth s).map (Token.shift n) := by
  induction s generalizing depth with
  | nil => rfl
  | cons t s ih =>
      have hdepth : depthAfter depth (t.shift n) = depthAfter depth t := rfl
      cases s with
      | nil => rw [List.map_singleton, skipStatement_singleton, skipStatement_singleton]; rfl
      | cons u us =>
          rw [List.map_cons] at ih
          rw [List.map_cons, List.map_cons, skipStatement_cons_cons, skipStatement_cons_cons,
            hdepth, ih, apply_ite (List.map (Token.shift n))]
          rfl

/-- A statement is skipped in front of the barrier, whatever stands behind it, if the
braces that are open around it are closed there. -/
theorem Barred.skipStatement_append {depth : Nat} {s : List Token} (h : Barred s)
    (hopen : ∀ k < depth, closing k s ≠ []) (w : List Token) :
    skipStatement depth (s ++ w) = skipStatement depth s ++ w := by
  induction s generalizing depth with
  | nil => exact absurd rfl h.ne_nil
  | cons t s ih =>
      cases s with
      | nil =>
          -- this is the barrier, at which all braces are closed
          have hsemi : t.kind = .semicolon := Option.some.inj h.last
          have hdepth : depth = 0 := by
            by_contra hne
            refine hopen 0 (Nat.pos_of_ne_zero hne) ?_
            rw [closing_cons (by rw [hsemi]; simp), closing_nil]
          subst hdepth
          have hdepth : depthAfter 0 t = 0 := depthAfter_of_semicolon hsemi
          rw [List.singleton_append, skipStatement_singleton, List.singleton_append]
          cases w with
          | nil => exact skipStatement_singleton 0 t
          | cons u us => rw [skipStatement_cons_cons, if_pos ⟨hdepth, .inl hsemi⟩]
      | cons u us =>
          rw [List.cons_append, List.cons_append, skipStatement_cons_cons, skipStatement_cons_cons]
          split
          · rfl
          · refine ih (h.of_suffix (List.suffix_cons _ _) (by simp)) fun k hk => ?_
            by_cases hkind : t.kind = .openCurly
            · -- one more brace is open, which is closed as well
              rw [depthAfter_of_openCurly hkind] at hk
              cases k with
              | zero =>
                  obtain ⟨c, rest, hclosing, -⟩ := h.exists_closing hkind
                  rw [hclosing]
                  simp
              | succ k =>
                  have hlater := hopen k (by omega)
                  rwa [closing_cons (by rw [hkind]; simp), depthAfter_of_openCurly hkind] at hlater
            · by_cases hclose : t.kind = .closeCurly
              · rw [depthAfter_of_closeCurly hclose] at hk
                have hlater := hopen (k + 1) (by omega)
                rwa [closing_cons fun _ => Nat.succ_ne_zero k,
                  depthAfter_of_closeCurly hclose] at hlater
              · rw [depthAfter_of_ne hkind hclose] at hk
                have hlater := hopen k hk
                rwa [closing_cons fun h => absurd h hclose, depthAfter_of_ne hkind hclose] at hlater

/-- So is one the first token of which is taken. -/
theorem Barred.skipStatement_append_of_taken {s : List Token} (h : Barred s.tail)
    (hopen : ∀ t ∈ s.head?, t.kind ≠ .openCurly) (w : List Token) :
    skipStatement 0 (s ++ w) = skipStatement 0 s ++ w := by
  obtain ⟨u, us, hus⟩ := List.exists_cons_of_ne_nil h.ne_nil
  cases s with
  | nil => cases hus
  | cons t ts =>
      rw [List.tail_cons] at h hus
      have hdepth : depthAfter 0 t = 0 := depthAfter_zero (hopen t rfl)
      rw [hus] at h ⊢
      rw [List.cons_append, List.cons_append, skipStatement_cons_cons, skipStatement_cons_cons,
        hdepth]
      split
      · rfl
      · exact h.skipStatement_append (by simp) w

/-! ## Runs on both sides of the barrier -/

/-- A run that is found again in another one: with more tokens behind its own and all of
them moved along by a number of bytes, and with other errors in front of its own. -/
structure Passage : Type where
  /-- Whether both runs come to their ends together. -/
  toEnd : Prop
  offset : Nat
  more : List Token
  found : List SyntaxError
  eof : Token
  eof' : Token
  ends : toEnd → more = [] ∧ eof' = eof.shift offset

namespace Passage

/-- Tokens that are left, the first of which is still to be taken: they are barred, if
the other run does not end with them. -/
def Held (w : Passage) (s : List Token) : Prop :=
  w.toEnd ∨ Barred s

/-- Tokens that are left, the first of which is taken and may be the barrier. -/
def Spent (w : Passage) (s : List Token) : Prop :=
  w.toEnd ∨ (s ≠ [] ∧ (s.tail ≠ [] → Barred s.tail))

/-- A state of the one run and the state of the other in which it is found again. -/
structure Onward (w : Passage) (P : List Token → Prop) (p p' : Parser) : Prop where
  regular : p.Regular
  regular' : p'.Regular
  eof : p.eof = w.eof
  eof' : p'.eof = w.eof'
  ahead : p'.ahead = (p.ahead ++ w.more).map (Token.shift w.offset)
  errors : p'.errors = w.found ++ p.errors.map (SyntaxError.shift w.offset)
  left : P p.ahead

/-- The same, with the current token taken. -/
def Behind (w : Passage) (p p' : Parser) : Prop :=
  w.Onward (fun s => w.Held s.tail) p p' ∧ p.current.kind ≠ .openCurly

/-- A statement broke in both runs. -/
def Broken (w : Passage) (p p' : Parser) : Prop :=
  p.errors ≠ [] ∧ (w.Onward w.Held p p' ∨ w.Behind p p')

variable {w : Passage} {P Q : List Token → Prop} {p p' : Parser} {s : List Token}

/-! ### Tokens in front of the barrier -/

theorem Held.ne_nil (h : w.Held s) : w.toEnd ∨ s ≠ [] :=
  h.imp_right Barred.ne_nil

theorem Held.ne_nil_of_tail (h : w.Held s.tail) : w.toEnd ∨ s ≠ [] :=
  h.imp_right fun h hs => h.ne_nil (by rw [hs]; rfl)

theorem Spent.ne_nil (h : w.Spent s) : w.toEnd ∨ s ≠ [] :=
  h.imp_right And.left

/-- A token that is no semicolon is taken. -/
theorem Held.tail {t : Token} (h : w.Held (t :: s)) (ht : t.kind ≠ .semicolon) : w.Held s :=
  h.imp_right fun h => h.tail ht

/-- Tokens that are still to be taken may as well be spent, -/
theorem Held.spent (h : w.Held s) : w.Spent s :=
  h.imp_right fun h => ⟨h.ne_nil, h.of_suffix (List.tail_suffix s)⟩

/-- and so may those the first of which is taken. -/
theorem Held.spent_of_tail (h : w.Held s.tail) : w.Spent s :=
  h.imp_right fun h => ⟨fun hs => h.ne_nil (by rw [hs]; rfl), fun _ => h⟩

/-- Further on they are spent as well. -/
theorem Spent.of_suffix {r : List Token} (h : w.Spent s) (hr : r <:+ s) (hne : s ≠ [] → r ≠ []) :
    w.Spent r :=
  h.imp_right fun h => ⟨hne h.1, fun htail =>
    (h.2 fun hs => htail (List.suffix_nil.mp (hs ▸ Parser.tail_suffix_tail hr))).of_suffix
      (Parser.tail_suffix_tail hr) htail⟩

/-! ### States on both sides -/

theorem Onward.imp (h : w.Onward P p p') (hleft : P p.ahead → Q p.ahead) : w.Onward Q p p' :=
  ⟨h.regular, h.regular', h.eof, h.eof', h.ahead, h.errors, hleft h.left⟩

theorem Onward.withVisits (h : w.Onward P p p') (visits visits' : List Visit) :
    w.Onward P { p with visits := visits } { p' with visits := visits' } :=
  ⟨h.regular.withVisits _, h.regular'.withVisits _, h.eof, h.eof', h.ahead, h.errors, h.left⟩

/-- The current token is the same, moved along. -/
theorem Onward.current (h : w.Onward P p p') (hp : w.toEnd ∨ p.ahead ≠ []) :
    p'.current = p.current.shift w.offset := by
  rw [Parser.current, Parser.current, h.ahead, h.eof, h.eof']
  cases hs : p.ahead with
  | nil =>
      obtain ⟨hmore, heof⟩ := w.ends (hp.resolve_right fun hne => hne hs)
      rw [hmore, heof]
      rfl
  | cons t ts => rfl

theorem Onward.advance (h : w.Onward (fun s => P s.tail) p p')
    (hp : w.toEnd ∨ p.ahead ≠ []) : w.Onward P p.advance p'.advance := by
  refine ⟨h.regular.advance, h.regular'.advance, h.eof, h.eof', ?_, h.errors, h.left⟩
  rw [Parser.ahead_advance, Parser.ahead_advance, h.ahead]
  cases hs : p.ahead with
  | nil =>
      rw [(w.ends (hp.resolve_right fun hne => hne hs)).1]
      rfl
  | cons t ts => rfl

theorem Onward.advance_of_spent (h : w.Onward w.Spent p p') :
    w.Onward (fun s => s ≠ [] → w.Held s) p.advance p'.advance :=
  (h.imp fun hleft hne => hleft.imp_right fun h => h.2 hne).advance h.left.ne_nil

/-- An error on a token is found again on that token, moved along. -/
theorem Onward.report (h : w.Onward P p p') (cause : Token.Kind → String → SyntaxError.Cause)
    {t u : Token} (htu : u = t.shift w.offset) :
    w.Onward P (p.report ⟨cause t.kind t.text, t.start⟩)
      (p'.report ⟨cause u.kind u.text, u.start⟩) := by
  subst htu
  refine ⟨h.regular.report _, h.regular'.report _, h.eof, h.eof', h.ahead, ?_, h.left⟩
  rw [Parser.errors_report, Parser.errors_report, h.errors, List.map_append, List.append_assoc]
  rfl

/-! ### Recovery on both sides -/

/-- Both statements ran into a closing brace, or none did: positions of errors and
tokens are moved along alike, also where they wrap around. -/
theorem Onward.ranInto_iff (h : w.Onward P p p') (hp : w.toEnd ∨ p.ahead ≠ [])
    (herrors : p.errors ≠ []) :
    p'.ranIntoClosingBrace = true ↔ p.ranIntoClosingBrace = true := by
  obtain ⟨es, e, hes⟩ := (List.eq_nil_or_concat' p.errors).resolve_left herrors
  rw [Parser.ranIntoClosingBrace_iff, Parser.ranIntoClosingBrace_iff, Parser.BrokeOn,
    Parser.BrokeOn, h.current hp, h.errors, hes, List.map_append, List.map_singleton,
    ← List.append_assoc, List.getLast?_concat, List.getLast?_concat]
  simp [SyntaxError.shift]

/-- **Broken statements are left alike**: both are skipped, or both stay where they are. -/
theorem Onward.recover (h : w.Onward w.Spent p p') (herrors : p.errors ≠ [])
    (hskip : skipStatement 0 (p.ahead ++ w.more) = skipStatement 0 p.ahead ++ w.more) :
    w.Onward w.Spent p.recover p'.recover ∧
      (p'.recover.ranIntoClosingBrace = true ↔ p.recover.ranIntoClosingBrace = true) := by
  have hran := h.ranInto_iff h.left.ne_nil herrors
  have hne : p.ahead ≠ [] → p.recover.ahead ≠ [] := by
    intro hne
    by_cases hstays : p.ranIntoClosingBrace = true
    · rwa [Parser.recover_of_ranInto hstays]
    · rw [Parser.recover_of_not_ranInto hstays]
      exact skipStatement_ne_nil hne
  have hboth : w.Onward w.Spent p.recover p'.recover := by
    refine ⟨h.regular.recover, h.regular'.recover, p.reaches_recover.eof.trans h.eof,
      p'.reaches_recover.eof.trans h.eof', ?_, ?_, h.left.of_suffix p.ahead_recover_suffix hne⟩
    · by_cases hstays : p.ranIntoClosingBrace = true
      · rw [Parser.recover_of_ranInto hstays, Parser.recover_of_ranInto (hran.mpr hstays), h.ahead]
      · rw [Parser.recover_of_not_ranInto hstays,
          Parser.recover_of_not_ranInto fun h => hstays (hran.mp h), ← hskip,
          ← skipStatement_map_shift, ← h.ahead]
    · rw [p.errors_recover, p'.errors_recover, h.errors]
  exact ⟨hboth, hboth.ranInto_iff hboth.left.ne_nil (by rwa [p.errors_recover])⟩

theorem Broken.recover (h : w.Broken p p') :
    w.Onward w.Spent p.recover p'.recover ∧
      (p'.recover.ranIntoClosingBrace = true ↔ p.recover.ranIntoClosingBrace = true) := by
  obtain ⟨herrors, h | ⟨h, hopen⟩⟩ := h
  · refine (h.imp Held.spent).recover herrors ?_
    rcases h.left with hend | hbarred
    · rw [(w.ends hend).1, List.append_nil, List.append_nil]
    · exact hbarred.skipStatement_append (by simp) w.more
  · refine (h.imp Held.spent_of_tail).recover herrors ?_
    rcases h.left with hend | hbarred
    · rw [(w.ends hend).1, List.append_nil, List.append_nil]
    · exact hbarred.skipStatement_append_of_taken (Parser.forall_mem_head?_of_current hopen) w.more

/-! ### The runs -/

/-- The one run goes on in the other. -/
def resumption (w : Passage) : Resumption where
  alike t u := u = t.shift w.offset
  free _ := False
  before := w.Onward w.Held
  behind := w.Behind
  ended := w.Onward w.Spent
  broken := w.Broken
  next := w.Onward fun s => s ≠ [] → w.Held s
  stopped := w.Onward w.Spent
  kind h := .inl (by rw [h]; rfl)
  text h _ := by rw [h]; rfl
  kind_eq h := by rw [h]; rfl
  regular h := ⟨h.regular, h.regular'⟩
  regular_behind h := ⟨h.1.regular, h.1.regular'⟩
  current h := h.current h.left.ne_nil
  take h hplain := by
    refine ⟨h.imp fun hleft => Held.tail ?_ hplain.2.2.1, hplain.1⟩
    rwa [← h.regular.ahead_eq_cons hplain.2.2.2]
  advance h := h.1.advance (Held.ne_nil_of_tail h.1.left)
  refuse cause h := ⟨by simp, .inl (h.report cause (h.current h.left.ne_nil))⟩
  refuse_next cause h := by
    have hp := Held.ne_nil_of_tail h.1.left
    have hnext := h.1.advance hp
    exact ⟨by simp, .inr ⟨h.1.report cause (hnext.current hnext.left.ne_nil), h.2⟩⟩
  ended_of_behind h := h.1.imp Held.spent_of_tail
  ended_of_semicolon h _ := (h.1.advance (Held.ne_nil_of_tail h.1.left)).imp Held.spent
  before_log _ _ h := h.withVisits _ _
  ended_log _ _ h := h.withVisits _ _
  stopped_log _ _ h := h.withVisits _ _
  recover {p _} h := by
    obtain ⟨hboth, hran⟩ := h.recover
    by_cases hstays : p.recover.ranIntoClosingBrace = true
    · exact .inl ⟨hstays, hran.mpr hstays, hboth⟩
    · exact .inr ⟨hstays, fun h => hstays (hran.mp h), hboth⟩
  next_of_ended h := h.advance_of_spent
  next_of_stopped h := h.advance_of_spent
  before_of_next {p _} h hne := h.imp fun hnext => hnext (h.regular.steady.ahead_ne_nil hne)

/-- Blocks are read alike: each one is closed in front of the barrier. -/
theorem block {nested nested' : Nested} (hn : nested.Together w.resumption.toParallel nested')
    (hbraces : nested.KeepsBraces False) (hbraces' : nested'.KeepsBraces False)
    (h : w.Onward w.Held p p') (hopening : p.current.kind = .openCurly) :
    (Rule.block nested p).Agree
      (fun b q c r => b.Alike w.resumption.alike w.resumption.free c ∧ w.Behind q r) w.Broken
      (Rule.block nested' p') := by
  have hheld := h.left
  rw [h.regular.ahead_eq_cons (by rw [hopening]; simp)] at hheld
  have hclosing : w.toEnd ∨ ∃ c rest, closing 0 p.ahead.tail = c :: rest ∧ Barred rest :=
    hheld.imp_right fun h => h.exists_closing hopening
  refine Resumption.block (c := w.resumption) hn hbraces hbraces'
    (fun hq => ⟨⟨hq.regular, False.elim⟩, hq.regular', False.elim⟩) (h.current h.left.ne_nil)
    (Onward.advance (h.imp fun _ => hheld.tail (by rw [hopening]; simp)) h.left.ne_nil)
    (fun q _ hnext hclosed => ?_) fun q _ hover hend _ => ?_
  · -- the closing brace of the block is still there
    refine Onward.imp hnext fun hleft => hclosing.elim .inl ?_
    rintro ⟨c, rest, hrest, -⟩
    refine hleft fun hnil => ?_
    have hno := hclosed.no_later 0
    rw [hnil, hrest, closing_nil, List.suffix_nil] at hno
    cases hno
  · have hq : w.Onward w.Spent q _ := hover.elim (fun h => Onward.imp h Held.spent) id
    have hordered : q.OrderedIf False := ⟨hq.regular, False.elim⟩
    refine ⟨hq.imp fun hleft => hclosing.elim .inl ?_,
      (Parser.taken_of_brace hordered hend.brace).opening⟩
    rintro ⟨c, rest, hrest, hbarred⟩
    refine hleft.imp_right fun hspent => hspent.2 fun hnil => hbarred.ne_nil ?_
    -- the block ended on its brace or in front of it, so that more is left behind
    have hsuffix := Parser.tail_suffix_tail hend.closing_suffix
    rwa [hrest, hnil, List.suffix_nil] at hsuffix

end Passage

/-- **The one run goes on in the other** at all depths of nesting. -/
theorem Nested.together_passage (w : Passage) (n n' : Nat) :
    (level n).Together w.resumption.toParallel (level n') := by
  induction n generalizing n' with
  | zero => exact ⟨fun _ _ _ _ => .cut _, fun _ _ => .cut _⟩
  | succ n ih =>
      cases n' with
      | zero => exact ⟨fun _ _ _ _ => .cutBeside _, fun _ _ => .cutBeside _⟩
      | succ n' => exact ⟨(ih n').expression, fun h hopening =>
          Passage.block (ih n') (keepsBraces_level False n) (keepsBraces_level False n') h
            hopening⟩

/-! ## Programs on both sides of the barrier -/

/-- Behind a semicolon a source goes on with the tokens of what is put there. -/
theorem Parser.ahead_ofSource_append {a b : String}
    (hlast : (Lexer.tokenize a).dropLast.getLast?.map Token.kind = some .semicolon) :
    (ofSource (a ++ b)).ahead =
      (ofSource a).ahead ++ (ofSource b).ahead.map (Token.shift a.utf8ByteSize) := by
  simp only [ahead_ofSource_eq_dropLast]
  refine Lexer.dropLast_tokenize_append fun t ht c _ => ?_
  rw [Option.mem_def.mp ht] at hlast
  rw [Option.some.inj hlast]
  rfl

/-- The run on a source, in front of the barrier of a longer one. -/
def Passage.front (a b : String) : Passage where
  toEnd := False
  offset := 0
  more := (Parser.ofSource b).ahead.map (Token.shift a.utf8ByteSize)
  found := []
  eof := (Parser.ofSource a).eof
  eof' := (Parser.ofSource (a ++ b)).eof
  ends := False.elim

/-- The run on a source, behind the barrier of a longer one and the errors found there. -/
def Passage.back (a b : String) (found : List SyntaxError) : Passage where
  toEnd := True
  offset := a.utf8ByteSize
  more := []
  found := found
  eof := (Parser.ofSource b).eof
  eof' := (Parser.ofSource (a ++ b)).eof
  ends := fun _ => by
    rw [Parser.eof_ofSource, Parser.eof_ofSource, String.utf8ByteSize_append, Nat.add_comm,
      Token.shift_endOfInput]
    exact ⟨rfl, rfl⟩

/-- The longer source begins like the one in front of the barrier. -/
theorem Passage.onward_front {a b : String}
    (hlast : (Lexer.tokenize a).dropLast.getLast?.map Token.kind = some .semicolon)
    (hclosed : BracesClosed (Lexer.tokenize a).dropLast) :
    (front a b).Onward (fun s => s ≠ [] → (front a b).Held s) (.ofSource a)
      (.ofSource (a ++ b)) := by
  refine ⟨Parser.regular_ofSource a, Parser.regular_ofSource _, rfl, rfl, ?_, rfl, fun _ => ?_⟩
  · rw [Parser.ahead_ofSource_append hlast, front, Token.shift_zero, List.map_id]
  · rw [Parser.ahead_ofSource_eq_dropLast]
    exact .inr ⟨hlast, hclosed⟩

/-- Where the run in front of the barrier is over, the one behind it begins. -/
theorem Passage.onward_back {a b : String} {P : List Token → Prop} {q r : Parser}
    (h : (front a b).Onward P q r) (hq : q.current.kind = .eof) :
    (back a b q.errors).Onward (fun s => s ≠ [] → (back a b q.errors).Held s) (.ofSource b) r := by
  refine ⟨Parser.regular_ofSource b, h.regular', rfl, h.eof', ?_, ?_, fun _ => .inl trivial⟩
  · rw [h.ahead, h.regular.ahead_eq_nil_iff.mpr hq, front, back, Token.shift_zero, List.map_id,
      List.nil_append, List.append_nil]
  · rw [h.errors, front, back, SyntaxError.shift_zero, List.map_id]
    exact (List.append_nil _).symm

/-- Behind the barrier both runs end together. -/
theorem Passage.eof_of_onward_back {a b : String} {found : List SyntaxError}
    {P : List Token → Prop} {p p' : Parser} (h : (back a b found).Onward P p p')
    (hp : p.current.kind = .eof) : p'.current.kind = .eof := by
  rw [h.current (.inl trivial), Token.kind_shift, hp]

/-- **A semicolon outside of blocks is a barrier**: what comes of a source that ends in
one, with all its blocks closed, and of another source behind it is what comes of the
one and then, moved along, what comes of the other. -/
theorem parse_append_of_semicolon {a b : String}
    (hlast : (Lexer.tokenize a).dropLast.getLast?.map Token.kind = some .semicolon)
    (hclosed : BracesClosed (Lexer.tokenize a).dropLast) :
    (parse (a ++ b)).program.statements =
        (parse a).program.statements ++
          (parse b).program.statements.map (Stmt.map (Token.shift a.utf8ByteSize)) ∧
      (parse (a ++ b)).errors =
        (parse a).errors ++ (parse b).errors.map (SyntaxError.shift a.utf8ByteSize) := by
  obtain ⟨n, items, q, ha, hq, hparse⟩ := exists_gathers_parse a
  obtain ⟨k, items', q', hb, hq', hparse'⟩ := exists_gathers_parse b
  obtain ⟨m, all, r, hab, hr, hparse''⟩ := exists_gathers_parse (a ++ b)
  -- the run of the one source goes on in both up to the barrier
  obtain ⟨first, rest, t, rfl, hfirst, hrest, ht⟩ :=
    Resumption.gathers (c := (Passage.front a b).resumption) (Nested.together_passage _ n m) ha hab
      hr (Passage.onward_front hlast hclosed)
  -- and the run of the other one behind it
  obtain ⟨hstatements, hboth⟩ :=
    Resumption.gathers_to_end (c := (Passage.back a b q.errors).resumption)
      (Nested.together_passage _ k m) (fun _ _ => Passage.eof_of_onward_back) hb hrest hq' hr
      (Passage.onward_back ht hq)
  have hone := Stmt.eq_mapList_of_alike _ _ (Parse.forall₂_filterMap hfirst)
  have htwo := Stmt.eq_mapList_of_alike _ _ hstatements
  rw [Passage.front, Token.shift_zero, Stmt.mapList_id] at hone
  rw [Stmt.mapList_eq_map] at htwo
  rw [hparse, hparse', hparse'']
  refine ⟨?_, hboth.errors⟩
  rw [List.filterMap_append, hone, htwo]
  rfl

/-- A stray brace and a broken block in front of the barrier, a broken statement
behind it. -/
theorem parse_append_of_semicolon_sample :
    (parse ("@ 1; \x7d if (x) \x7b ! \x7d;" ++ "@ y = 2; (3")).program.statements.length = 2 ∧
      (parse ("@ 1; \x7d if (x) \x7b ! \x7d;" ++ "@ y = 2; (3")).errors =
        (parse "@ 1; \x7d if (x) \x7b ! \x7d;").errors ++
          (parse "@ y = 2; (3").errors.map (SyntaxError.shift 20) := by
  have h := parse_append_of_semicolon (a := "@ 1; \x7d if (x) \x7b ! \x7d;") (b := "@ y = 2; (3")
    (by decide +kernel) (by decide +kernel)
  refine ⟨?_, h.2⟩
  rw [h.1, List.length_append, List.length_map]
  decide +kernel

end ExprLang
