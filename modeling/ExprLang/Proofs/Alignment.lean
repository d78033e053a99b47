/-
# Two sources side by side

Two sources that are read side by side, their tokens compared as they are taken.
An `Alignment` says which tokens left on one side go with which on the other, and
lists what taking tokens, blocks and whole pieces has to keep.  From that it
follows that statements, blocks and programs go together, and with them the errors,
also where statements break; positions have to tell the tokens of each source apart.
Main statements: `Alignment.Broken.recover` (broken statements are left side by side),
`Nested.together_level` and `Alignment.parse_alike` (programs go together).
-/
import ExprLang.Proofs.Course
import ExprLang.Proofs.Statements

namespace ExprLang

/-! ## Alignments -/

/-- A way in which the tokens of two sources go together.  `left` relates what is
left where a token is still to be taken, `next` what is left behind a statement,
where one of the two sources may be at its end. -/
structure Alignment : Type where
  /-- Which tokens stand for each other. -/
  alike : Token → Token → Prop
  /-- The opening braces behind which the blocks are not compared. -/
  free : Token → Prop
  /-- The end marker of the one source. -/
  eof : Token
  /-- The end marker of the other. -/
  eof' : Token
  left : List Token → List Token → Prop
  next : List Token → List Token → Prop
  errors : List SyntaxError → List SyntaxError → Prop
  kind : ∀ {t u : Token}, alike t u → t.kind = u.kind
  text : ∀ {t u : Token}, alike t u → t.text = u.text
  nil : ∀ {s' : List Token}, left [] s' → s' = [] ∧ alike eof eof'
  cons : ∀ {t : Token} {s s' : List Token}, left (t :: s) s' →
    ∃ u us, s' = u :: us ∧ alike t u
  take : ∀ {t u : Token} {s s' : List Token}, left (t :: s) (u :: s') →
    t.kind ≠ .openCurly → t.kind ≠ .closeCurly → t.kind ≠ .semicolon → left s s'
  semicolon : ∀ {t u : Token} {s s' : List Token}, left (t :: s) (u :: s') →
    t.kind = .semicolon → next s s'
  stray : ∀ {t u : Token} {s s' : List Token}, left (t :: s) (u :: s') →
    t.kind = .closeCurly → next s s'
  enter : ∀ {t u : Token} {s s' : List Token}, left (t :: s) (u :: s') →
    t.kind = .openCurly → ¬ free t → left s s'
  leave : ∀ {t u : Token} {s s' : List Token}, left (t :: s) (u :: s') →
    t.kind = .openCurly → left (closing 0 s).tail (closing 0 s').tail
  next_of_left : ∀ {s s' : List Token}, left s s' → next s s'
  left_of_next : ∀ {s s' : List Token}, next s s' → s ≠ [] → left s s'
  unclosed : ∀ {t u : Token} {s s' : List Token}, left (t :: s) (u :: s') →
    t.kind = .openCurly → ¬ free t → closing 0 s = [] → ∀ r r', next r r' → left r r'
  report : ∀ {es es' : List SyntaxError} {t u : Token}
    (cause : Token.Kind → String → SyntaxError.Cause), errors es es' → alike t u →
    errors (es ++ [⟨cause t.kind t.text, t.start⟩]) (es' ++ [⟨cause u.kind u.text, u.start⟩])
  skip : ∀ {t u : Token} {s s' : List Token} {es es' fs fs' : List SyntaxError},
    left (t :: s) (u :: s') → t.kind = .openCurly → free t → errors es es' →
    (∀ e ∈ fs, closing 0 s ≠ [] → e.Between s (closing 0 s)) →
    (∀ e ∈ fs', closing 0 s' ≠ [] → e.Between s' (closing 0 s')) →
    errors (es ++ fs) (es' ++ fs')

namespace Alignment

variable (A : Alignment)

/-- Two states are side by side when their tokens are related and so are the errors
found so far. -/
structure Beside (R : List Token → List Token → Prop) (p p' : Parser) : Prop where
  ordered : p.Ordered
  ordered' : p'.Ordered
  eof : p.eof = A.eof
  eof' : p'.eof = A.eof'
  tokens : R p.ahead p'.ahead
  errors : A.errors p.errors p'.errors

/-- Two states are side by side with their current tokens taken. -/
def Behind (p p' : Parser) : Prop :=
  A.Beside (fun s s' => A.left s.tail s'.tail) p p' ∧ p.Taken True ∧ p'.Taken True

/-- Two states are side by side behind a statement. -/
def Ended : Parser → Parser → Prop :=
  A.Beside fun s s' => A.next s.tail s'.tail

/-- Two statements broke side by side, on their current tokens or on the next ones. -/
def Broken (p p' : Parser) : Prop :=
  (A.Beside A.left p p' ∧ p.BrokeOn p.current ∧ p'.BrokeOn p'.current) ∨
    (A.Behind p p' ∧ p.BrokeOn p.peek ∧ p'.BrokeOn p'.peek)

variable {A} {R R' : List Token → List Token → Prop} {p p' : Parser} {s s' : List Token}

theorem Beside.imp (h : A.Beside R p p') (hR : R p.ahead p'.ahead → R' p.ahead p'.ahead) :
    A.Beside R' p p' :=
  ⟨h.ordered, h.ordered', h.eof, h.eof', hR h.tokens, h.errors⟩

theorem Beside.advance (h : A.Beside (fun s s' => R s.tail s'.tail) p p') :
    A.Beside R p.advance p'.advance :=
  ⟨h.ordered.advance, h.ordered'.advance, h.eof, h.eof', h.tokens, h.errors⟩

theorem Beside.withVisits (h : A.Beside R p p') (visits visits' : List Visit) :
    A.Beside R { p with visits := visits } { p' with visits := visits' } :=
  ⟨h.ordered.withVisits _, h.ordered'.withVisits _, h.eof, h.eof', h.tokens, h.errors⟩

theorem Beside.report (h : A.Beside R p p') {t u : Token} (htu : A.alike t u)
    (cause : Token.Kind → String → SyntaxError.Cause) :
    A.Beside R (p.report ⟨cause t.kind t.text, t.start⟩)
      (p'.report ⟨cause u.kind u.text, u.start⟩) :=
  ⟨h.ordered.report _, h.ordered'.report _, h.eof, h.eof', h.tokens, A.report cause h.errors htu⟩

/-- The current tokens stand for each other. -/
theorem Beside.current (h : A.Beside A.left p p') : A.alike p.current p'.current := by
  have htokens := h.tokens
  rw [Parser.current, Parser.current, h.eof, h.eof']
  cases hp : p.ahead with
  | nil =>
      rw [hp] at htokens
      obtain ⟨hp', heof⟩ := A.nil htokens
      rw [hp']
      exact heof
  | cons t ts =>
      rw [hp] at htokens
      obtain ⟨u, us, hp', htu⟩ := A.cons htokens
      rw [hp']
      exact htu

/-- Both sides have a token to take, or none. -/
theorem Beside.ahead_eq_cons (h : A.Beside A.left p p') (hp : p.current.kind ≠ .eof) :
    p.ahead = p.current :: p.ahead.tail ∧ p'.ahead = p'.current :: p'.ahead.tail := by
  refine ⟨h.ordered.ahead_eq_cons hp, h.ordered'.ahead_eq_cons ?_⟩
  rwa [← A.kind h.current]

theorem Beside.left_cons (h : A.Beside A.left p p') (hp : p.current.kind ≠ .eof) :
    A.left (p.current :: p.ahead.tail) (p'.current :: p'.ahead.tail) := by
  obtain ⟨hahead, hahead'⟩ := h.ahead_eq_cons hp
  rw [← hahead, ← hahead']
  exact h.tokens

/-- The states of two runs over sources that are aligned. -/
def parallel (A : Alignment) : Parallel where
  alike := A.alike
  free := A.free
  before := A.Beside A.left
  behind := A.Behind
  ended := A.Ended
  broken := A.Broken
  kind h := .inl (A.kind h)
  text h _ := A.text h
  regular h := ⟨h.ordered.toRegular, h.ordered'.toRegular⟩
  regular_behind h := ⟨h.1.ordered.toRegular, h.1.ordered'.toRegular⟩
  current h := h.current
  take {p p'} h hplain := by
    have hkind := A.kind h.current
    refine ⟨h.imp fun _ => ?_, ⟨h.ordered, hplain.1, hplain.2.2.1⟩, h.ordered', ?_, ?_⟩
    · exact A.take (h.left_cons hplain.2.2.2) hplain.1 hplain.2.1 hplain.2.2.1
    · rw [← hkind]
      exact hplain.1
    · rw [← hkind]
      exact hplain.2.2.1
  advance h := h.1.advance
  refuse cause h := .inl ⟨h.report h.current cause, Parser.brokeOn_report _ _ _,
    Parser.brokeOn_report _ _ _⟩
  refuse_next cause h := .inr
    ⟨⟨h.1.report h.1.advance.current cause, h.2.1.report _, h.2.2.report _⟩,
      Parser.brokeOn_report _ _ _, Parser.brokeOn_report _ _ _⟩
  ended_of_behind h := h.1.imp A.next_of_left
  ended_of_semicolon h hsemi := by
    have hnext := h.1.advance
    refine hnext.imp fun _ => A.semicolon (hnext.left_cons ?_) hsemi
    rw [Parser.current_advance, hsemi]
    simp

end Alignment

/-! ## Recovery -/

namespace Alignment

variable {A : Alignment} {p p' : Parser}

/-- **Pieces end side by side.** -/
theorem next_pieceEnd {s s' : List Token} (h : A.left s s') :
    A.next (pieceEnd 0 s) (pieceEnd 0 s') := by
  induction hn : s.length using Nat.strong_induction_on generalizing s s' with
  | _ n ih =>
    cases s with
    | nil =>
        rw [(A.nil h).1]
        exact A.next_of_left (by rwa [(A.nil h).1] at h)
    | cons t ts =>
        obtain ⟨u, us, rfl, htu⟩ := A.cons h
        have hkind := A.kind htu
        have hlt : ts.length < n := by
          rw [← hn]
          exact Nat.lt_succ_self _
        by_cases hclose : t.kind = .closeCurly
        · rw [pieceEnd_of_closeCurly hclose, pieceEnd_of_closeCurly (hkind ▸ hclose)]
          exact A.next_of_left h
        · by_cases hsemi : t.kind = .semicolon
          · rw [pieceEnd_of_semicolon hsemi, pieceEnd_of_semicolon (hkind ▸ hsemi)]
            exact A.semicolon h hsemi
          · by_cases hopen : t.kind = .openCurly
            · -- both pieces go on behind the block
              rw [pieceEnd_of_openCurly hopen, pieceEnd_of_openCurly (hkind ▸ hopen),
                pieceEnd_succ, pieceEnd_succ]
              refine ih _ ?_ (A.leave h hopen) rfl
              have := (closing_suffix 0 ts).length_le
              rw [List.length_tail]
              omega
            · rw [pieceEnd_cons (fun h => absurd h hclose) (fun h => absurd h hsemi),
                pieceEnd_cons (fun h => absurd (hkind.trans h) hclose)
                  (fun h => absurd (hkind.trans h) hsemi), depthAfter_zero hopen,
                depthAfter_zero (hkind ▸ hopen)]
              exact ih _ hlt (A.take h hopen hclose hsemi) rfl

/-- Statements that did not run into a closing brace are left behind their pieces. -/
theorem Beside.recover {R : List Token → List Token → Prop} {s s' : List Token}
    (h : A.Beside R p p') (hs : p.BrokeBefore True s)
    (hs' : p'.BrokeBefore True s') (hleft : A.left s s')
    (hran : ¬ p.ranIntoClosingBrace = true) (hran' : ¬ p'.ranIntoClosingBrace = true) :
    ¬ p.recover.ranIntoClosingBrace = true ∧ ¬ p'.recover.ranIntoClosingBrace = true ∧
      A.Ended p.recover p'.recover := by
  have hnot := hs.broken.not_ranInto_recover trivial hran
  have hnot' := hs'.broken.not_ranInto_recover trivial hran'
  refine ⟨hnot, hnot', h.ordered.recover, h.ordered'.recover, ?_, ?_, ?_, ?_⟩
  · rw [p.reaches_recover.eof, h.eof]
  · rw [p'.reaches_recover.eof, h.eof']
  · rw [hs.recover.2 hnot, hs'.recover.2 hnot']
    exact next_pieceEnd hleft
  · rw [p.errors_recover, p'.errors_recover]
    exact h.errors

/-- **Broken statements are left side by side**: on closing braces into which both
ran, or else behind their pieces. -/
theorem Broken.recover (h : A.Broken p p') :
    (p.recover.ranIntoClosingBrace = true ∧ p'.recover.ranIntoClosingBrace = true ∧
        p.recover.current.kind = .closeCurly ∧ A.Beside A.left p.recover p'.recover) ∨
      (¬ p.recover.ranIntoClosingBrace = true ∧ ¬ p'.recover.ranIntoClosingBrace = true ∧
        A.Ended p.recover p'.recover) := by
  rcases h with ⟨h, hon, hon'⟩ | ⟨h, hon, hon'⟩
  · have hkind := A.kind h.current
    by_cases hclose : p.current.kind = .closeCurly
    · have hran := Parser.ranIntoClosingBrace_iff.mpr ⟨hclose, hon⟩
      have hran' := Parser.ranIntoClosingBrace_iff.mpr ⟨hkind ▸ hclose, hon'⟩
      rw [Parser.recover_of_ranInto hran, Parser.recover_of_ranInto hran']
      exact .inl ⟨hran, hran', hclose, h⟩
    · refine .inr (h.recover (.inl ⟨h.ordered, rfl, hon⟩) (.inl ⟨h.ordered', rfl, hon'⟩) h.tokens
        (fun hran => ?_) fun hran => ?_)
      · exact hclose (Parser.ranIntoClosingBrace_iff.mp hran).1
      · exact hclose (hkind.trans (Parser.ranIntoClosingBrace_iff.mp hran).1)
  · exact .inr (h.1.recover (.inr ⟨h.2.1, rfl, hon⟩) (.inr ⟨h.2.2, rfl, hon'⟩) h.1.tokens
      (fun hran => h.2.1.ordered.not_brokeOn_peek trivial hran hon)
      fun hran => h.2.2.ordered.not_brokeOn_peek trivial hran hon')

end Alignment

/-! ## Statements and blocks -/

open Parse

namespace Alignment

variable {A : Alignment} {p p' : Parser} {nested nested' : Nested}

/-- The two runs go on together behind statements. -/
def resumption (A : Alignment) : Resumption where
  toParallel := A.parallel
  next := A.Beside A.next
  stopped p p' := p.current.kind = .closeCurly ∧ A.Beside A.left p p'
  kind_eq h := A.kind h
  before_log _ _ h := h.withVisits _ _
  ended_log _ _ h := h.withVisits _ _
  stopped_log _ _ h := ⟨h.1, h.2.withVisits _ _⟩
  recover h := Broken.recover h
  next_of_ended h := h.advance
  next_of_stopped h :=
    Beside.advance (h.2.imp fun _ => A.stray (h.2.left_cons (by rw [h.1]; simp)) h.1)
  before_of_next {p _} h hne := h.imp fun hnext =>
    A.left_of_next hnext (by rw [h.ordered.ahead_eq_cons hne]; simp)

/-- Blocks that are compared go together, statement by statement. -/
theorem block_of_not_free (hn : nested.Together A.parallel nested')
    (hbraces : nested.KeepsBraces True) (hbraces' : nested'.KeepsBraces True)
    (h : A.Beside A.left p p') (hopening : p.current.kind = .openCurly)
    (hfree : ¬ A.free p.current) :
    (Rule.block nested p).Agree
      (fun b q c r => b.Alike A.alike A.free c ∧ A.Behind q r) A.Broken
      (Rule.block nested' p') := by
  have hleft := h.left_cons (by rw [hopening]; simp)
  refine Resumption.block (c := A.resumption) hn hbraces hbraces'
    (fun hq => ⟨hq.ordered, hq.ordered'⟩) h.current
    (Beside.advance (h.imp fun _ => A.enter hleft hopening hfree)) (fun q q' hnext hclosed => ?_)
    fun q q' hover hend hend' => ?_
  · -- behind a statement of an open block nothing is left only if it is never closed
    refine hnext.imp fun hr => ?_
    by_cases hnil : q.ahead = []
    · rw [hnil] at hclosed
      exact A.unclosed hleft hopening hfree (hclosed.same trivial 0).symm _ _ hr
    · exact A.left_of_next hr hnil
  · have hq : A.Beside A.left q q' := hover.elim id fun h => h.2
    refine ⟨hq.imp fun _ => ?_, Parser.taken_of_brace hq.ordered hend.brace,
      Parser.taken_of_brace hq.ordered' hend'.brace⟩
    rw [hend.eq_closing trivial, hend'.eq_closing trivial]
    exact A.leave hleft hopening

/-- Blocks that are not compared are read by themselves, and end side by side. -/
theorem block_of_free (n n' : Nat) (h : A.Beside A.left p p')
    (hopening : p.current.kind = .openCurly) (hfree : A.free p.current) :
    (Rule.block (.level n) p).Agree
      (fun b q c r => b.Alike A.alike A.free c ∧ A.Behind q r) A.Broken
      (Rule.block (.level n') p') := by
  have hleft := h.left_cons (by rw [hopening]; simp)
  have hopening' : p'.current.kind = .openCurly := (A.kind h.current).symm.trans hopening
  have hreaches := (Nested.reaches_level (n + 1) p).block p (.refl p) hopening
  have hreaches' := (Nested.reaches_level (n' + 1) p').block p' (.refl p') hopening'
  refine .of_meets
    (((Rule.block_course (Nested.along_level True n) (Nested.keepsBraces_level True n)
      h.ordered).and hreaches).imp (fun _ _ h => h) (fun _ h => h.1) fun _ => trivial)
    (((Rule.block_course (Nested.along_level True n') (Nested.keepsBraces_level True n')
      h.ordered').and hreaches').imp (fun _ _ h => h) (fun _ h => h.1) fun _ => trivial) ?_
  rintro _ q _ r ⟨⟨⟨hordered, hend⟩, ⟨ss, rfl⟩, inner, rest, hinner, -, hrest, -, herrors⟩, hq⟩
    ⟨⟨⟨hordered', hend'⟩, ⟨rs, rfl⟩, inner', rest', hinner', -, hrest', -, herrors'⟩, hr⟩
  rw [hrest trivial, hend.eq_closing trivial] at hinner
  rw [hrest' trivial, hend'.eq_closing trivial] at hinner'
  refine ⟨.exempt ss rs h.current hfree, ⟨hordered, hordered', hq.eof.trans h.eof,
    hr.eof.trans h.eof', ?_, ?_⟩, Parser.taken_of_brace hordered hend.brace,
    Parser.taken_of_brace hordered' hend'.brace⟩
  · rw [hend.eq_closing trivial, hend'.eq_closing trivial]
    exact A.leave hleft hopening
  · rw [herrors, herrors']
    exact A.skip hleft hopening hfree h.errors (fun e he hne => hinner.between hne he)
      fun e he hne => hinner'.between hne he

end Alignment

/-- **Runs go together** at all depths of nesting. -/
theorem Nested.together_level (A : Alignment) (n n' : Nat) :
    (level n).Together A.parallel (level n') := by
  induction n generalizing n' with
  | zero => exact ⟨fun _ _ _ _ => .cut _, fun _ _ => .cut _⟩
  | succ n ih =>
      cases n' with
      | zero => exact ⟨fun _ _ _ _ => .cutBeside _, fun _ _ => .cutBeside _⟩
      | succ n' =>
          refine ⟨(ih n').expression, fun {p p'} h hopening => ?_⟩
          by_cases hfree : A.free p.current
          · exact Alignment.block_of_free n n' h hopening hfree
          · exact Alignment.block_of_not_free (ih n') (keepsBraces_level True n)
              (keepsBraces_level True n') h hopening hfree

/-! ## Programs -/

/-- **Programs go together to their ends**, if behind each statement tokens are still
left on both sides or on none. -/
theorem Alignment.parse_alike (A : Alignment) {a b : String}
    (hnext : ∀ s s' : List Token, A.next s s' → A.left s s')
    (h : A.Beside A.next (.ofSource a) (.ofSource b)) :
    List.Forall₂ (Stmt.Alike A.alike A.free) (parse a).program.statements
        (parse b).program.statements ∧
      A.errors (parse a).errors (parse b).errors := by
  obtain ⟨n, items, q, ha, hq, hparse⟩ := exists_gathers_parse a
  obtain ⟨n', items', q', hb, hq', hparse'⟩ := exists_gathers_parse b
  have hends : ∀ p p' : Parser, A.Beside A.next p p' → p.current.kind = .eof →
      p'.current.kind = .eof := by
    intro p p' hp heof
    rw [← A.kind (hp.imp (hnext _ _)).current, heof]
  obtain ⟨hstatements, hboth⟩ := Resumption.gathers_to_end (c := A.resumption)
    (Nested.together_level A n n') hends ha hb hq hq' h
  rw [hparse, hparse']
  exact ⟨hstatements, hboth.errors⟩

/-! ## Sources compared token by token -/

section Pointwise

variable {T : Token → Token → Prop}

/-- Closing braces are found at the same places. -/
theorem forall₂_closing (hkind : ∀ {t u : Token}, T t u → t.kind = u.kind) {s s' : List Token}
    (h : List.Forall₂ T s s') (depth : Nat) :
    List.Forall₂ T (closing depth s) (closing depth s') := by
  induction h generalizing depth with
  | nil => exact .nil
  | @cons t u ts us htu hrest ih =>
      have hdepth : depthAfter depth t = depthAfter depth u := by
        unfold depthAfter
        rw [hkind htu]
      rw [closing, closing, hkind htu, hdepth]
      split
      · exact .cons htu hrest
      · exact ih _

theorem forall₂_tail {s s' : List Token} (h : List.Forall₂ T s s') :
    List.Forall₂ T s.tail s'.tail := by
  cases h with
  | nil => exact .nil
  | cons _ hrest => exact hrest

/-- Sources whose tokens go together one by one, whatever the errors found before. -/
def Alignment.pointwise (T : Token → Token → Prop) (eof eof' : Token)
    (E : List SyntaxError → List SyntaxError → Prop)
    (hkind : ∀ {t u : Token}, T t u → t.kind = u.kind)
    (htext : ∀ {t u : Token}, T t u → t.text = u.text) (heof : T eof eof')
    (hreport : ∀ {es es' : List SyntaxError} {t u : Token}
      (cause : Token.Kind → String → SyntaxError.Cause), E es es' → T t u →
        E (es ++ [⟨cause t.kind t.text, t.start⟩]) (es' ++ [⟨cause u.kind u.text, u.start⟩])) :
    Alignment where
  alike := T
  free _ := False
  eof := eof
  eof' := eof'
  left := List.Forall₂ T
  next := List.Forall₂ T
  errors := E
  kind := hkind
  text := htext
  nil h := by
    cases h
    exact ⟨rfl, heof⟩
  cons h := by
    cases h with
    | cons htu _ => exact ⟨_, _, rfl, htu⟩
  take h _ _ _ := forall₂_tail h
  semicolon h _ := forall₂_tail h
  stray h _ := forall₂_tail h
  enter h _ _ := forall₂_tail h
  leave h _ := forall₂_tail (forall₂_closing hkind (forall₂_tail h) 0)
  next_of_left h := h
  left_of_next h _ := h
  unclosed _ _ _ _ _ _ h := h
  report := hreport
  skip _ _ hfree := hfree.elim

end Pointwise

end ExprLang
