/-
# Sources that are cut off

Blocks end with the input as they end on their closing braces, so that closing
what a source leaves open changes nothing.  The source and the completed one are
read side by side, at a depth of open blocks: what is left of the one is what is
left of the other with a closing brace behind it for each brace that is open at
the end (`Completes`).  Where the one run is at the end of its input, the other
one goes on over the braces; no node keeps one of these.  Main statements:
`parse_closeOff` and, from 4 GiB on, `parse_closeOff_apart`.
-/
import ExprLang.Proofs.Alignment
import ExprLang.Proofs.Concatenation
import ExprLang.Proofs.Provenance
import ExprLang.Proofs.Wrapping

namespace ExprLang

/-! ## Braces that are left open -/

/-- The opening braces among some tokens that have no matching brace behind them. -/
def unclosed : List Token → List Token
  | [] => []
  | t :: ts => if t.kind = .openCurly ∧ closing 0 ts = [] then t :: unclosed ts else unclosed ts

/-- How many braces are open behind some tokens, when `depth` were open before. -/
def depthBehind (depth : Nat) (ts : List Token) : Nat :=
  ts.foldl depthAfter depth

theorem depthBehind_cons (depth : Nat) (t : Token) (ts : List Token) :
    depthBehind depth (t :: ts) = depthBehind (depthAfter depth t) ts := rfl

theorem depthBehind_append (depth : Nat) (ts us : List Token) :
    depthBehind depth (ts ++ us) = depthBehind (depthBehind depth ts) us :=
  List.foldl_append

/-- Tokens that close some braces leave those around open. -/
theorem depthBehind_of_closes {d depth : Nat} {ts : List Token} (h : Closes depth ts) :
    depthBehind (d + depth) ts = d := by
  induction ts generalizing depth with
  | nil => rw [closes_nil_iff.mp h]; rfl
  | cons t ts ih =>
      obtain ⟨hne, hrest⟩ := closes_cons_iff.mp h
      rw [depthBehind_cons, depthAfter_add d hne]
      exact ih hrest

/-- A brace that no brace closes stays open. -/
theorem depthBehind_succ {depth : Nat} {ts : List Token} (h : closing depth ts = []) :
    depthBehind (depth + 1) ts = depthBehind depth ts + 1 := by
  induction ts generalizing depth with
  | nil => rfl
  | cons t ts ih =>
      have hne : t.kind = .closeCurly → depth ≠ 0 := by
        rintro ht rfl
        rw [closing_cons_of_closeCurly ht] at h
        cases h
      rw [closing_cons hne] at h
      rw [depthBehind_cons, depthBehind_cons, Nat.add_comm, depthAfter_add 1 hne, Nat.add_comm]
      exact ih h

/-- **The braces that are left open** are those without a matching one. -/
theorem length_unclosed (ts : List Token) : (unclosed ts).length = depthBehind 0 ts := by
  induction ts with
  | nil => rfl
  | cons t ts ih =>
      rw [unclosed, depthBehind_cons]
      by_cases hopen : t.kind = .openCurly
      · rw [depthAfter_of_openCurly hopen]
        cases hclosing : closing 0 ts with
        | nil =>
            rw [if_pos ⟨hopen, rfl⟩, List.length_cons, ih, depthBehind_succ hclosing]
        | cons u rest =>
            rw [if_neg (by simp), ih]
            -- the braces inside close each other, and the closing one closes nothing else
            obtain ⟨inside, rfl, hu, hinside⟩ := closing_eq_cons_iff.mp hclosing
            rw [depthBehind_append, depthBehind_append, depthBehind_cons, depthBehind_cons,
              depthBehind_of_closes (d := 0) hinside, depthBehind_of_closes (d := 1) hinside,
              depthAfter_of_closeCurly hu, depthAfter_of_closeCurly hu]
      · rw [if_neg fun h => hopen h.1, ih, depthAfter_zero hopen]

/-- Some tokens with a closing brace behind them for each brace that they leave open,
with those `depth` counted that were open before. -/
def Completes (depth : Nat) (s s' : List Token) : Prop :=
  ∃ w, s' = s ++ w ∧ (∀ t ∈ w, t.kind = .closeCurly) ∧ w.length = depthBehind depth s

section Completes

variable {d depth : Nat} {t : Token} {s s' w : List Token}

theorem closing_of_forall (hw : ∀ t ∈ w, t.kind = .closeCurly) (depth : Nat) :
    closing depth w = w.drop depth := by
  induction w generalizing depth with
  | nil => rw [closing_nil, List.drop_nil]
  | cons t w ih =>
      obtain ⟨ht, hw⟩ := List.forall_mem_cons.mp hw
      cases depth with
      | zero => exact closing_cons_of_closeCurly ht
      | succ depth =>
          rw [closing_cons fun _ => Nat.succ_ne_zero depth, depthAfter_of_closeCurly ht]
          exact ih hw depth

theorem pieceEnd_of_forall (hw : ∀ t ∈ w, t.kind = .closeCurly) (depth : Nat) :
    pieceEnd depth w = w.drop depth := by
  cases depth with
  | zero =>
      cases w with
      | nil => rfl
      | cons t w => exact pieceEnd_of_closeCurly (hw t List.mem_cons_self)
  | succ depth =>
      rw [pieceEnd_succ, closing_of_forall hw, List.tail_drop]
      cases hdrop : w.drop (depth + 1) with
      | nil => rfl
      | cons t us =>
          refine pieceEnd_of_closeCurly (hw t (List.mem_of_mem_drop (i := depth + 1) ?_))
          rw [hdrop]
          exact List.mem_cons_self

/-- Behind the last token there are the braces for what is open. -/
theorem Completes.of_nil (h : Completes depth [] s') :
    (∀ t ∈ s', t.kind = .closeCurly) ∧ s'.length = depth := by
  obtain ⟨w, rfl, hw⟩ := h
  exact hw

theorem Completes.of_forall (hw : ∀ t ∈ w, t.kind = .closeCurly) (hlength : w.length = depth) :
    Completes depth [] w :=
  ⟨w, rfl, hw, hlength⟩

theorem Completes.exists_eq_cons (h : Completes depth (t :: s) s') :
    ∃ us, s' = t :: us ∧ Completes (depthAfter depth t) s us := by
  obtain ⟨w, rfl, hw, hlength⟩ := h
  exact ⟨s ++ w, rfl, w, rfl, hw, hlength⟩

/-- **Behind a block** the one is completed as the other is. -/
theorem Completes.tail_closing (h : Completes (d + (1 + depth)) s s') :
    Completes d (closing depth s).tail (closing depth s').tail := by
  induction s generalizing depth s' with
  | nil =>
      obtain ⟨hw, hlength⟩ := h.of_nil
      rw [closing_of_forall hw, List.tail_drop]
      refine .of_forall (fun t ht => hw t (List.mem_of_mem_drop ht)) ?_
      rw [List.length_drop, hlength]
      omega
  | cons t s ih =>
      obtain ⟨us, rfl, hrest⟩ := h.exists_eq_cons
      by_cases hstop : depth = 0 ∧ t.kind = .closeCurly
      · obtain ⟨rfl, ht⟩ := hstop
        rw [depthAfter_of_closeCurly ht] at hrest
        rw [closing_cons_of_closeCurly ht, closing_cons_of_closeCurly ht]
        exact hrest
      · have hne : t.kind = .closeCurly → depth ≠ 0 := fun ht hd => hstop ⟨hd, ht⟩
        rw [closing_cons hne, closing_cons hne]
        rw [← Nat.add_assoc, depthAfter_add _ hne, Nat.add_assoc] at hrest
        exact ih hrest

/-- **Behind a piece** the one is completed as the other is. -/
theorem Completes.pieceEnd (h : Completes (d + depth) s s') :
    Completes d (pieceEnd depth s) (pieceEnd depth s') := by
  induction s generalizing depth s' with
  | nil =>
      obtain ⟨hw, hlength⟩ := h.of_nil
      rw [pieceEnd_of_forall hw]
      refine .of_forall (fun t ht => hw t (List.mem_of_mem_drop ht)) ?_
      rw [List.length_drop, hlength, Nat.add_sub_cancel]
  | cons t s ih =>
      obtain ⟨us, rfl, hrest⟩ := h.exists_eq_cons
      rw [ExprLang.pieceEnd, ExprLang.pieceEnd]
      by_cases hclose : depth = 0 ∧ t.kind = .closeCurly
      · rw [if_pos hclose, if_pos hclose]
        rw [hclose.1] at h
        exact h
      · rw [if_neg hclose, if_neg hclose]
        rw [depthAfter_add d fun ht hd => hclose ⟨hd, ht⟩] at hrest
        by_cases hsemi : depth = 0 ∧ t.kind = .semicolon
        · rw [if_pos hsemi, if_pos hsemi]
          rwa [hsemi.1, depthAfter_of_semicolon hsemi.2] at hrest
        · rw [if_neg hsemi, if_neg hsemi]
          exact ih hrest

end Completes

/-! ## A run that is cut off and the completed one -/

/-- Two states, one of a run over a source that is cut off and one of the run over the
completed source: their tokens are related, and as many errors were found. -/
structure CutOff (R : List Token → List Token → Prop) (p p' : Parser) : Prop where
  ordered : p.Ordered
  ordered' : p'.Ordered
  tokens : R p.ahead p'.ahead
  errors : p.errors.length = p'.errors.length

/-- Tokens that are the same, or on both of which blocks end. -/
def Token.SameOrEnding (t u : Token) : Prop :=
  t = u ∨ (Rule.endsBlock t.kind ∧ Rule.endsBlock u.kind)

/-- Tokens with the current ones taken, at a depth of open blocks. -/
def CompletesBehind (d : Nat) (s s' : List Token) : Prop :=
  Completes d s.tail s'.tail

namespace CutOff

variable {R R' : List Token → List Token → Prop} {p p' : Parser} {d : Nat} {s s' : List Token}

theorem imp (h : CutOff R p p') (hR : R p.ahead p'.ahead → R' p.ahead p'.ahead) :
    CutOff R' p p' :=
  ⟨h.ordered, h.ordered', hR h.tokens, h.errors⟩

theorem advance (h : CutOff (CompletesBehind d) p p') :
    CutOff (Completes d) p.advance p'.advance :=
  ⟨h.ordered.advance, h.ordered'.advance, h.tokens, h.errors⟩

theorem withVisits (h : CutOff R p p') (visits visits' : List Visit) :
    CutOff R { p with visits := visits } { p' with visits := visits' } :=
  ⟨h.ordered.withVisits _, h.ordered'.withVisits _, h.tokens, h.errors⟩

theorem report (h : CutOff R p p') (error error' : SyntaxError) :
    CutOff R (p.report error) (p'.report error') := by
  refine ⟨h.ordered.report _, h.ordered'.report _, h.tokens, ?_⟩
  rw [Parser.errors_report, Parser.errors_report, List.length_append, List.length_append, h.errors]
  rfl

/-- A token that is left is the same in both runs. -/
theorem current_eq (h : CutOff (Completes d) p p') (heof : p.current.kind ≠ .eof) :
    p.current = p'.current ∧ CompletesBehind (depthAfter d p.current) p.ahead p'.ahead := by
  have htokens := h.tokens
  have hahead := h.ordered.ahead_eq_cons heof
  rw [hahead] at htokens
  obtain ⟨us, hahead', hrest⟩ := htokens.exists_eq_cons
  rw [CompletesBehind, hahead', List.tail_cons]
  exact ⟨(Parser.current_of_ahead_eq hahead').symm, hrest⟩

/-- At the end of its input the one run has no token left, and the other only braces. -/
theorem ending (h : CutOff (Completes d) p p') (heof : p.current.kind = .eof) :
    p.ahead = [] ∧ p'.ahead.length = d ∧ Rule.endsBlock p'.current.kind := by
  have hahead := h.ordered.ahead_eq_nil_iff.mpr heof
  have htokens := h.tokens
  rw [hahead] at htokens
  obtain ⟨hclose, hlength⟩ := htokens.of_nil
  refine ⟨hahead, hlength, ?_⟩
  by_cases heof' : p'.current.kind = .eof
  · rw [heof']
    rfl
  · have hmem : p'.current ∈ p'.ahead := by
      rw [h.ordered'.ahead_eq_cons heof']
      exact List.mem_cons_self
    rw [hclose _ hmem]
    rfl

theorem current (h : CutOff (Completes d) p p') : p.current.SameOrEnding p'.current := by
  by_cases heof : p.current.kind = .eof
  · refine .inr ⟨?_, (h.ending heof).2.2⟩
    rw [heof]
    rfl
  · exact .inl (h.current_eq heof).1

/-- A token that is no brace is taken in both runs. -/
theorem take (h : CutOff (Completes d) p p') (heof : p.current.kind ≠ .eof)
    (hopen : p.current.kind ≠ .openCurly) (hclose : p.current.kind ≠ .closeCurly) :
    CutOff (CompletesBehind d) p p' := by
  have htokens := (h.current_eq heof).2
  rw [depthAfter_of_ne hopen hclose] at htokens
  exact h.imp fun _ => htokens

/-- Both states with their current tokens taken. -/
def Behind (d : Nat) (p p' : Parser) : Prop :=
  CutOff (CompletesBehind d) p p' ∧ p.Taken True ∧ p'.Taken True

/-- Two statements broke, on their current tokens or on the next ones. -/
def Broken (d : Nat) (p p' : Parser) : Prop :=
  (CutOff (Completes d) p p' ∧ p.BrokeOn p.current ∧ p'.BrokeOn p'.current) ∨
    (Behind d p p' ∧ p.BrokeOn p.peek ∧ p'.BrokeOn p'.peek)

/-- The states of the two runs inside `d` open blocks. -/
def parallel (d : Nat) : Parallel where
  alike := Token.SameOrEnding
  free _ := False
  before := CutOff (Completes d)
  behind := Behind d
  ended := CutOff (CompletesBehind d)
  broken := Broken d
  kind h := h.imp (congrArg Token.kind) id
  text h hends := by
    rcases h with rfl | ⟨hkind, -⟩
    · rfl
    · rw [hends] at hkind
      cases hkind
  regular h := ⟨h.ordered.toRegular, h.ordered'.toRegular⟩
  regular_behind h := ⟨h.1.ordered.toRegular, h.1.ordered'.toRegular⟩
  current h := h.current
  take {p p'} h hplain := by
    have hcurrent := (h.current_eq hplain.2.2.2).1
    refine ⟨h.take hplain.2.2.2 hplain.1 hplain.2.1, ⟨h.ordered, hplain.1, hplain.2.2.1⟩,
      h.ordered', ?_, ?_⟩
    · rw [← hcurrent]
      exact hplain.1
    · rw [← hcurrent]
      exact hplain.2.2.1
  advance h := h.1.advance
  refuse cause h := .inl ⟨h.report _ _, Parser.brokeOn_report _ _ _, Parser.brokeOn_report _ _ _⟩
  refuse_next cause h := .inr ⟨⟨h.1.report _ _, h.2.1.report _, h.2.2.report _⟩,
    Parser.brokeOn_report _ _ _, Parser.brokeOn_report _ _ _⟩
  ended_of_behind h := h.1
  ended_of_semicolon h hsemi := by
    rw [← Parser.current_advance] at hsemi
    exact h.1.advance.take (by rw [hsemi]; decide) (by rw [hsemi]; decide) (by rw [hsemi]; decide)

/-! ## Recovery -/

/-- At the end of the input the window does not move. -/
theorem advance_of_eof (hp : p.Regular) (heof : p.current.kind = .eof) : p.advance = p := by
  have hahead := hp.ahead_eq_nil_iff.mpr heof
  rw [Parser.advance, hahead, List.tail_nil, ← hahead]

/-- Nor is anything skipped there. -/
theorem recover_of_eof (hp : p.Regular) (heof : p.current.kind = .eof) : p.recover = p := by
  have hahead := hp.ahead_eq_nil_iff.mpr heof
  rw [Parser.recover_of_not_ranInto fun hran => by
    rw [(Parser.ranIntoClosingBrace_iff.mp hran).1] at heof
    cases heof]
  rw [hahead, skipStatement, ← hahead]

/-- Statements that did not run into a closing brace are left behind their pieces. -/
theorem recover (h : CutOff R p p') (hs : p.BrokeBefore True s) (hs' : p'.BrokeBefore True s')
    (hleft : Completes d s s') (hran : ¬ p.ranIntoClosingBrace = true)
    (hran' : ¬ p'.ranIntoClosingBrace = true) :
    ¬ p.recover.ranIntoClosingBrace = true ∧ ¬ p'.recover.ranIntoClosingBrace = true ∧
      CutOff (CompletesBehind d) p.recover p'.recover := by
  have hnot := hs.broken.not_ranInto_recover trivial hran
  have hnot' := hs'.broken.not_ranInto_recover trivial hran'
  refine ⟨hnot, hnot', h.ordered.recover, h.ordered'.recover, ?_, ?_⟩
  · rw [CompletesBehind, hs.recover.2 hnot, hs'.recover.2 hnot']
    exact Completes.pieceEnd hleft
  · rw [p.errors_recover, p'.errors_recover]
    exact h.errors

/-- How the two runs are left by statements that broke: both on the brace that they
ran into, or the one at the end of its input and the other on a brace, or both
behind their pieces. -/
inductive Recovered (d : Nat) (q q' : Parser) : Prop where
  | ranInto (hran : q.ranIntoClosingBrace = true) (hran' : q'.ranIntoClosingBrace = true)
      (h : CutOff (Completes d) q q')
  | atEnd (hran : ¬ q.ranIntoClosingBrace = true) (hran' : q'.ranIntoClosingBrace = true)
      (hend : q.current.kind = .eof) (h : CutOff (Completes d) q q')
  | skipped (hran : ¬ q.ranIntoClosingBrace = true) (hran' : ¬ q'.ranIntoClosingBrace = true)
      (h : CutOff (CompletesBehind d) q q')

theorem Recovered.withVisits {q q' : Parser} (h : Recovered d q q') (visits visits' : List Visit) :
    Recovered d { q with visits := visits } { q' with visits := visits' } := by
  cases h with
  | ranInto hran hran' h => exact .ranInto hran hran' (h.withVisits _ _)
  | atEnd hran hran' hend h => exact .atEnd hran hran' hend (h.withVisits _ _)
  | skipped hran hran' h => exact .skipped hran hran' (h.withVisits _ _)

/-- **Broken statements** are left in one of these ways. -/
theorem Broken.recover (h : Broken d p p') : Recovered d p.recover p'.recover := by
  rcases h with ⟨h, hon, hon'⟩ | ⟨h, hon, hon'⟩
  · by_cases hclose : p'.current.kind = .closeCurly
    · have hran' := Parser.ranIntoClosingBrace_iff.mpr ⟨hclose, hon'⟩
      rw [Parser.recover_of_ranInto hran']
      by_cases heof : p.current.kind = .eof
      · rw [recover_of_eof h.ordered.toRegular heof]
        refine .atEnd (fun hran => ?_) hran' heof h
        rw [(Parser.ranIntoClosingBrace_iff.mp hran).1] at heof
        cases heof
      · have hran := Parser.ranIntoClosingBrace_iff.mpr ⟨(h.current_eq heof).1 ▸ hclose, hon⟩
        rw [Parser.recover_of_ranInto hran]
        exact .ranInto hran hran' h
    · have hne : p.current.kind ≠ .closeCurly := fun hkind =>
        hclose ((h.current_eq (by rw [hkind]; decide)).1 ▸ hkind)
      obtain ⟨hran, hran', hended⟩ := h.recover (.inl ⟨h.ordered, rfl, hon⟩)
        (.inl ⟨h.ordered', rfl, hon'⟩) h.tokens
        (fun hran => hne (Parser.ranIntoClosingBrace_iff.mp hran).1)
        fun hran => hclose (Parser.ranIntoClosingBrace_iff.mp hran).1
      exact .skipped hran hran' hended
  · obtain ⟨hran, hran', hended⟩ := h.1.recover (.inr ⟨h.2.1, rfl, hon⟩) (.inr ⟨h.2.2, rfl, hon'⟩)
      h.1.tokens (fun hran => h.2.1.ordered.not_brokeOn_peek trivial hran hon)
      fun hran => h.2.2.ordered.not_brokeOn_peek trivial hran hon'
    exact .skipped hran hran' hended

end CutOff

/-! ## Statements and blocks -/

namespace Parse

variable {α : Type} {P Q F : Parser → Parser → Prop} {V : α → α → Prop}
  {item item' : Parse (Option (Option α))}

/-- How two items of blocks go together: both are there, or neither is, or the one
run has nothing more to give behind an item without a statement. -/
inductive NextOrDone (item : Parse (Option (Option α))) (P Q : Parser → Parser → Prop)
    (V : α → α → Prop) :
    Option (Option α) → Parser → Option (Option α) → Parser → Prop where
  | next {a b : Option α} {q r : Parser} (hab : Option.Rel V a b) (h : P q r) :
      NextOrDone item P Q V (some a) q (some b) r
  | done {q r : Parser} (h : Q q r) : NextOrDone item P Q V none q none r
  | lastly {q r : Parser} (hover : item q = .done none q) (h : Q q r) :
      NextOrDone item P Q V (some none) q none r

/-- Items go together but for one without a statement at the end, whatever the
bounds. -/
theorem pairs_many_or_done
    (hitem : ∀ p p', P p p' → (item p).Agree (NextOrDone item P Q V) F (item' p'))
    (bound bound' : Nat) :
    Pairs P (fun as bs => List.Forall₂ V (as.filterMap id) (bs.filterMap id)) Q F
      (many item bound) (many item' bound') := by
  induction bound generalizing bound' with
  | zero => exact fun _ _ _ => .cut _
  | succ bound ih =>
      cases bound' with
      | zero => exact fun _ _ _ => .cutBeside _
      | succ bound' =>
          rw [many_succ_eq_bind, many_succ_eq_bind]
          refine fun p p' hp => agree_bind ((hitem p p' hp).imp (fun _ q _ r h => ?_)
            fun _ _ => id)
          cases h with
          | next hab h =>
              refine agree_map ((ih bound' q r h).imp (fun as _ bs _ hrest => ⟨?_, hrest.2⟩)
                fun _ _ => id)
              cases hab with
              | some hab => exact .cons hab hrest.1
              | none => exact hrest.1
          | done h => exact .done ⟨.nil, h⟩
          | lastly hover h =>
              -- one more round finds that the block is over
              cases bound with
              | zero => exact .cut _
              | succ bound =>
                  rw [Option.elim_some, many_succ_eq_bind]
                  -- the run that has ended gives its empty list unchanged
                  have hpure : (pure [] : Parse (List (Option α))) = id <$> pure [] := rfl
                  rw [hpure]
                  refine agree_map ?_
                  rw [bind_apply, hover]
                  exact .done ⟨.nil, h⟩

end Parse

open Parse

namespace CutOff

variable {p p' : Parser} {d : Nat} {nested nested' : Nested}

/-- How two statements are over: read up to their last tokens, or broken. -/
def Finished (d : Nat) (result : Option Stmt) (q : Parser) (result' : Option Stmt)
    (q' : Parser) : Prop :=
  Option.Rel (Stmt.Alike Token.SameOrEnding fun _ => False) result result' ∧
    (result.elim (Recovered d q q') fun _ => CutOff (CompletesBehind d) q q')

/-- **Statements go together**, read or skipped. -/
theorem statement (hn : nested.Together (parallel d) nested') (h : CutOff (Completes d) p p') :
    (Rule.statement nested p).Agree (Finished d) (fun _ _ => False)
      (Rule.statement nested' p') := by
  refine agree_logged ?_
  rw [get_bind, get_bind]
  refine agree_bind (agree_attempt ((hn.statementForm (h.withVisits [] [])).imp
    (fun s q r q' hq => ?_) fun q q' hq => ?_))
  · exact .done ⟨.some hq.1, hq.2.withVisits _ _⟩
  · exact .done ⟨.none, (Broken.recover hq).withVisits _ _⟩

/-- A block is over at the end of the input. -/
theorem blockItem_of_eof {q : Parser} (h : q.current.kind = .eof) :
    Rule.blockItem nested q = .done none q := by
  rw [Rule.blockItem, current_bind, h]
  rfl

/-- Statements of two blocks go together, or both blocks are over.  The one may end
with the input behind a broken statement, where the other finds its brace. -/
theorem blockItem (hn : nested.Together (parallel d) nested') (h : CutOff (Completes d) p p') :
    (Rule.blockItem nested p).Agree
      (NextOrDone (Rule.blockItem nested) (CutOff (Completes d)) (CutOff fun _ _ => True)
        (Stmt.Alike Token.SameOrEnding fun _ => False)) (fun _ _ => False)
      (Rule.blockItem nested' p') := by
  rw [Rule.blockItem, Rule.blockItem, current_bind, current_bind]
  have hkind := ((parallel d).kind h.current).congr Rule.endsBlock rfl
  by_cases hends : Rule.endsBlock p.current.kind = true
  · rw [if_pos hends, if_pos (hkind ▸ hends)]
    exact .done (.done (h.imp fun _ => trivial))
  · rw [if_neg hends, if_neg (hkind ▸ hends)]
    refine agree_bind ((statement hn h).imp ?_ fun _ _ hq => hq)
    rintro _ q _ q' ⟨hresult, hq⟩
    cases hresult with
    | some hs => exact .done (.next (.some hs) hq.advance)
    | none =>
        dsimp only
        rw [get_bind, get_bind]
        cases hq with
        | ranInto hran hran' hq =>
            rw [if_pos hran, if_pos hran']
            exact .done (.done (hq.imp fun _ => trivial))
        | atEnd hran hran' hend hq =>
            rw [if_neg hran, if_pos hran', advance_bind, advance_of_eof hq.ordered.toRegular hend]
            exact .done (.lastly (blockItem_of_eof hend) (hq.imp fun _ => trivial))
        | skipped hran hran' hq =>
            rw [if_neg hran, if_neg hran']
            exact .done (.next .none hq.advance)

/-- The statements of two blocks go together up to where the blocks are over. -/
theorem blockItems {u u' : List Token} (hn : nested.Together (parallel d) nested')
    (hbraces : nested.KeepsBraces True) (hbraces' : nested'.KeepsBraces True) :
    Pairs (CutOff fun s s' => Completes d s s' ∧ ClosedAlike True u s ∧ ClosedAlike True u' s')
      (fun items items' => List.Forall₂ (Stmt.Alike Token.SameOrEnding fun _ => False)
        (items.filterMap id) (items'.filterMap id))
      (CutOff fun s s' => BlockEnd True u s ∧ BlockEnd True u' s') (fun _ _ => False)
      (bounded (many (Rule.blockItem nested))) (bounded (many (Rule.blockItem nested'))) := by
  refine Pairs.bounded fun bound bound' => pairs_many_or_done (fun p p' hp => ?_) bound bound'
  have hbefore : p.Before True u := ⟨hp.ordered, hp.tokens.2.1⟩
  have hbefore' : p'.Before True u' := ⟨hp.ordered', hp.tokens.2.2⟩
  refine ((blockItem hn (hp.imp fun h => h.1)).and_meets (Rule.blockItem_braces hbraces hbefore)
    (Rule.blockItem_braces hbraces' hbefore')).imp ?_ fun _ _ h => h.1
  rintro next q next' q' ⟨hq, hclosed, hclosed'⟩
  cases hq with
  | next hab hq => exact .next hab (hq.imp fun h => ⟨h, hclosed.closed, hclosed'.closed⟩)
  | done hq => exact .done (hq.imp fun _ => ⟨hclosed.2, hclosed'.2⟩)
  | lastly hover hq =>
      -- the one block is over where it is, too
      have hagain := Rule.blockItem_braces hbraces hclosed
      rw [hover] at hagain
      exact .lastly hover (hq.imp fun _ => ⟨hagain.2, hclosed'.2⟩)

/-- **Blocks go together**: inside there is one more brace to close. -/
theorem block (hn : nested.Together (parallel (d + 1)) nested') (hbraces : nested.KeepsBraces True)
    (hbraces' : nested'.KeepsBraces True) (h : CutOff (Completes d) p p')
    (hopening : p.current.kind = .openCurly) :
    (Rule.block nested p).Agree
      (fun b q c r => b.Alike Token.SameOrEnding (fun _ => False) c ∧ Behind d q r) (Broken d)
      (Rule.block nested' p') := by
  have hinside := (h.current_eq (by rw [hopening]; decide)).2
  rw [depthAfter_of_openCurly hopening] at hinside
  have hbegin : CutOff (fun s s' => Completes (d + 1) s s' ∧ ClosedAlike True p.ahead.tail s ∧
      ClosedAlike True p'.ahead.tail s')
      (Parser.advance { p with visits := [] }) (Parser.advance { p' with visits := [] }) :=
    ⟨(h.ordered.withVisits []).advance, (h.ordered'.withVisits []).advance,
      ⟨hinside, .refl _, .refl _⟩, h.errors⟩
  refine agree_logged ?_
  rw [current_bind, current_bind, advance_bind, advance_bind]
  refine agree_bind ((blockItems hn hbraces hbraces' _ _ hbegin).imp
    (fun items q items' r hq => ?_) fun _ _ h => h.elim)
  obtain ⟨hitems, hq⟩ := hq
  obtain ⟨hend, hend'⟩ := hq.tokens
  refine .done ⟨.body h.current hitems, ?_,
    Parser.taken_of_brace (hq.ordered.withVisits _) hend.brace,
    Parser.taken_of_brace (hq.ordered'.withVisits _) hend'.brace⟩
  refine (hq.imp fun _ => ?_).withVisits _ _
  rw [CompletesBehind, hend.eq_closing trivial, hend'.eq_closing trivial]
  exact Completes.tail_closing hinside

/-- **The two runs go together** at all depths of nesting and inside any blocks. -/
theorem together_level (d n n' : Nat) :
    (Nested.level n).Together (parallel d) (Nested.level n') := by
  induction n generalizing d n' with
  | zero => exact ⟨fun _ _ _ _ => .cut _, fun _ _ => .cut _⟩
  | succ n ih =>
      cases n' with
      | zero => exact ⟨fun _ _ _ _ => .cutBeside _, fun _ _ => .cutBeside _⟩
      | succ n' =>
          exact ⟨(ih d n').expression, fun h hopening => block (ih (d + 1) n')
            (Nested.keepsBraces_level True n) (Nested.keepsBraces_level True n') h hopening⟩

/-! ## Programs -/

/-- Statements of the two programs go together. -/
theorem programItem (n n' : Nat) (h : CutOff (Completes 0) p p') :
    (Rule.programItem (.level n) p).Agree
      (NextItem (CutOff (Completes 0)) (CutOff (Completes 0))
        (Option.Rel (Stmt.Alike Token.SameOrEnding fun _ => False))) (fun _ _ => False)
      (Rule.programItem (.level n') p') := by
  rw [Rule.programItem, Rule.programItem, current_bind, current_bind]
  by_cases heof : p.current.kind = .eof
  · have hlength := (h.ending heof).2.1
    have heof' := h.ordered'.ahead_eq_nil_iff.mp (List.length_eq_zero_iff.mp hlength)
    rw [if_pos heof, if_pos heof']
    exact .done h
  · rw [if_neg heof, if_neg ((h.current_eq heof).1 ▸ heof)]
    refine agree_bind ((statement (together_level 0 n n') h).imp ?_ fun _ _ hq => hq)
    rintro _ q _ q' ⟨hresult, hq⟩
    refine .done ⟨hresult, ?_⟩
    cases hresult with
    | some hs => exact hq.advance
    | none =>
        cases hq with
        | ranInto hran hran' hq =>
            -- a closing brace that closes nothing is dropped
            have hclose := (Parser.ranIntoClosingBrace_iff.mp hran).1
            have htokens := (hq.current_eq (by rw [hclose]; decide)).2
            rw [depthAfter_of_closeCurly hclose] at htokens
            exact (hq.imp fun _ => htokens).advance
        | atEnd hran hran' hend hq =>
            -- no brace is open, so that none was put behind
            have hnil := List.length_eq_zero_iff.mp (hq.ending hend).2.1
            have hclose := (Parser.ranIntoClosingBrace_iff.mp hran').1
            rw [hq.ordered'.ahead_eq_nil_iff.mp hnil] at hclose
            cases hclose
        | skipped hran hran' hq => exact hq.advance

/-- **Programs go together.** -/
theorem program (n n' : Nat) :
    Pairs (CutOff (Completes 0))
      (fun a b => List.Forall₂ (Stmt.Alike Token.SameOrEnding fun _ => False) a.statements
        b.statements) (CutOff (Completes 0)) (fun _ _ => False) (Rule.program (.level n))
      (Rule.program (.level n')) :=
  Pairs.bind (Pairs.bounded fun bound bound' =>
      pairs_many (fun _ _ hp => programItem n n' hp) bound bound')
    fun _ _ hitems => pairs_pure (Parse.forall₂_filterMap hitems)

end CutOff

/-! ## Trees without ending tokens -/

section Fixed

variable {ts : List Token} {f : Token → Token}

theorem Identifier.map_eq_of_traced (hf : ∀ t : Token, Rule.endsBlock t.kind = false → f t = t)
    {name : Identifier} (h : name.Traced) : name.map f = name := by
  rw [Identifier.map, hf _ (by rw [h.1]; rfl)]

mutual

theorem Expr.map_eq_of_traced (hf : ∀ t : Token, Rule.endsBlock t.kind = false → f t = t) :
    (x : Expr) → x.All (traced ts) → x.map f = x
  | .identifier _, h => by rw [Expr.map, Identifier.map_eq_of_traced hf h]
  | .integer _ _, h => by rw [Expr.map, hf _ (by rw [h.1]; rfl)]
  | .boolean _ _, h => by rw [Expr.map, hf _ (by rcases h.1 with h | h <;> rw [h] <;> rfl)]
  | .unary _ _ x, h => by
      rw [Expr.map, hf _ (by rcases h.1.1 with h | h <;> rw [h] <;> rfl),
        x.map_eq_of_traced hf h.2]
  | .binary t _ x y, h => by
      have hkind : Rule.endsBlock t.kind = false := by
        have := h.1.1
        revert this
        cases t.kind <;> decide
      rw [Expr.map, hf _ hkind, x.map_eq_of_traced hf h.2.1, y.map_eq_of_traced hf h.2.2]
  | .conditional _ x b c, h => by
      obtain ⟨⟨ht, hb, hc⟩, hx, hball, hcall⟩ := h
      rw [Expr.map, hf _ (by rw [ht]; rfl), x.map_eq_of_traced hf hx,
        b.map_eq_of_traced hf hball hb, Expr.mapElse_eq_of_traced hf c hcall hc]
  | .function _ names b, h => by
      obtain ⟨⟨ht, hnames, hb⟩, hball⟩ := h
      have hmap : names.map (Identifier.map f) = names := by
        rw [List.map_congr_left fun name hname => Identifier.map_eq_of_traced hf
          (hnames name hname)]
        exact List.map_id names
      rw [Expr.map, hf _ (by rw [ht]; rfl), hmap, b.map_eq_of_traced hf hball hb]
  | .call _ x xs, h => by
      rw [Expr.map, hf _ (by rw [h.1]; rfl), x.map_eq_of_traced hf h.2.1,
        Expr.mapArguments_eq_of_traced hf xs h.2.2]
termination_by structural x => x

theorem Expr.mapArguments_eq_of_traced
    (hf : ∀ t : Token, Rule.endsBlock t.kind = false → f t = t) :
    (xs : List Expr) → Expr.AllArguments (traced ts) xs → Expr.mapArguments f xs = xs
  | [], _ => rfl
  | x :: xs, h => by
      rw [Expr.mapArguments, x.map_eq_of_traced hf h.1, Expr.mapArguments_eq_of_traced hf xs h.2]
termination_by structural x => x

theorem Expr.mapElse_eq_of_traced (hf : ∀ t : Token, Rule.endsBlock t.kind = false → f t = t) :
    (c : Option Block) → Expr.AllElse (traced ts) c → (∀ b ∈ c, b.token.kind = .openCurly) →
      Expr.mapElse f c = c
  | none, _, _ => rfl
  | some b, h, hb => by rw [Expr.mapElse, b.map_eq_of_traced hf h (hb b rfl)]
termination_by structural x => x

/-- Replacing only tokens on which blocks end changes nothing that was read. -/
theorem Stmt.map_eq_of_traced (hf : ∀ t : Token, Rule.endsBlock t.kind = false → f t = t) :
    (s : Stmt) → s.All (traced ts) → s.map f = s
  | .binding _ _ x, h => by
      rw [Stmt.map, hf _ (by rw [h.1.1]; rfl), Identifier.map_eq_of_traced hf h.1.2,
        x.map_eq_of_traced hf h.2]
  | .ret _ x, h => by
      rw [Stmt.map, hf _ (by rw [h.1]; rfl), Stmt.mapValue_eq_of_traced hf x h.2]
  | .expression _ x, h => by
      obtain ⟨⟨front, rest, -, hstarts, -⟩, hx⟩ := h
      rw [Stmt.map, hf _ (hstarts.endsBlock_eq_false hx), x.map_eq_of_traced hf hx]
termination_by structural x => x

theorem Stmt.mapValue_eq_of_traced (hf : ∀ t : Token, Rule.endsBlock t.kind = false → f t = t) :
    (x : Option Expr) → Stmt.AllValue (traced ts) x → Stmt.mapValue f x = x
  | none, _ => rfl
  | some x, h => by rw [Stmt.mapValue, x.map_eq_of_traced hf h]
termination_by structural x => x

theorem Stmt.mapList_eq_of_traced (hf : ∀ t : Token, Rule.endsBlock t.kind = false → f t = t) :
    (ss : List Stmt) → Stmt.AllList (traced ts) ss → Stmt.mapList f ss = ss
  | [], _ => rfl
  | s :: ss, h => by
      rw [Stmt.mapList, s.map_eq_of_traced hf h.1, Stmt.mapList_eq_of_traced hf ss h.2]
termination_by structural x => x

theorem Block.map_eq_of_traced (hf : ∀ t : Token, Rule.endsBlock t.kind = false → f t = t) :
    (b : Block) → b.All (traced ts) → b.token.kind = .openCurly → b.map f = b
  | .mk t ss, h, ht => by
      have hkind : t.kind = .openCurly := ht
      rw [Block.map, hf _ (by rw [hkind]; rfl), Stmt.mapList_eq_of_traced hf ss h.2]
termination_by structural x => x

end

end Fixed

/-- A token, unless blocks end on it. -/
def Token.unlessEnding (t : Token) : Token :=
  if Rule.endsBlock t.kind then default else t

/-- Programs that were read, alike but for tokens on which blocks end, are the same:
no node keeps such a token. -/
theorem eq_of_sameOrEnding {ts us : List Token} {ss rs : List Stmt}
    (hss : Stmt.AllList (traced ts) ss) (hrs : Stmt.AllList (traced us) rs)
    (h : List.Forall₂ (Stmt.Alike Token.SameOrEnding fun _ => False) ss rs) : ss = rs := by
  have hfixed : ∀ t : Token, Rule.endsBlock t.kind = false → t.unlessEnding = t := by
    intro t ht
    rw [Token.unlessEnding, ht]
    rfl
  have hsame : ∀ t u : Token, t.SameOrEnding u → t.unlessEnding = u.unlessEnding := by
    rintro t u (rfl | ⟨ht, hu⟩)
    · rfl
    · rw [Token.unlessEnding, Token.unlessEnding, if_pos ht, if_pos hu]
  have hmap := Stmt.mapList_eq_of_alike hsame ss rs h
  rwa [Stmt.mapList_eq_of_traced hfixed ss hss, Stmt.mapList_eq_of_traced hfixed rs hrs] at hmap

/-! ## Completed sources -/

/-- A source with closing braces behind it. -/
def closeOff (source : String) : (count : Nat) → String
  | 0 => source
  | count + 1 => closeOff source count ++ "\x7d"

/-- The braces are the tokens behind those of the source. -/
theorem exists_dropLast_tokenize_closeOff (source : String) (count : Nat) :
    ∃ w, (Lexer.tokenize (closeOff source count)).dropLast =
        (Lexer.tokenize source).dropLast ++ w ∧
      (∀ t ∈ w, t.kind = .closeCurly) ∧ w.length = count := by
  induction count with
  | zero => exact ⟨[], (List.append_nil _).symm, List.forall_mem_nil _, rfl⟩
  | succ count ih =>
      obtain ⟨w, hw, hkind, hlength⟩ := ih
      refine ⟨w ++ [Lexer.closingAt (closeOff source count).utf8ByteSize], ?_, ?_, ?_⟩
      · rw [closeOff, Lexer.dropLast_tokenize_closing, hw, List.append_assoc]
      · exact List.forall_mem_append.mpr ⟨hkind, List.forall_mem_singleton.mpr rfl⟩
      · rw [List.length_append, hlength]
        rfl

theorem utf8ByteSize_closeOff (source : String) (count : Nat) :
    (closeOff source count).utf8ByteSize = source.utf8ByteSize + count := by
  induction count with
  | zero => rfl
  | succ count ih =>
      have hbrace : "\x7d".utf8ByteSize = 1 := rfl
      rw [closeOff, String.utf8ByteSize_append, ih, hbrace, Nat.add_assoc]

/-- **Closing what is left open changes nothing.**  With a closing brace behind it for
each of its opening braces without a matching one, a source, well-formed or not, has
the same program, places included, and as many errors.  With these braces it is
shorter than 4 GiB. -/
theorem parse_closeOff {source : String}
    (hsize : (closeOff source
      (unclosed (Lexer.tokenize source)).length).utf8ByteSize < UInt32.size) :
    (parse (closeOff source (unclosed (Lexer.tokenize source)).length)).program =
        (parse source).program ∧
      (parse (closeOff source (unclosed (Lexer.tokenize source)).length)).errors.length =
        (parse source).errors.length ∧
      ((parse (closeOff source (unclosed (Lexer.tokenize source)).length)).errors = [] ↔
        (parse source).errors = []) := by
  have hshorter : source.utf8ByteSize < UInt32.size := by
    rw [utf8ByteSize_closeOff] at hsize
    exact Nat.lt_of_le_of_lt (Nat.le_add_right _ _) hsize
  generalize hcompleted : closeOff source (unclosed (Lexer.tokenize source)).length = completed
    at hsize ⊢
  obtain ⟨w, htokens, hkind, hlength⟩ :=
    exists_dropLast_tokenize_closeOff source (unclosed (Lexer.tokenize source)).length
  rw [hcompleted, ← Parser.ahead_ofSource_eq_dropLast, ← Parser.ahead_ofSource_eq_dropLast]
    at htokens
  have hdepth : (unclosed (Lexer.tokenize source)).length =
      depthBehind 0 (Parser.ofSource source).ahead := by
    rw [length_unclosed, ← Parser.ahead_ofSource, depthBehind_append, Parser.eof_ofSource]
    rfl
  have hbegin : CutOff (Completes 0) (.ofSource source) (.ofSource completed) :=
    ⟨Parser.ordered_ofSource hshorter, Parser.ordered_ofSource hsize,
      ⟨w, htokens, hkind, hlength.trans hdepth⟩, rfl⟩
  obtain ⟨program, q, hrun, hparse⟩ := exists_parse_eq source
  obtain ⟨program', q', hrun', hparse'⟩ := exists_parse_eq completed
  have hagree := CutOff.program ((Parser.ofSource source).ahead.length + 2)
    ((Parser.ofSource completed).ahead.length + 2) _ _ hbegin
  obtain ⟨-, hall⟩ := parse_traces source
  obtain ⟨-, hall'⟩ := parse_traces completed
  rw [hparse] at hall ⊢
  rw [hparse'] at hall' ⊢
  have hboth : Outcome.Agree _ _ (Rule.program.run (.ofSource source))
    (Rule.program.run (.ofSource completed)) := hagree
  rw [hrun, hrun'] at hboth
  cases hboth with
  | done h =>
      obtain ⟨hstatements, hend⟩ := h
      have herrors := hend.errors.symm
      refine ⟨?_, herrors, ?_⟩
      · exact congrArg Program.mk (eq_of_sameOrEnding hall.2 hall'.2 hstatements).symm
      · rw [← List.length_eq_zero_iff, herrors, List.length_eq_zero_iff]

/-- Two braces are put behind a block in a block, with an error in front of them. -/
theorem parse_closeOff_sample :
    (closeOff "fn() \x7b @ \x7b x"
        (unclosed (Lexer.tokenize "fn() \x7b @ \x7b x")).length).utf8ByteSize < UInt32.size ∧
      closeOff "fn() \x7b @ \x7b x" (unclosed (Lexer.tokenize "fn() \x7b @ \x7b x")).length =
        "fn() \x7b @ \x7b x\x7d\x7d" ∧
      (parse "fn() \x7b @ \x7b x\x7d\x7d").errors.length = 1 := by
  have hclosed : closeOff "fn() \x7b @ \x7b x"
      (unclosed (Lexer.tokenize "fn() \x7b @ \x7b x")).length = "fn() \x7b @ \x7b x\x7d\x7d" := by
    decide +kernel
  have hsize : (closeOff "fn() \x7b @ \x7b x"
      (unclosed (Lexer.tokenize "fn() \x7b @ \x7b x")).length).utf8ByteSize < UInt32.size := by
    decide +kernel
  have hboth := parse_closeOff hsize
  rw [hclosed] at hboth
  refine ⟨hsize, hclosed, hboth.2.1.trans ?_⟩
  decide +kernel

theorem closeOff_apart (a : String) (blank : Char) (n : Nat) :
    closeOff (apart a blank n "") 2 = apart a blank n "\x7d\x7d" := by
  have hbraces : "" ++ ("\x7d" ++ "\x7d") = "\x7d\x7d" := by decide +kernel
  simp only [closeOff, apart, String.append_assoc, hbraces]

/-- Far behind the block that it closes a brace may be taken for another one. -/
theorem parse_closeOff_apart :
    (unclosed (Lexer.tokenize (apart "fn() \x7b @ \x7b" ' ' (UInt32.size - 1) ""))).length = 2 ∧
      (parse (closeOff (apart "fn() \x7b @ \x7b" ' ' (UInt32.size - 1) "") 2)).errors.length = 2 ∧
      (parse (apart "fn() \x7b @ \x7b" ' ' (UInt32.size - 1) "")).errors.length = 1 := by
  have hturn : "fn() \x7b @ \x7b".utf8ByteSize + (UInt32.size - 1) = UInt32.size + 9 := by
    decide +kernel
  rw [closeOff_apart, parse_apart (by decide) (by decide) hturn,
    parse_apart (by decide) (by decide) hturn,
    Lexer.tokenize_apart_of_turn (by decide) (by decide) hturn]
  decide +kernel

end ExprLang
