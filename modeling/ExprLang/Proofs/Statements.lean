/-
# Statements side by side

Two runs that go together through each statement go on together behind it, also where
it breaks, if recovery leaves them side by side; and so the statements of blocks and of
whole programs go together.  `Resumption` lists what that needs.  Main statements:
`Resumption.statement`, `Resumption.block`, `Resumption.gathers` (programs go together
for as long as one of them lasts) and `Resumption.gathers_to_end`.
-/
import ExprLang.Proofs.SideBySide

namespace ExprLang

/-! ## Behind statements -/

/-- A way in which two runs go together beyond single statements: in front of the next
statement, where one of them may be at its end (`next`), and on a closing brace into
which statements ran on both sides (`stopped`). -/
structure Resumption : Type extends Parallel where
  next : Parser → Parser → Prop
  stopped : Parser → Parser → Prop
  kind_eq : ∀ {t u : Token}, alike t u → t.kind = u.kind
  before_log : ∀ {p p' : Parser} (visits visits' : List Visit), before p p' →
    before { p with visits := visits } { p' with visits := visits' }
  ended_log : ∀ {p p' : Parser} (visits visits' : List Visit), ended p p' →
    ended { p with visits := visits } { p' with visits := visits' }
  stopped_log : ∀ {p p' : Parser} (visits visits' : List Visit), stopped p p' →
    stopped { p with visits := visits } { p' with visits := visits' }
  recover : ∀ {p p' : Parser}, broken p p' →
    (p.recover.ranIntoClosingBrace = true ∧ p'.recover.ranIntoClosingBrace = true ∧
        stopped p.recover p'.recover) ∨
      (¬ p.recover.ranIntoClosingBrace = true ∧ ¬ p'.recover.ranIntoClosingBrace = true ∧
        ended p.recover p'.recover)
  next_of_ended : ∀ {p p' : Parser}, ended p p' → next p.advance p'.advance
  next_of_stopped : ∀ {p p' : Parser}, stopped p p' → next p.advance p'.advance
  before_of_next : ∀ {p p' : Parser}, next p p' → p.current.kind ≠ .eof → before p p'

open Parse

namespace Resumption

variable (c : Resumption)

/-- How two statements are over: both ran into a closing brace, or both are behind
their last tokens. -/
def Finished (result : Option Stmt) (q : Parser) (result' : Option Stmt) (q' : Parser) : Prop :=
  Option.Rel (Stmt.Alike c.alike c.free) result result' ∧
    ((result = none ∧ q.ranIntoClosingBrace = true ∧ q'.ranIntoClosingBrace = true ∧
        c.stopped q q') ∨
      ((result = none → ¬ q.ranIntoClosingBrace = true ∧ ¬ q'.ranIntoClosingBrace = true) ∧
        c.ended q q'))

/-- Where a block can be over on both sides: where it ends, or where a statement ran into
a closing brace. -/
def Over (p p' : Parser) : Prop :=
  c.before p p' ∨ c.stopped p p'

variable {c : Resumption} {p p' : Parser} {nested nested' : Nested}

/-- **Statements go together**, read or skipped. -/
theorem statement (hn : nested.Together c.toParallel nested') (h : c.before p p') :
    (Rule.statement nested p).Agree c.Finished (fun _ _ => False) (Rule.statement nested' p') := by
  refine agree_logged ?_
  rw [get_bind, get_bind]
  refine agree_bind (agree_attempt ((hn.statementForm (c.before_log [] [] h)).imp
    (fun s q r q' hq => ?_) fun q q' hq => ?_))
  · exact .done ⟨.some hq.1, .inr ⟨by simp, c.ended_log _ _ hq.2⟩⟩
  · rcases c.recover hq with ⟨hran, hran', hq⟩ | ⟨hran, hran', hq⟩
    · exact .done ⟨.none, .inl ⟨rfl, hran, hran', c.stopped_log _ _ hq⟩⟩
    · exact .done ⟨.none, .inr ⟨fun _ => ⟨hran, hran'⟩, c.ended_log _ _ hq⟩⟩

/-- Statements of two blocks go together, or both blocks are over. -/
theorem blockItem (hn : nested.Together c.toParallel nested') (h : c.before p p') :
    (Rule.blockItem nested p).Agree
      (NextItem c.next c.Over (Option.Rel (Stmt.Alike c.alike c.free))) (fun _ _ => False)
      (Rule.blockItem nested' p') := by
  rw [Rule.blockItem, Rule.blockItem, current_bind, current_bind, ← c.kind_eq (c.current h)]
  by_cases hends : Rule.endsBlock p.current.kind = true
  · rw [if_pos hends, if_pos hends]
    exact .done (.inl h)
  · rw [if_neg hends, if_neg hends]
    refine agree_bind ((statement hn h).imp ?_ fun _ _ hq => hq)
    rintro _ q _ q' ⟨hresult, hq⟩
    cases hresult with
    | some hs =>
        rcases hq with ⟨hnone, -⟩ | ⟨-, hq⟩
        · cases hnone
        · exact .done ⟨.some hs, c.next_of_ended hq⟩
    | none =>
        dsimp only
        rw [get_bind, get_bind]
        rcases hq with ⟨-, hran, hran', hq⟩ | ⟨hran, hq⟩
        · rw [if_pos hran, if_pos hran']
          exact .done (.inr hq)
        · rw [if_neg (hran rfl).1, if_neg (hran rfl).2]
          exact .done ⟨.none, c.next_of_ended hq⟩

section Blocks

variable {exact : Prop} {u u' : List Token}

/-- The statements of two blocks go together up to where both are over, if behind each
statement more of the two blocks can be read. -/
theorem blockItems (hn : nested.Together c.toParallel nested') (hbraces : nested.KeepsBraces exact)
    (hbraces' : nested'.KeepsBraces exact)
    (hordered : ∀ {q q' : Parser}, c.before q q' → q.OrderedIf exact ∧ q'.OrderedIf exact)
    (hagain : ∀ q q' : Parser, c.next q q' → ClosedAlike exact u q.ahead → c.before q q') :
    Pairs (fun q q' => c.before q q' ∧ ClosedAlike exact u q.ahead ∧ ClosedAlike exact u' q'.ahead)
      (List.Forall₂ (Option.Rel (Stmt.Alike c.alike c.free)))
      (fun q q' => c.Over q q' ∧ BlockEnd exact u q.ahead ∧ BlockEnd exact u' q'.ahead)
      (fun _ _ => False) (bounded (many (Rule.blockItem nested)))
      (bounded (many (Rule.blockItem nested'))) := by
  refine Pairs.bounded fun bound bound' => pairs_many (fun q q' hq => ?_) bound bound'
  obtain ⟨hbefore, hclosed, hclosed'⟩ := hq
  obtain ⟨hq, hq'⟩ := hordered hbefore
  refine ((blockItem hn hbefore).and_meets (Rule.blockItem_braces hbraces ⟨hq, hclosed⟩)
    (Rule.blockItem_braces hbraces' ⟨hq', hclosed'⟩)).imp ?_ fun _ _ h => h.1
  rintro next r next' r' ⟨hr, hend, hend'⟩
  cases next with
  | none =>
      cases next' with
      | none => exact ⟨hr, hend.2, hend'.2⟩
      | some _ => exact hr.elim
  | some _ =>
      cases next' with
      | none => exact hr.elim
      | some _ => exact ⟨hr.1, hagain _ _ hr.2 hend.closed, hend.closed, hend'.closed⟩

/-- **Blocks go together**, if their statements do and what is behind them does. -/
theorem block {F : Parser → Parser → Prop} (hn : nested.Together c.toParallel nested')
    (hbraces : nested.KeepsBraces exact) (hbraces' : nested'.KeepsBraces exact)
    (hordered : ∀ {q q' : Parser}, c.before q q' → q.OrderedIf exact ∧ q'.OrderedIf exact)
    (hcurrent : c.alike p.current p'.current) (henter : c.before p.advance p'.advance)
    (hagain : ∀ q q' : Parser, c.next q q' → ClosedAlike exact p.ahead.tail q.ahead →
      c.before q q')
    (hleave : ∀ q q' : Parser, c.Over q q' → BlockEnd exact p.ahead.tail q.ahead →
      BlockEnd exact p'.ahead.tail q'.ahead → c.behind q q') :
    (Rule.block nested p).Agree
      (fun b q b' q' => b.Alike c.alike c.free b' ∧ c.behind q q') F (Rule.block nested' p') := by
  refine agree_logged ?_
  rw [current_bind, current_bind, advance_bind, advance_bind]
  refine agree_bind ((blockItems hn hbraces hbraces' hordered hagain _ _
    ⟨c.before_log [] [] henter, .refl _, .refl _⟩).imp (fun items q items' q' hq => ?_)
      fun _ _ h => h.elim)
  obtain ⟨hitems, hover, hend, hend'⟩ := hq
  refine .done ⟨.body hcurrent (forall₂_filterMap hitems), hleave _ _ ?_ hend hend'⟩
  exact hover.imp (c.before_log _ _) (c.stopped_log _ _)

end Blocks

/-- Statements of two programs go together. -/
theorem programItem (hn : nested.Together c.toParallel nested') (h : c.before p p') :
    (Rule.programItem nested p).Agree
      (NextItem c.next (fun _ _ => True) (Option.Rel (Stmt.Alike c.alike c.free)))
      (fun _ _ => False) (Rule.programItem nested' p') := by
  rw [Rule.programItem, Rule.programItem, current_bind, current_bind, ← c.kind_eq (c.current h)]
  by_cases heof : p.current.kind = .eof
  · rw [if_pos heof, if_pos heof]
    exact .done trivial
  · rw [if_neg heof, if_neg heof]
    refine agree_bind ((statement hn h).imp ?_ fun _ _ hq => hq)
    rintro result q result' q' ⟨hresult, hq⟩
    refine .done ⟨hresult, ?_⟩
    rcases hq with ⟨-, -, -, hq⟩ | ⟨-, hq⟩
    · -- a closing brace that closes nothing is dropped
      exact c.next_of_stopped hq
    · exact c.next_of_ended hq

end Resumption

/-! ## Programs -/

namespace Parse

variable {α β : Type} {item : Parse (Option α)}

/-- What a sequence gives comes from both of its parts. -/
theorem bind_eq_done {m : Parse α} {f : α → Parse β} {p r : Parser} {b : β}
    (h : (m >>= f) p = .done b r) : ∃ a q, m p = .done a q ∧ f a q = .done b r := by
  rw [bind_apply] at h
  cases hm : m p with
  | done a q =>
      rw [hm] at h
      exact ⟨a, q, rfl, h⟩
  | failed q =>
      rw [hm] at h
      cases h
  | exhausted =>
      rw [hm] at h
      cases h

theorem map_eq_done {m : Parse α} {f : α → β} {p q : Parser} {b : β}
    (h : (f <$> m) p = .done b q) : ∃ a, m p = .done a q ∧ f a = b := by
  rw [map_apply] at h
  cases hm : m p with
  | done a q =>
      rw [hm] at h
      cases h
      exact ⟨a, rfl, rfl⟩
  | failed q =>
      rw [hm] at h
      cases h
  | exhausted =>
      rw [hm] at h
      cases h

/-- Items that a procedure gives one after the other, and the state behind them. -/
inductive Gathers (item : Parse (Option α)) : Parser → List α → Parser → Prop where
  | nil (p : Parser) : Gathers item p [] p
  | cons {p q r : Parser} {a : α} {as : List α} (h : item p = .done (some a) q)
      (hrest : Gathers item q as r) : Gathers item p (a :: as) r

/-- Many items are gathered until there is none. -/
theorem exists_gathers_of_many {bound : Nat} {p r : Parser} {as : List α}
    (h : many item bound p = .done as r) :
    ∃ q, Gathers item p as q ∧ item q = .done none r := by
  induction bound generalizing p as with
  | zero => cases h
  | succ bound ih =>
      rw [many_succ_eq_bind] at h
      obtain ⟨next, q, hitem, hrest⟩ := bind_eq_done h
      cases next with
      | none =>
          cases hrest
          exact ⟨p, .nil p, hitem⟩
      | some a =>
          obtain ⟨bs, hmany, rfl⟩ := map_eq_done hrest
          obtain ⟨t, hgathers, hend⟩ := ih hmany
          exact ⟨t, .cons hitem hgathers, hend⟩

end Parse

/-- A statement of a program is there except at the end of the input. -/
theorem Rule.programItem_eq_done {nested : Nested} {p q : Parser} {next : Option (Option Stmt)}
    (h : Rule.programItem nested p = .done next q) :
    (next = none ∧ q = p ∧ p.current.kind = .eof) ∨ (next.isSome ∧ p.current.kind ≠ .eof) := by
  rw [programItem, current_bind] at h
  by_cases heof : p.current.kind = .eof
  · rw [if_pos heof] at h
    cases h
    exact .inl ⟨rfl, rfl, heof⟩
  · rw [if_neg heof] at h
    obtain ⟨_, _, -, hrest⟩ := bind_eq_done h
    cases hrest
    exact .inr ⟨rfl, heof⟩

/-- **The program of a source** is gathered from its start to its end. -/
theorem exists_gathers_parse (source : String) :
    ∃ n items q, Gathers (Rule.programItem (.level n)) (.ofSource source) items q ∧
      q.current.kind = .eof ∧ parse source = ⟨⟨items.filterMap id⟩, q.errors, q.visits⟩ := by
  obtain ⟨program, r, hrun, hparse⟩ := exists_parse_eq source
  rw [Rule.run, Rule.program] at hrun
  obtain ⟨items, q, hmany, hpure⟩ := bind_eq_done hrun
  obtain ⟨t, hgathers, hend⟩ := exists_gathers_of_many hmany
  rcases Rule.programItem_eq_done hend with ⟨-, rfl, heof⟩ | ⟨hsome, -⟩
  · cases hpure
    exact ⟨_, items, _, hgathers, heof, hparse⟩
  · cases hsome

namespace Resumption

variable {c : Resumption} {p p' : Parser}

/-- **Programs go together** for as long as there are statements on the one side; the
other side then has its own to add. -/
theorem gathers {n n' : Nat} {items items' : List (Option Stmt)} {q q' : Parser}
    (hn : (Nested.level n).Together c.toParallel (.level n'))
    (hp : Gathers (Rule.programItem (.level n)) p items q)
    (hp' : Gathers (Rule.programItem (.level n')) p' items' q') (hend : q'.current.kind = .eof)
    (h : c.next p p') :
    ∃ first rest r, items' = first ++ rest ∧
      List.Forall₂ (Option.Rel (Stmt.Alike c.alike c.free)) items first ∧
      Gathers (Rule.programItem (.level n')) r rest q' ∧ c.next q r := by
  induction hp generalizing p' items' with
  | nil p => exact ⟨[], items', p', rfl, .nil, hp', h⟩
  | cons hitem _ ih =>
      have hne := (Rule.programItem_eq_done hitem).resolve_left (by simp)
      have hbefore := c.before_of_next h hne.2
      cases hp' with
      | nil => exact absurd ((c.kind_eq (c.current hbefore)).trans hend) hne.2
      | cons hitem' hrest' =>
          have hagree : Outcome.Agree _ _ (Rule.programItem (.level n) _)
              (Rule.programItem (.level n') _) := programItem hn hbefore
          rw [hitem, hitem'] at hagree
          cases hagree with
          | done hboth =>
              obtain ⟨first, rest, r, rfl, hfirst, hrest, hr⟩ := ih hrest' hboth.2
              exact ⟨_ :: first, rest, r, rfl, .cons hboth.1 hfirst, hrest, hr⟩

/-- Behind the end of the input nothing is gathered. -/
theorem gathers_of_eof {n : Nat} {items : List (Option Stmt)} {q : Parser}
    (h : Gathers (Rule.programItem (.level n)) p items q) (heof : p.current.kind = .eof) :
    items = [] ∧ q = p := by
  cases h with
  | nil => exact ⟨rfl, rfl⟩
  | cons hitem _ =>
      have hne := (Rule.programItem_eq_done hitem).resolve_left (by simp)
      exact absurd heof hne.2

/-- **Programs go together to their ends**, if the one run is at its end only where the
other is. -/
theorem gathers_to_end {n n' : Nat} {items items' : List (Option Stmt)} {q q' : Parser}
    (hn : (Nested.level n).Together c.toParallel (.level n'))
    (hends : ∀ p p' : Parser, c.next p p' → p.current.kind = .eof → p'.current.kind = .eof)
    (hp : Gathers (Rule.programItem (.level n)) p items q)
    (hp' : Gathers (Rule.programItem (.level n')) p' items' q') (hq : q.current.kind = .eof)
    (hq' : q'.current.kind = .eof) (h : c.next p p') :
    List.Forall₂ (Stmt.Alike c.alike c.free) (items.filterMap id) (items'.filterMap id) ∧
      c.next q q' := by
  obtain ⟨first, rest, r, rfl, hfirst, hrest, hr⟩ := gathers hn hp hp' hq' h
  obtain ⟨rfl, rfl⟩ := gathers_of_eof hrest (hends q r hr hq)
  rw [List.append_nil]
  exact ⟨forall₂_filterMap hfirst, hr⟩

end Resumption

end ExprLang
