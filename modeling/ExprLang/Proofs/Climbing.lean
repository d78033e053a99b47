/-
# The loop under a floor reads in layers

The rule for expressions is one loop, which calls itself with the strength of each
operator as the new floor.  It does what the layers do: the loop under a floor is the
loop under the next higher one, behind which only operators of that one level are
left to take (`Rule.expression_split`).  The two ways to read are run side by side
from the same state.  Main statement: `Nested.expr_level_eq_expr_layers` (they end in
the same way, with the same value or failure and in the same state, errors included).
-/
import ExprLang.Proofs.Layers
import ExprLang.Proofs.SideBySide

namespace ExprLang

open Parse

/-! ## One state on both sides -/

/-- The same state on both sides. -/
def Parser.Same (p p' : Parser) : Prop :=
  p = p' ∧ p.Regular

/-- A run beside another one that goes through the same states. -/
def Parallel.same : Parallel where
  alike := Eq
  free _ := False
  before := Parser.Same
  behind := Parser.Same
  ended := Parser.Same
  broken := Parser.Same
  kind := @Token.alike_of_eq
  text := @Token.text_of_eq
  regular := by
    rintro p _ ⟨rfl, h⟩
    exact ⟨h, h⟩
  regular_behind := by
    rintro p _ ⟨rfl, h⟩
    exact ⟨h, h⟩
  current := by
    rintro p _ ⟨rfl, -⟩
    rfl
  take h _ := h
  advance := by
    rintro p _ ⟨rfl, h⟩
    exact ⟨rfl, h.advance⟩
  refuse := by
    rintro p _ cause ⟨rfl, h⟩
    exact ⟨rfl, h.report _⟩
  refuse_next := by
    rintro p _ cause ⟨rfl, h⟩
    exact ⟨rfl, h.report _⟩
  ended_of_behind h := h
  ended_of_semicolon := by
    rintro p _ ⟨rfl, h⟩ -
    exact ⟨rfl, h.advance⟩

/-- Expressions that are alike down to their tokens are the same, -/
theorem Expr.eq_of_alike {x y : Expr} (h : x.Alike Eq (fun _ => False) y) : x = y := by
  have hmap := x.map_eq_map_of_alike (f := id) (g := id) (fun _ _ htu => htu) y h
  rwa [x.map_id, y.map_id] at hmap

/-- and so are statements. -/
theorem Stmt.eq_of_alike {s r : Stmt} (h : s.Alike Eq (fun _ => False) r) : s = r := by
  have hmap := s.map_eq_map_of_alike (f := id) (g := id) (fun _ _ htu => htu) r h
  rwa [s.map_id, r.map_id] at hmap

/-! ## Loops under different floors -/

namespace Rule

variable {floor level : Precedence} {nested nested' : Nested} {p : Parser}

/-- What may be taken under a floor may be taken under a lower one. -/
theorem continuation?_of_le (hle : floor.rank ≤ level.rank) {form : TrailingForm}
    (h : continuation? level p = some form) : continuation? floor p = some form := by
  unfold continuation? at h ⊢
  rw [Option.ite_none_right_eq_some] at h ⊢
  obtain ⟨⟨hsemicolon, hlt⟩, hform⟩ := h
  exact ⟨⟨hsemicolon, Nat.lt_of_le_of_lt hle hlt⟩, hform⟩

/-- At most `bound` rounds of the loop under a floor. -/
def rounds (floor : Precedence) (nested : Nested) (bound : Nat) (left : Expr) : Parse Expr :=
  iterate (fun left => continue? floor left nested) bound left

/-- Where a form may be taken, a round takes it. -/
theorem continue?_of_continuation? {form : TrailingForm} (h : continuation? floor p = some form)
    (left : Expr) :
    continue? floor left nested p = (some <$> trailing form left nested) p.advance := by
  rw [continue?, get_bind, h]
  rfl

/-- Where none may be taken, the loop is over. -/
theorem rounds_of_continuation? (h : continuation? floor p = none) (nested : Nested) (bound : Nat)
    (left : Expr) : rounds floor nested (bound + 1) left p = .done left p := by
  rw [rounds, iterate, continue?, get_bind, h]
  rfl

/-- Where one may be taken, the loop goes on behind it. -/
theorem rounds_succ_of_continuation? {form : TrailingForm}
    (h : continuation? floor p = some form) (nested : Nested) (bound : Nat) (left : Expr) :
    rounds floor nested (bound + 1) left p =
      (trailing form left nested >>= rounds floor nested bound) p.advance := by
  rw [rounds, iterate, continue?_of_continuation? h, map_apply, bind_apply]
  cases trailing form left nested p.advance <;> rfl

/-- The loop under a floor first does what the loop under a higher one does, and goes
on from there. -/
theorem rounds_split (hle : floor.rank ≤ level.rank) (nested : Nested) (bound : Nat)
    (left : Expr) (p : Parser) :
    ∃ rest, rounds floor nested bound left p =
      (rounds level nested bound left >>= rounds floor nested rest) p := by
  induction bound generalizing left p with
  | zero => exact ⟨0, rfl⟩
  | succ bound ih =>
      cases hform : continuation? level p with
      | none =>
          refine ⟨bound + 1, ?_⟩
          rw [bind_apply, rounds_of_continuation? hform]
      | some form =>
          -- both loops take this form, and so the same round
          have hround := rounds_succ_of_continuation? hform nested bound left
          have hround' := rounds_succ_of_continuation? (continuation?_of_le hle hform) nested bound
            left
          rw [bind_apply] at hround hround'
          simp only [bind_apply, hround, hround']
          cases trailing form left nested p.advance with
          | done next q => exact ih next q
          | failed q => exact ⟨0, rfl⟩
          | exhausted => exact ⟨0, rfl⟩

/-- **An expression under a floor** begins with one under a higher floor, and is then
continued under its own. -/
theorem expression_split (hle : floor.rank ≤ level.rank) (nested : Nested) (p : Parser) :
    ∃ rest, expression floor nested p =
      (expression level nested >>= rounds floor nested rest) p := by
  have hbegin : ∀ f, expression f nested p =
      (operand nested >>= fun left => bounded fun bound => rounds f nested bound left) p :=
    fun _ => rfl
  simp only [bind_apply, hbegin]
  cases operand nested p with
  | done left q => exact rounds_split hle nested (q.ahead.length + 1) left q
  | failed q => exact ⟨0, rfl⟩
  | exhausted => exact ⟨0, rfl⟩

/-- Behind an expression nothing is left to take under its floor. -/
theorem expression_meets (floor : Precedence) (nested : Nested) (p : Parser) :
    (expression floor nested p).Meets (fun _ q => continuation? floor q = none) (fun _ => True)
      True := by
  refine meets_bind.mpr (Outcome.meets_of_forall (fun left q => ?_) (fun _ => trivial) trivial _)
  refine meets_bounded.mpr (meets_iterate (I := fun _ _ => True) (fun left r _ => ?_) trivial)
  rw [continue?, meets_bind, meets_get]
  cases hform : continuation? floor r with
  | none => exact hform
  | some form =>
      rw [meets_bind, meets_advance, meets_map]
      exact Outcome.meets_of_forall (fun _ _ => trivial) (fun _ => trivial) trivial _

/-! ## Layer by layer -/

/-- The same state on both sides, with nothing left to take under a floor. -/
def Settled (floor : Precedence) (q r : Parser) : Prop :=
  q.Same r ∧ continuation? floor q = none

/-- Two ways to read an expression agree: from each state they lead to the same
value in the same state, or both fail in the same state. -/
def Agrees (Q : Parser → Parser → Prop) (m m' : Parse Expr) : Prop :=
  Pairs Parser.Same (Expr.Alike Eq fun _ => False) Q Parser.Same m m'

/-- Behind an expression it is settled that nothing is left to take under its floor. -/
theorem Agrees.settled {m' : Parse Expr} (h : Agrees Parser.Same (expression floor nested) m') :
    Agrees (Settled floor) (expression floor nested) m' := by
  intro p p' hp
  have hright : (m' p').Meets (fun _ _ => True) (fun _ => True) True :=
    Outcome.meets_of_forall (fun _ _ => trivial) (fun _ => trivial) trivial _
  refine ((h p p' hp).and_meets (expression_meets floor nested p) hright).imp ?_ fun _ _ hq => hq.1
  rintro a q b r ⟨⟨hab, hsame⟩, hend, -⟩
  exact ⟨hab, hsame, hend⟩

/-- Under the floor of calls the loop stops at once. -/
theorem agrees_operand (hn : nested.Together .same nested') :
    Agrees Parser.Same (expression .call nested) (operand nested') := by
  have hpure : operand nested' = operand nested' >>= pure := by
    funext p
    rw [bind_apply]
    cases operand nested' p <;> rfl
  rw [hpure]
  refine hn.operand.bind fun x y hxy => ?_
  rintro p _ ⟨rfl, hp⟩
  have hstop : continuation? .call p = none :=
    hp.continuation?_eq_none_iff.mpr (Precedence.not_call_lt _)
  have hround := rounds_of_continuation? hstop nested p.ahead.length x
  show Outcome.Agree _ _ (rounds .call nested (p.ahead.length + 1) x p) _
  rw [hround]
  exact .done ⟨hxy, rfl, hp⟩

/-- Under the floors above all operators the loop takes lists of arguments only. -/
theorem agrees_applied (hn : nested.Together .same nested')
    (hfloor : floor = .multiplicative ∨ floor = .unary) :
    Agrees Parser.Same (expression floor nested) (applied nested') := by
  refine hn.operand.bind fun x y hxy => Pairs.bounded fun bound bound' =>
    pairs_iterate (fun x y hxy => ?_) bound bound' hxy
  rintro p _ ⟨rfl, hp⟩
  have hopening : continuation? floor p =
      if p.peek.kind = .openParen then some .call else none := by
    rw [hp.continuation?_eq]
    rcases hfloor with rfl | rfl <;> cases p.peek.kind <;> rfl
  rw [continue?, get_bind, hopening, furtherCall, peek_bind]
  by_cases h : p.peek.kind = .openParen
  · rw [if_pos h, if_pos h]
    exact agree_map ((hn.trailing .call hxy ⟨rfl, hp.advance⟩ (by
      rw [Parser.current_advance, h]
      decide)).imp (fun _ _ _ _ hr => ⟨.some hr.1, hr.2⟩) fun _ _ => id)
  · rw [if_neg h, if_neg h]
    exact .done ⟨.none, rfl, hp⟩

/-- What binds tighter than a floor, but not tighter than the next one, is an operator
of the next level. -/
theorem operator_eq (hlevel : floor.right.IsBinary) {k : Token.Kind}
    (h : ¬ floor.right < k.strength) :
    (if floor < k.strength then Forms.standard.trailing k else none) =
      if k.strength = floor.right then some .binary else none := by
  cases floor <;> cases k <;>
    first | rfl | exact absurd hlevel (by decide) | exact absurd h (by decide)

/-- With nothing left to take under the next floor, a further round takes an operator
of just that level, as the chain does. -/
theorem agrees_furtherOperator (hlevel : floor.right.IsBinary)
    (hright : Agrees (Settled floor.right) (nested.expr floor.right)
      (layered floor.right nested')) {x y : Expr} (hxy : x.Alike Eq (fun _ => False) y) :
    Pairs (Settled floor.right) (Option.Rel (Expr.Alike Eq fun _ => False)) (Settled floor.right)
      Parser.Same (continue? floor x nested)
      (furtherOperator floor.right (layered floor.right) y nested') := by
  rintro p _ ⟨⟨rfl, hp⟩, hsettled⟩
  rw [hp.continuation?_eq_none_iff] at hsettled
  have hoperator : continuation? floor p =
      if p.peek.precedence = floor.right then some .binary else none := by
    rw [hp.continuation?_eq, hp.precedence_peek]
    generalize p.peek.kind = k at hsettled
    exact operator_eq hlevel hsettled
  rw [continue?, get_bind, hoperator, furtherOperator, peek_bind]
  by_cases h : p.peek.precedence = floor.right
  · rw [if_pos h, if_pos h]
    refine agree_map ?_
    rw [trailing, binary, current_bind, advance_bind, operation, current_bind, advance_bind,
      Parser.current_advance, h]
    refine agree_bind ((hright _ _ ⟨rfl, hp.advance.advance⟩).imp ?_ fun _ _ => id)
    rintro r q r' q' ⟨hr, hq⟩
    exact .done ⟨.some (.binary _ rfl hxy hr), hq⟩
  · rw [if_neg h, if_neg h]
    exact .done ⟨.none, ⟨rfl, hp⟩, hp.continuation?_eq_none_iff.mpr hsettled⟩

/-- **One layer**: under a floor the loop reads a chain of what it reads under the
next one. -/
theorem agrees_chain (hlevel : floor.right.IsBinary)
    (hoperand : Agrees Parser.Same (expression floor.right nested) (layered floor.right nested'))
    (hright : Agrees (Settled floor.right) (nested.expr floor.right)
      (layered floor.right nested')) :
    Agrees Parser.Same (expression floor nested) (layered floor nested') := by
  intro p p' hp
  obtain ⟨rest, hsplit⟩ := expression_split floor.rank_le_right nested p
  rw [hsplit, layered_eq_chain hlevel, chain]
  refine (hoperand.settled.bind fun x y hxy => ?_) p p' hp
  intro q q' hq
  exact (pairs_iterate (fun x y hxy => agrees_furtherOperator hlevel hright hxy) rest
    (q'.ahead.length + 1) hxy q q' hq).imp (fun _ _ _ _ h => ⟨h.1, h.2.1⟩) fun _ _ => id

/-- **All layers**: the loop reads under each floor what the layers read. -/
theorem agrees_layered (hn : nested.Together .same nested')
    (hright : ∀ level, Agrees (Settled level) (nested.expr level) (layered level nested'))
    (floor : Precedence) :
    Agrees Parser.Same (expression floor nested) (layered floor nested') := by
  have happlied : Agrees Parser.Same (expression .multiplicative nested) (applied nested') :=
    agrees_applied hn (.inl rfl)
  have hunary : Agrees Parser.Same (expression .unary nested) (applied nested') :=
    agrees_applied hn (.inr rfl)
  have hproduct : Agrees Parser.Same (expression .additive nested) (layered .additive nested') :=
    agrees_chain (by decide) happlied (hright _)
  have hsum : Agrees Parser.Same (expression .relational nested) (layered .relational nested') :=
    agrees_chain (by decide) hproduct (hright _)
  have hcomparison : Agrees Parser.Same (expression .equality nested)
      (layered .equality nested') := agrees_chain (by decide) hsum (hright _)
  cases floor with
  | lowest => exact agrees_chain (by decide) hcomparison (hright _)
  | equality => exact hcomparison
  | relational => exact hsum
  | additive => exact hproduct
  | multiplicative => exact happlied
  | unary => exact hunary
  | call => exact agrees_operand hn

/-! ## Statements and blocks -/

/-- Statements whose expressions agree agree, read or skipped. -/
theorem agrees_statement (hn : nested.Together .same nested') :
    Pairs Parser.Same (Option.Rel (Stmt.Alike Eq fun _ => False)) Parser.Same (fun _ _ => False)
      (statement nested) (statement nested') := by
  rintro p _ ⟨rfl, hp⟩
  have hempty : Parser.Same { p with visits := [] } { p with visits := [] } :=
    ⟨rfl, hp.withVisits []⟩
  refine agree_logged ?_
  rw [get_bind, get_bind]
  refine agree_bind (agree_attempt ((hn.statementForm hempty).imp ?_ ?_))
  · rintro s q r _ ⟨hs, rfl, hq⟩
    obtain rfl := Stmt.eq_of_alike hs
    exact .done ⟨.some hs, rfl, hq.withVisits _⟩
  · rintro q _ ⟨rfl, hq⟩
    exact .done ⟨.none, rfl, hq.recover.withVisits _⟩

theorem agrees_blockItem (hn : nested.Together .same nested') :
    Pairs Parser.Same (Option.Rel (Option.Rel (Stmt.Alike Eq fun _ => False))) Parser.Same
      (fun _ _ => False) (blockItem nested) (blockItem nested') := by
  rintro p _ ⟨rfl, hp⟩
  rw [blockItem, blockItem, current_bind, current_bind]
  by_cases hends : endsBlock p.current.kind = true
  · rw [if_pos hends, if_pos hends]
    exact .done ⟨.none, rfl, hp⟩
  · rw [if_neg hends, if_neg hends]
    refine (agrees_statement hn).bind (fun result result' hresult => ?_) p p ⟨rfl, hp⟩
    rintro q _ ⟨rfl, hq⟩
    cases hresult with
    | some hs => exact .done ⟨.some (.some hs), rfl, hq.advance⟩
    | none =>
        dsimp only
        rw [get_bind]
        by_cases hran : q.ranIntoClosingBrace = true
        · rw [if_pos hran]
          exact .done ⟨.none, rfl, hq⟩
        · rw [if_neg hran]
          exact .done ⟨.some .none, rfl, hq.advance⟩

theorem agrees_block (hn : nested.Together .same nested') :
    Pairs Parser.Same (Block.Alike Eq fun _ => False) Parser.Same Parser.Same (block nested)
      (block nested') := by
  rintro p _ ⟨rfl, hp⟩
  refine agree_logged ?_
  rw [current_bind, current_bind, advance_bind, advance_bind]
  have hitems := Pairs.bounded (pairs_many_of_rel (agrees_blockItem hn))
  refine agree_bind ((hitems _ _ ⟨rfl, (hp.withVisits []).advance⟩).imp ?_ fun _ _ h => h.elim)
  rintro items q items' _ ⟨hsame, rfl, hq⟩
  exact .done ⟨.body rfl (forall₂_filterMap hsame), rfl, hq.withVisits _⟩

end Rule

/-! ## All depths -/

namespace Nested

/-- Nothing is left to take under its floor behind a nested expression. -/
theorem agrees_expr_level {n : Nat} {floor : Precedence} {m' : Parse Expr}
    (h : Rule.Agrees Parser.Same ((level n).expr floor) m') :
    Rule.Agrees (Rule.Settled floor) ((level n).expr floor) m' := by
  cases n with
  | zero => exact fun _ _ _ => .cut _
  | succ n => exact Rule.Agrees.settled h

/-- **The two ways to read go together** at all depths of nesting. -/
theorem together_layers (n m : Nat) : (level n).Together .same (layers m) := by
  induction n generalizing m with
  | zero => exact ⟨fun _ _ _ _ => .cut _, fun _ _ => .cut _⟩
  | succ n ih =>
      cases m with
      | zero => exact ⟨fun _ _ _ _ => .cutBeside _, fun _ _ => .cutBeside _⟩
      | succ m =>
          -- the loop reads a right operand one level down, the layers do so on their own level
          have hright : ∀ floor, Rule.Agrees (Rule.Settled floor) ((level n).expr floor)
              (Rule.layered floor (layers m)) :=
            fun floor => agrees_expr_level ((ih (m + 1)).expr floor)
          exact ⟨Rule.agrees_layered (ih m) hright, fun hp _ => Rule.agrees_block (ih m) _ _ hp⟩

/-- **The loop under a floor reads in layers.**  From every state of a run over a
source, and under every floor, it ends in the same way as the layers do: with the
same expression or without one, at the same token and with the same errors.  Neither
is cut short when there is room for all the nesting that the tokens left can hold. -/
theorem expr_level_eq_expr_layers {source : String} {p : Parser}
    (hp : (Parser.ofSource source).Reaches p) (floor : Precedence) {n m : Nat}
    (hn : p.ahead.length < n) (hm : p.ahead.length < m) :
    (level n).expr floor p = (layers m).expr floor p ∧ (level n).expr floor p ≠ .exhausted := by
  have hregular := (Parser.regular_ofSource source).of_reaches hp
  have hends := (ends_level n).expr floor p hregular.steady hn
  have hends' := (ends_layers m).expr floor p hregular.steady hm
  have hagree := (together_layers n m).expr floor p p ⟨rfl, hregular⟩
  generalize (level n).expr floor p = o, (layers m).expr floor p = o' at hends hends' hagree
  cases hagree with
  | done h =>
      obtain ⟨hxy, rfl, -⟩ := h
      rw [Expr.eq_of_alike hxy]
      exact ⟨rfl, by simp⟩
  | failed h =>
      obtain ⟨rfl, -⟩ := h
      exact ⟨rfl, by simp⟩
  | cut => exact hends.elim
  | cutBeside => exact hends'.elim

/-- A product that stands to the right of a minus sign, in a source whose last operand
is missing. -/
theorem expr_level_eq_expr_layers_sample :
    (Parser.ofSource "a - !b * c(d)(1, 2) == e < ;").Reaches
        (Parser.ofSource "a - !b * c(d)(1, 2) == e < ;").advance.advance ∧
      (Parser.ofSource "a - !b * c(d)(1, 2) == e < ;").advance.advance.ahead.length < 20 ∧
      (level 20).expr .additive (Parser.ofSource "a - !b * c(d)(1, 2) == e < ;").advance.advance =
        (layers 20).expr .additive
          (Parser.ofSource "a - !b * c(d)(1, 2) == e < ;").advance.advance ∧
      (level 20).expr .additive (Parser.ofSource "a - !b * c(d)(1, 2) == e < ;").advance.advance ≠
        .exhausted := by
  have hreaches := (Parser.reaches_advance (.ofSource "a - !b * c(d)(1, 2) == e < ;")).trans
    (Parser.reaches_advance _)
  have hlength : (Parser.ofSource "a - !b * c(d)(1, 2) == e < ;").advance.advance.ahead.length <
      20 := by decide +kernel
  exact ⟨hreaches, hlength, expr_level_eq_expr_layers hreaches .additive hlength hlength⟩

end Nested

end ExprLang
