/-
# What a rendered tree is read back as

Rendering puts no semicolon behind an expression, so an expression statement
runs into the next one where that begins with a parenthesis: `a` and `(-b)` are
read back as the call `a(-b)`.  `Program.reread` joins statements in this way
and takes the tokens off.  Main statement: `Program.reread_eq_bare_iff` (joining
changes a tree exactly when its statements are not separated).
-/
import ExprLang.Proofs.Lexemes

namespace ExprLang

/-! ## Running into an expression -/

/-- What `f` and `e` are read as when `e` stands right behind `f` and begins with
a parenthesis: that parenthesis holds the arguments of a call. -/
def Expr.runInto (f : Expr) : Expr → Expr
  | .call _ callee arguments => .call default (f.runInto callee) arguments
  | e => .call default f [e]

namespace Expr

/-- Behind two expressions it does not matter which two are joined first. -/
theorem runInto_runInto (f g e : Expr) : f.runInto (g.runInto e) = (f.runInto g).runInto e := by
  match e with
  | .call _ callee arguments =>
      have ih := runInto_runInto f g callee
      simp only [runInto, ih]
  | .identifier .. | .integer .. | .boolean .. | .unary .. | .binary .. | .conditional .. |
    .function .. => simp only [runInto]
termination_by structural e

/-- The joined expression begins as the first one does. -/
theorem opens_runInto (f e : Expr) : (f.runInto e).Opens ↔ f.Opens := by
  match e with
  | .call _ callee arguments => exact opens_runInto f callee
  | .identifier .. | .integer .. | .boolean .. | .unary .. | .binary .. | .conditional .. |
    .function .. => exact Iff.rfl
termination_by structural e

/-- No statement in an expression gets lost. -/
theorem count_runInto (f e : Expr) : (f.runInto e).count = f.count + e.count := by
  match e with
  | .call _ callee arguments =>
      have ih := count_runInto f callee
      simp only [runInto, count, ih]
      omega
  | .identifier .. | .integer .. | .boolean .. | .unary .. | .binary .. | .conditional .. |
    .function .. => rfl
termination_by structural e

end Expr

/-! ## Joining statements -/

namespace Stmt

/-- An expression statement that begins with a parenthesis. -/
def Opens : Stmt → Prop
  | .expression _ e => e.Opens
  | _ => False

/-- The first of some statements begins with a parenthesis. -/
def OpensFirst (ss : List Stmt) : Prop :=
  ∃ s ∈ ss.head?, s.Opens

/-- A statement in front of others, which it takes the first one of into it when
it runs into it. -/
def join : Stmt → List Stmt → List Stmt
  | .expression token f, .expression token' e :: ss =>
      if e.Opens then .expression token (f.runInto e) :: ss
      else .expression token f :: .expression token' e :: ss
  | s, ss => s :: ss

theorem opensFirst_cons (s : Stmt) (ss : List Stmt) : OpensFirst (s :: ss) ↔ s.Opens := by
  simp [OpensFirst]

/-- Statements that do not begin with a parenthesis stay apart from what is in
front of them. -/
theorem join_of_not_opensFirst {s : Stmt} {ss : List Stmt}
    (h : ¬ (s.IsExpression ∧ OpensFirst ss)) : join s ss = s :: ss := by
  unfold join
  split
  · next token f token' e ss =>
      have he : ¬ e.Opens := fun he => h ⟨trivial, (opensFirst_cons _ ss).mpr he⟩
      rw [if_neg he]
  · rfl

/-- Behind an expression statement the first one of the others is lost. -/
theorem join_of_opensFirst {token : Token} {f : Expr} {ss : List Stmt} (h : OpensFirst ss) :
    ∃ token' e tail, ss = .expression token' e :: tail ∧ e.Opens ∧
      join (.expression token f) ss = .expression token (f.runInto e) :: tail := by
  obtain ⟨s, hs, hopens⟩ := h
  obtain ⟨tail, rfl⟩ := List.head?_eq_some_iff.mp hs
  cases s with
  | binding => exact hopens.elim
  | ret => exact hopens.elim
  | expression token' e => exact ⟨token', e, tail, rfl, hopens, if_pos hopens⟩

/-- A joined list begins as its first statement does. -/
theorem opensFirst_join (s : Stmt) (ss : List Stmt) : OpensFirst (join s ss) ↔ s.Opens := by
  by_cases h : s.IsExpression ∧ OpensFirst ss
  · obtain ⟨hs, hss⟩ := h
    cases s with
    | binding => exact hs.elim
    | ret => exact hs.elim
    | expression token f =>
        obtain ⟨_, e, tail, -, -, hjoin⟩ := @join_of_opensFirst token f ss hss
        rw [hjoin, opensFirst_cons]
        exact f.opens_runInto e
  · rw [join_of_not_opensFirst h, opensFirst_cons]

/-- An expression that runs into one that begins with a parenthesis is, with it,
in front of the others. -/
theorem join_join {token token' : Token} {f e : Expr} (he : e.Opens) (ss : List Stmt) :
    join (.expression token f) (join (.expression token' e) ss) =
      join (.expression token (f.runInto e)) ss := by
  by_cases hss : OpensFirst ss
  · obtain ⟨_, g, tail, rfl, hg, hjoin⟩ := @join_of_opensFirst token' e ss hss
    rw [hjoin, join, if_pos ((e.opens_runInto g).mpr he), join, if_pos hg, Expr.runInto_runInto]
  · rw [join_of_not_opensFirst fun h => hss h.2, join_of_not_opensFirst fun h => hss h.2, join,
      if_pos he]

/-- Joining two statements loses one. -/
theorem countList_join_lt {s : Stmt} {ss : List Stmt} (hs : s.IsExpression) (hss : OpensFirst ss) :
    countList (join s ss) < s.count + countList ss := by
  cases s with
  | binding => exact hs.elim
  | ret => exact hs.elim
  | expression token f =>
      obtain ⟨_, e, tail, rfl, -, hjoin⟩ := @join_of_opensFirst token f ss hss
      rw [hjoin]
      simp only [countList, count, Expr.count_runInto]
      omega

end Stmt

/-! ## Joining everywhere -/

mutual

/-- What an expression is read back as, without tokens. -/
def Expr.reread : Expr → Expr
  | .identifier name => .identifier name.bare
  | .integer _ value => .integer default value
  | .boolean _ value => .boolean default value
  | .unary _ operator operand => .unary default operator operand.reread
  | .binary _ operator left right => .binary default operator left.reread right.reread
  | .conditional _ condition consequence alternative =>
      .conditional default condition.reread consequence.reread (Expr.rereadElse alternative)
  | .function _ parameters body =>
      .function default (parameters.map Identifier.bare) body.reread
  | .call _ callee arguments => .call default callee.reread (Expr.rereadArguments arguments)

/-- What some expressions are read back as, without tokens. -/
def Expr.rereadArguments : List Expr → List Expr
  | [] => []
  | x :: xs => x.reread :: Expr.rereadArguments xs

/-- What an optional block is read back as, without tokens. -/
def Expr.rereadElse : Option Block → Option Block
  | none => none
  | some b => some b.reread

/-- What a statement is read back as, without tokens. -/
def Stmt.reread : Stmt → Stmt
  | .binding _ name value => .binding default name.bare value.reread
  | .ret _ value => .ret default (Stmt.rereadValue value)
  | .expression _ value => .expression default value.reread

/-- What an optional expression is read back as, without tokens. -/
def Stmt.rereadValue : Option Expr → Option Expr
  | none => none
  | some x => some x.reread

/-- What some statements are read back as, without tokens: each is joined to
those behind it. -/
def Stmt.rereadList : List Stmt → List Stmt
  | [] => []
  | s :: ss => s.reread.join (Stmt.rereadList ss)

/-- What a block is read back as, without tokens. -/
def Block.reread : Block → Block
  | .mk _ body => .mk default (Stmt.rereadList body)

end

/-- What a program is read back as, without tokens. -/
def Program.reread (p : Program) : Program :=
  ⟨Stmt.rereadList p.statements⟩

/-! ## Reading back begins the same -/

theorem Expr.opens_reread (e : Expr) : e.reread.Opens ↔ e.Opens := by
  match e with
  | .call _ callee _ => exact callee.opens_reread
  | .identifier .. | .integer .. | .boolean .. | .unary .. | .binary .. | .conditional .. |
    .function .. => exact Iff.rfl
termination_by structural e

namespace Stmt

theorem opens_reread (s : Stmt) : s.reread.Opens ↔ s.Opens := by
  cases s with
  | expression _ e => exact e.opens_reread
  | binding => exact Iff.rfl
  | ret => exact Iff.rfl

theorem isExpression_reread (s : Stmt) : s.reread.IsExpression ↔ s.IsExpression := by
  cases s <;> exact Iff.rfl

theorem opensFirst_rereadList (ss : List Stmt) : OpensFirst (rereadList ss) ↔ OpensFirst ss := by
  cases ss with
  | nil => exact Iff.rfl
  | cons s ss => rw [rereadList, opensFirst_join, opens_reread, opensFirst_cons]

/-- The second of two statements is rendered with a parenthesis first exactly
when it begins with one. -/
theorem runsInto_iff {s t : Stmt} (ht : t.All writable) :
    s.RunsInto t ↔ s.IsExpression ∧ t.Opens := by
  unfold RunsInto
  cases t with
  | binding => simp [IsExpression, Opens]
  | ret => simp [IsExpression, Opens]
  | expression token e =>
      obtain ⟨c, tail, hrender, hc⟩ := e.exists_render_eq_cons ht.2
      show _ ∧ True ∧ e.render.toList.head? = some '(' ↔ _ ∧ e.Opens
      rw [hrender, true_and, List.head?_cons, Option.some.injEq]
      refine and_congr_right fun _ => ⟨?_, ?_⟩
      · rintro rfl
        rcases hc with ⟨hopens, -⟩ | ⟨-, hword⟩
        · exact hopens
        · exact absurd hword (by decide)
      · intro hopens
        rcases hc with ⟨-, hc⟩ | ⟨hnot, -⟩
        · exact hc
        · exact absurd hopens hnot

/-- A statement in front of others runs into none of them. -/
theorem forall_not_runsInto_iff {s : Stmt} {ss : List Stmt} (hss : AllList writable ss) :
    (∀ t ∈ ss.head?, ¬ s.RunsInto t) ↔ ¬ (s.IsExpression ∧ OpensFirst ss) := by
  cases ss with
  | nil => simp [OpensFirst]
  | cons t ss =>
      rw [opensFirst_cons, ← runsInto_iff hss.1]
      simp

end Stmt

/-! ## When reading back changes nothing -/

/-- What reading back does to a part of a tree with so many statements: where
they stand apart, the part stays the same; no statement is added; and if none is
lost then they stand apart. -/
structure Faithful (apart same : Prop) (found written : Nat) : Prop where
  same : apart → same
  le : found ≤ written
  apart : written ≤ found → apart

namespace Faithful

variable {apart apart' same same' whole : Prop} {found found' written written' : Nat}

/-- A part without statements stays the same. -/
theorem leaf (ha : apart) (hs : same) : Faithful apart same found found :=
  ⟨fun _ => hs, Nat.le_refl _, fun _ => ha⟩

/-- Two parts next to each other. -/
theorem and (h : Faithful apart same found written) (h' : Faithful apart' same' found' written') :
    Faithful (apart ∧ apart') (same ∧ same') (found + found') (written + written') where
  same hand := ⟨h.same hand.1, h'.same hand.2⟩
  le := Nat.add_le_add h.le h'.le
  apart hle := by
    have := h.le
    have := h'.le
    exact ⟨h.apart (by omega), h'.apart (by omega)⟩

/-- A whole that asks nothing more than its parts, and is the same when they are. -/
theorem node (h : Faithful apart same found written) (hwhole : same → whole) :
    Faithful (True ∧ apart) whole found written where
  same hand := hwhole (h.same hand.2)
  le := h.le
  apart hle := ⟨trivial, h.apart hle⟩

/-- A whole that asks what its parts ask, and is the same when they are. -/
theorem imp (h : Faithful apart same found written) (hwhole : same → whole) :
    Faithful apart whole found written where
  same ha := hwhole (h.same ha)
  le := h.le
  apart := h.apart

/-- A statement around its parts. -/
theorem succ (h : Faithful apart same found written) :
    Faithful apart same (found + 1) (written + 1) where
  same := h.same
  le := Nat.succ_le_succ h.le
  apart hle := h.apart (Nat.le_of_succ_le_succ hle)

end Faithful

mutual

/-- An expression stays the same exactly when the statements in it stand apart. -/
theorem Expr.faithful (e : Expr) (he : e.All writable) :
    Faithful (e.All separated) (e.reread = e.bare) e.reread.count e.count := by
  match e with
  | .identifier name => exact .leaf trivial rfl
  | .integer token value => exact .leaf trivial rfl
  | .boolean token value => exact .leaf trivial rfl
  | .unary token operator operand =>
      exact (operand.faithful he.2).node fun h => by rw [Expr.reread, h, Expr.bare]
  | .binary token operator left right =>
      refine ((left.faithful he.2.1).and (right.faithful he.2.2)).node ?_
      rintro ⟨hl, hr⟩
      rw [Expr.reread, hl, hr, Expr.bare]
  | .conditional token condition consequence alternative =>
      obtain ⟨-, hc, hb, ha⟩ := he
      refine ((condition.faithful hc).and
        ((consequence.faithful hb).and (Expr.faithfulElse alternative ha))).node ?_
      rintro ⟨hc, hb, ha⟩
      rw [Expr.reread, hc, hb, ha, Expr.bare]
  | .function token parameters body =>
      exact (body.faithful he.2).node fun h => by rw [Expr.reread, h, Expr.bare]
  | .call token callee arguments =>
      refine ((callee.faithful he.2.1).and (Expr.faithfulArguments arguments he.2.2)).node ?_
      rintro ⟨hf, has⟩
      rw [Expr.reread, hf, has, Expr.bare]
termination_by structural e

theorem Expr.faithfulArguments (xs : List Expr) (hxs : Expr.AllArguments writable xs) :
    Faithful (Expr.AllArguments separated xs) (Expr.rereadArguments xs = Expr.bareArguments xs)
      (Expr.countArguments (Expr.rereadArguments xs)) (Expr.countArguments xs) := by
  match xs with
  | [] => exact .leaf trivial rfl
  | x :: xs =>
      refine ((x.faithful hxs.1).and (Expr.faithfulArguments xs hxs.2)).imp ?_
      rintro ⟨hx, hxs⟩
      rw [Expr.rereadArguments, hx, hxs, Expr.bareArguments]
termination_by structural xs

theorem Expr.faithfulElse (b : Option Block) (hb : Expr.AllElse writable b) :
    Faithful (Expr.AllElse separated b) (Expr.rereadElse b = Expr.bareElse b)
      (Expr.countElse (Expr.rereadElse b)) (Expr.countElse b) := by
  match b with
  | none => exact .leaf trivial rfl
  | some b => exact (b.faithful hb).imp fun h => by rw [Expr.rereadElse, h, Expr.bareElse]
termination_by structural b

/-- A statement stays the same exactly when the statements in it stand apart. -/
theorem Stmt.faithful (s : Stmt) (hs : s.All writable) :
    Faithful (s.All separated) (s.reread = s.bare) s.reread.count s.count := by
  match s with
  | .binding token name value =>
      exact (value.faithful hs.2).succ.node fun h => by rw [Stmt.reread, h, Stmt.bare]
  | .ret token value =>
      exact (Stmt.faithfulValue value hs.2).succ.node fun h => by rw [Stmt.reread, h, Stmt.bare]
  | .expression token value =>
      exact (value.faithful hs.2).succ.node fun h => by rw [Stmt.reread, h, Stmt.bare]
termination_by structural s

theorem Stmt.faithfulValue (x : Option Expr) (hx : Stmt.AllValue writable x) :
    Faithful (Stmt.AllValue separated x) (Stmt.rereadValue x = Stmt.bareValue x)
      (Stmt.countValue (Stmt.rereadValue x)) (Stmt.countValue x) := by
  match x with
  | none => exact .leaf trivial rfl
  | some x => exact (x.faithful hx).imp fun h => by rw [Stmt.rereadValue, h, Stmt.bareValue]
termination_by structural x

/-- Statements stay the same exactly when they stand apart, from each other and
in themselves. -/
theorem Stmt.faithfulList (ss : List Stmt) (hss : Stmt.AllList writable ss) :
    Faithful (separated.body ss ∧ Stmt.AllList separated ss)
      (Stmt.rereadList ss = Stmt.bareList ss) (Stmt.countList (Stmt.rereadList ss))
      (Stmt.countList ss) := by
  match ss with
  | [] => exact .leaf ⟨.nil, trivial⟩ rfl
  | s :: ss =>
      obtain ⟨hs, hss⟩ := hss
      have hboth := (s.faithful hs).and (Stmt.faithfulList ss hss)
      have hchain : separated.body (s :: ss) ↔
          ¬ (s.IsExpression ∧ Stmt.OpensFirst ss) ∧ separated.body ss := by
        rw [← Stmt.forall_not_runsInto_iff hss]
        exact List.isChain_cons
      by_cases hrun : s.IsExpression ∧ Stmt.OpensFirst ss
      · -- a statement is lost, and the list does not stand apart
        have hlt := Stmt.countList_join_lt (s.isExpression_reread.mpr hrun.1)
          ((Stmt.opensFirst_rereadList ss).mpr hrun.2)
        have hle := hboth.le
        refine ⟨fun h => absurd hrun (hchain.mp h.1).1, ?_, fun h => ?_⟩
        · rw [Stmt.rereadList, Stmt.countList]
          omega
        · rw [Stmt.rereadList, Stmt.countList] at h
          omega
      · have hjoin : Stmt.rereadList (s :: ss) = s.reread :: Stmt.rereadList ss := by
          rw [Stmt.rereadList, Stmt.join_of_not_opensFirst]
          rwa [s.isExpression_reread, Stmt.opensFirst_rereadList]
        rw [hjoin]
        refine ⟨fun h => ?_, hboth.le, fun h => ?_⟩
        · obtain ⟨h1, h2⟩ := hboth.same ⟨h.2.1, (hchain.mp h.1).2, h.2.2⟩
          rw [h1, h2, Stmt.bareList]
        · obtain ⟨h1, h2, h3⟩ := hboth.apart h
          exact ⟨hchain.mpr ⟨hrun, h2⟩, h1, h3⟩
termination_by structural ss

/-- A block stays the same exactly when its statements stand apart. -/
theorem Block.faithful (b : Block) (hb : b.All writable) :
    Faithful (b.All separated) (b.reread = b.bare) b.reread.count b.count := by
  match b with
  | .mk token body =>
      exact (Stmt.faithfulList body hb.2).imp fun h => by rw [Block.reread, h, Block.bare]
termination_by structural b

end

/-- **Reading back changes nothing exactly when the statements are separated.** -/
theorem Program.reread_eq_bare_iff (p : Program) (hp : p.WellFormed) :
    p.reread = p.bare ↔ p.Separated := by
  have hfaithful := Stmt.faithfulList p.statements hp.2
  constructor
  · intro h
    have hlist : Stmt.rereadList p.statements = Stmt.bareList p.statements :=
      congrArg Program.statements h
    apply hfaithful.apart
    rw [hlist, Stmt.countList_bare]
  · intro h
    rw [Program.reread, hfaithful.same h, Program.bare]

example :
    let a := Expr.identifier ⟨default, "a"⟩
    let b := Expr.unary default "-" (.identifier ⟨default, "b"⟩)
    Program.reread ⟨[.expression default a, .expression default b]⟩ =
      ⟨[.expression default (.call default a [b])]⟩ :=
  rfl

end ExprLang
