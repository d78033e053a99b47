/-
# Two runs side by side

Two runs of the same rules, over tokens that go together, take the same turns: they
read the same forms, fail at the same places and make trees that are alike.  What
"go together" means is left open; `Parallel` lists what the steps of the rules need
of it.  A run beside itself is the special case in which a single run is followed.
Main statements: `Nested.Together.expression` and `Nested.Together.statementForm`.
-/
import ExprLang.Proofs.Alike
import ExprLang.Proofs.Pieces

namespace ExprLang

variable {α β : Type}

/-! ## Outcomes that go together -/

namespace Outcome

/-- Two outcomes are of one kind, and their values and states are related.  Nothing
is said of runs that a bound cuts short. -/
inductive Agree (D : α → Parser → α → Parser → Prop) (F : Parser → Parser → Prop) :
    Outcome α → Outcome α → Prop where
  | done {a b : α} {q r : Parser} (h : D a q b r) : Agree D F (.done a q) (.done b r)
  | failed {q r : Parser} (h : F q r) : Agree D F (.failed q) (.failed r)
  | cut (o : Outcome α) : Agree D F .exhausted o
  | cutBeside (o : Outcome α) : Agree D F o .exhausted

variable {D D' : α → Parser → α → Parser → Prop} {F F' : Parser → Parser → Prop}
  {o o' : Outcome α}

theorem Agree.imp (h : o.Agree D F o') (hD : ∀ a q b r, D a q b r → D' a q b r)
    (hF : ∀ q r, F q r → F' q r) : o.Agree D' F' o' := by
  cases h with
  | done h => exact .done (hD _ _ _ _ h)
  | failed h => exact .failed (hF _ _ h)
  | cut => exact .cut _
  | cutBeside => exact .cutBeside _

/-- What is promised of each of two outcomes holds where they agree. -/
theorem Agree.and_meets {D₁ D₂ : α → Parser → Prop} {F₁ F₂ : Parser → Prop} {X₁ X₂ : Prop}
    (h : o.Agree D F o') (h₁ : o.Meets D₁ F₁ X₁) (h₂ : o'.Meets D₂ F₂ X₂) :
    o.Agree (fun a q b r => D a q b r ∧ D₁ a q ∧ D₂ b r) (fun q r => F q r ∧ F₁ q ∧ F₂ r) o' := by
  cases h with
  | done h => exact .done ⟨h, h₁, h₂⟩
  | failed h => exact .failed ⟨h, h₁, h₂⟩
  | cut => exact .cut _
  | cutBeside => exact .cutBeside _

/-- Outcomes that do not fail agree in what is promised of each. -/
theorem Agree.of_meets {D₁ D₂ : α → Parser → Prop} (h₁ : o.Meets D₁ (fun _ => False) True)
    (h₂ : o'.Meets D₂ (fun _ => False) True) (h : ∀ a q b r, D₁ a q → D₂ b r → D a q b r) :
    o.Agree D F o' := by
  cases o with
  | done a q =>
      cases o' with
      | done b r => exact .done (h a q b r h₁ h₂)
      | failed r => exact h₂.elim
      | exhausted => exact .cutBeside _
  | failed q => exact h₁.elim
  | exhausted => exact .cut _

/-- A run that agrees with itself, state by state, is as promised of these states. -/
theorem Agree.meets_of_self {I G : Parser → Prop} {V : α → α → Prop}
    (h : o.Agree (fun a q b r => V a b ∧ q = r ∧ I q) (fun q r => q = r ∧ G q) o) :
    o.Meets (fun _ => I) G True := by
  cases o with
  | done a q => cases h with | done h => exact h.2.2
  | failed q => cases h with | failed h => exact h.2
  | exhausted => trivial

end Outcome

namespace Parse

/-! ## Procedures side by side -/

variable {E : β → Parser → β → Parser → Prop}
  {F : Parser → Parser → Prop} {p p' : Parser}

@[simp]
theorem current_bind {f : Token → Parse β} : (current >>= f) p = f p.current p := rfl

@[simp]
theorem get_bind {g : Parser → α} {f : α → Parse β} : (get g >>= f) p = f (g p) p := rfl

@[simp]
theorem peek_bind {f : Token → Parse β} : (peek >>= f) p = f p.peek p := rfl

@[simp]
theorem advance_bind {f : Unit → Parse β} : (advance >>= f) p = f () p.advance := rfl

/-- Two sequences agree when their second parts do wherever the first parts end. -/
theorem agree_bind {m m' : Parse α} {f f' : α → Parse β}
    (h : (m p).Agree (fun a q b r => (f a q).Agree E F (f' b r)) F (m' p')) :
    ((m >>= f) p).Agree E F ((m' >>= f') p') := by
  rw [bind_apply, bind_apply]
  generalize m p = o, m' p' = o' at h
  cases h with
  | done h => exact h
  | failed h => exact .failed h
  | cut => exact .cut _
  | cutBeside => exact .cutBeside _

theorem agree_map {m m' : Parse α} {f f' : α → β}
    (h : (m p).Agree (fun a q b r => E (f a) q (f' b) r) F (m' p')) :
    ((f <$> m) p).Agree E F ((f' <$> m') p') := by
  rw [map_apply, map_apply]
  generalize m p = o, m' p' = o' at h
  cases h with
  | done h => exact .done h
  | failed h => exact .failed h
  | cut => exact .cut _
  | cutBeside => exact .cutBeside _

theorem agree_attempt {m m' : Parse α} {D : Option α → Parser → Option α → Parser → Prop}
    (h : (m p).Agree (fun a q b r => D (some a) q (some b) r) (fun q r => D none q none r)
      (m' p')) :
    (attempt m p).Agree D F (attempt m' p') := by
  unfold attempt
  generalize m p = o, m' p' = o' at h
  cases h with
  | done h => exact .done h
  | failed h => exact .done h
  | cut => exact .cut _
  | cutBeside => exact .cutBeside _

theorem agree_logged {m m' : Parse α} {D : α → Parser → α → Parser → Prop}
    {entry : Parser → Parser → α → Visit}
    (h : (m { p with visits := [] }).Agree
      (fun a q b r => D a { q with visits := entry p q a :: p.visits } b
        { r with visits := entry p' r b :: p'.visits })
      (fun q r => F { q with visits := q.visits ++ p.visits }
        { r with visits := r.visits ++ p'.visits }) (m' { p' with visits := [] })) :
    (logged entry m p).Agree D F (logged entry m' p') := by
  unfold logged
  generalize m { p with visits := [] } = o, m' { p' with visits := [] } = o' at h
  cases h with
  | done h => exact .done h
  | failed h => exact .failed h
  | cut => exact .cut _
  | cutBeside => exact .cutBeside _

/-- Two procedures that lead from states related one way to values and states
related another way. -/
def Pairs (P : Parser → Parser → Prop) (V : α → α → Prop) (Q F : Parser → Parser → Prop)
    (m m' : Parse α) : Prop :=
  ∀ p p', P p p' → (m p).Agree (fun a q b r => V a b ∧ Q q r) F (m' p')

variable {P Q R : Parser → Parser → Prop} {V : α → α → Prop} {W : β → β → Prop}

theorem Pairs.bind {m m' : Parse α} {f f' : α → Parse β} (hm : Pairs P V Q F m m')
    (hf : ∀ a b, V a b → Pairs Q W R F (f a) (f' b)) : Pairs P W R F (m >>= f) (m' >>= f') :=
  fun p p' hp => agree_bind ((hm p p' hp).imp (fun a q b r h => hf a b h.1 q r h.2) fun _ _ => id)

theorem Pairs.map {m m' : Parse α} {f f' : α → β} (hm : Pairs P V Q F m m')
    (hf : ∀ a b, V a b → W (f a) (f' b)) : Pairs P W Q F (f <$> m) (f' <$> m') :=
  fun p p' hp => agree_map ((hm p p' hp).imp (fun a _ b _ h => ⟨hf a b h.1, h.2⟩) fun _ _ => id)

theorem pairs_pure {a b : α} (h : V a b) : Pairs P V P F (pure a) (pure b) :=
  fun _ _ hp => .done ⟨h, hp⟩

/-- A repetition is a first round and, if that gave a value, a repetition from there. -/
theorem iterate_succ_eq_bind (step : α → Parse (Option α)) (bound : Nat) (a : α) :
    iterate step (bound + 1) a =
      step a >>= fun next => next.elim (pure a) (iterate step bound) := by
  funext p
  rw [iterate, bind_apply]
  cases step a p with
  | done next q => cases next <;> rfl
  | failed q => rfl
  | exhausted => rfl

/-- Many items are a first item and, if it is there, many items behind it. -/
theorem many_succ_eq_bind (item : Parse (Option α)) (bound : Nat) :
    many item (bound + 1) =
      item >>= fun next => next.elim (pure []) fun a => List.cons a <$> many item bound := by
  funext p
  rw [many_succ, bind_apply]
  cases item p with
  | done next q => cases next <;> rfl
  | failed q => rfl
  | exhausted => rfl

/-- Repetitions go together when their rounds do, whatever their bounds. -/
theorem pairs_iterate {step step' : α → Parse (Option α)}
    (hstep : ∀ a b, V a b → Pairs P (Option.Rel V) P F (step a) (step' b)) (bound bound' : Nat)
    {a b : α} (hab : V a b) : Pairs P V P F (iterate step bound a) (iterate step' bound' b) := by
  induction bound generalizing bound' a b with
  | zero => exact fun _ _ _ => .cut _
  | succ bound ih =>
      cases bound' with
      | zero => exact fun _ _ _ => .cutBeside _
      | succ bound' =>
          rw [iterate_succ_eq_bind, iterate_succ_eq_bind]
          refine (hstep a b hab).bind fun next next' hnext => ?_
          cases hnext with
          | none => exact pairs_pure hab
          | some h => exact ih bound' h

/-- How two items go together: both are there and the states behind them are as
they were in front, or neither is and the states are as at the end. -/
def NextItem (P Q : Parser → Parser → Prop) (V : α → α → Prop) :
    Option α → Parser → Option α → Parser → Prop
  | some a, q, some b, r => V a b ∧ P q r
  | none, q, none, r => Q q r
  | _, _, _, _ => False

/-- Items go together when each two of them do, whatever the bounds. -/
theorem pairs_many {item item' : Parse (Option α)}
    (hitem : ∀ p p', P p p' → (item p).Agree (NextItem P Q V) F (item' p')) (bound bound' : Nat) :
    Pairs P (List.Forall₂ V) Q F (many item bound) (many item' bound') := by
  induction bound generalizing bound' with
  | zero => exact fun _ _ _ => .cut _
  | succ bound ih =>
      cases bound' with
      | zero => exact fun _ _ _ => .cutBeside _
      | succ bound' =>
          rw [many_succ_eq_bind, many_succ_eq_bind]
          refine fun p p' hp => agree_bind ((hitem p p' hp).imp (fun next q next' r h => ?_)
            fun _ _ => id)
          cases next with
          | none =>
              cases next' with
              | none => exact .done ⟨.nil, h⟩
              | some b => exact h.elim
          | some a =>
              cases next' with
              | none => exact h.elim
              | some b => exact agree_map ((ih bound' q r h.2).imp
                  (fun as _ bs _ hrest => ⟨.cons h.1 hrest.1, hrest.2⟩) fun _ _ => id)

/-- Items that are there or not side by side go together. -/
theorem pairs_many_of_rel {item item' : Parse (Option α)}
    (hitem : Pairs P (Option.Rel V) P F item item') (bound bound' : Nat) :
    Pairs P (List.Forall₂ V) P F (many item bound) (many item' bound') :=
  pairs_many (fun p p' hp => (hitem p p' hp).imp (fun next q next' r h => by
    obtain ⟨hnext, hq⟩ := h
    cases hnext with
    | none => exact hq
    | some h => exact ⟨h, hq⟩) fun _ _ => id) bound bound'

/-- Items that are left out on both sides leave the others side by side. -/
theorem forall₂_filterMap {items items' : List (Option α)}
    (h : List.Forall₂ (Option.Rel V) items items') :
    List.Forall₂ V (items.filterMap id) (items'.filterMap id) := by
  induction h with
  | nil => exact .nil
  | cons hitem _ ih =>
      cases hitem with
      | some hs => exact .cons hs ih
      | none => exact ih

theorem Pairs.bounded {repetition repetition' : Nat → Parse α}
    (h : ∀ bound bound', Pairs P V Q F (repetition bound) (repetition' bound')) :
    Pairs P V Q F (bounded repetition) (bounded repetition') :=
  fun p p' hp => h _ _ p p' hp

end Parse

/-! ## Runs side by side -/

/-- Kinds that the rules treat alike: one and the same, or two at which blocks end. -/
def Token.Kind.Alike (k l : Token.Kind) : Prop :=
  k = l ∨ (Rule.endsBlock k ∧ Rule.endsBlock l)

section Kinds

variable {γ : Type} {k l m : Token.Kind}

/-- What is the same at the two kinds at which blocks end is the same at kinds that
are alike. -/
theorem Token.Kind.Alike.congr (h : k.Alike l) (g : Token.Kind → γ)
    (hg : g .closeCurly = g .eof) : g k = g l := by
  rcases h with rfl | ⟨hk, hl⟩
  · rfl
  · simp only [Rule.endsBlock, Bool.or_eq_true, decide_eq_true_eq] at hk hl
    rcases hk with rfl | rfl <;> rcases hl with rfl | rfl <;> simp [hg]

theorem Token.Kind.Alike.eq_iff (h : k.Alike l) (hm : Rule.endsBlock m = false) :
    k = m ↔ l = m := by
  have hdecide := h.congr (fun j => decide (j = m)) (by cases m <;> first | rfl | cases hm)
  simpa using hdecide

theorem Token.Kind.Alike.eq (h : k.Alike l) (hk : Rule.endsBlock k = false) : k = l :=
  ((h.eq_iff hk).mp rfl).symm

theorem Token.Kind.Plain.endsBlock_eq_false (h : k.Plain) : Rule.endsBlock k = false := by
  simp [Rule.endsBlock, h.2.1, h.2.2.2]

/-- The same token is alike in kind, -/
theorem Token.alike_of_eq {t u : Token} (h : t = u) : t.kind.Alike u.kind :=
  .inl (congrArg Token.kind h)

/-- and in its text, whatever its kind. -/
theorem Token.text_of_eq {t u : Token} (h : t = u) (_ : Rule.endsBlock t.kind = false) :
    t.text = u.text :=
  congrArg Token.text h

end Kinds

/-- A way in which the states of two runs go together, at each point of a statement:
with the current token still to be taken (`before`), with it taken (`behind`), where
the statement is over (`ended`) and where it broke (`broken`).  The steps of the
rules lead from one to the other. -/
structure Parallel : Type where
  /-- Which tokens stand for each other. -/
  alike : Token → Token → Prop
  /-- The opening braces behind which the blocks are not compared. -/
  free : Token → Prop
  before : Parser → Parser → Prop
  behind : Parser → Parser → Prop
  ended : Parser → Parser → Prop
  broken : Parser → Parser → Prop
  kind : ∀ {t u : Token}, alike t u → t.kind.Alike u.kind
  text : ∀ {t u : Token}, alike t u → Rule.endsBlock t.kind = false → t.text = u.text
  regular : ∀ {p p' : Parser}, before p p' → p.Regular ∧ p'.Regular
  regular_behind : ∀ {p p' : Parser}, behind p p' → p.Regular ∧ p'.Regular
  current : ∀ {p p' : Parser}, before p p' → alike p.current p'.current
  take : ∀ {p p' : Parser}, before p p' → p.current.kind.Plain → behind p p'
  advance : ∀ {p p' : Parser}, behind p p' → before p.advance p'.advance
  refuse : ∀ {p p' : Parser} (cause : Token.Kind → String → SyntaxError.Cause), before p p' →
    broken (p.report ⟨cause p.current.kind p.current.text, p.current.start⟩)
      (p'.report ⟨cause p'.current.kind p'.current.text, p'.current.start⟩)
  refuse_next : ∀ {p p' : Parser} (cause : Token.Kind → String → SyntaxError.Cause),
    behind p p' → broken (p.report ⟨cause p.peek.kind p.peek.text, p.peek.start⟩)
      (p'.report ⟨cause p'.peek.kind p'.peek.text, p'.peek.start⟩)
  ended_of_behind : ∀ {p p' : Parser}, behind p p' → ended p p'
  ended_of_semicolon : ∀ {p p' : Parser}, behind p p' → p.peek.kind = .semicolon →
    ended p.advance p'.advance

/-- Nested constructs go together in two runs: they start side by side, and end
side by side behind their last token. -/
structure Nested.Together (w : Parallel) (nested nested' : Nested) : Prop where
  expr : ∀ floor, Parse.Pairs w.before (Expr.Alike w.alike w.free) w.behind w.broken
    (nested.expr floor) (nested'.expr floor)
  block : ∀ {p p' : Parser}, w.before p p' → p.current.kind = .openCurly →
    (nested.block p).Agree (fun b q c r => b.Alike w.alike w.free c ∧ w.behind q r) w.broken
      (nested'.block p')

open Parse

variable {w : Parallel} {p p' : Parser} {nested nested' : Nested}

namespace Parallel

theorem peek (w : Parallel) (h : w.behind p p') : w.alike p.peek p'.peek :=
  w.current (w.advance h)

theorem leadingForm?_eq (h : w.before p p') : p.leadingForm? = p'.leadingForm? := by
  obtain ⟨hp, hp'⟩ := w.regular h
  rw [Parser.leadingForm?, Parser.leadingForm?, hp.forms, hp'.forms]
  exact (w.kind (w.current h)).congr _ rfl

theorem statementForm_eq (h : w.before p p') : p.statementForm = p'.statementForm := by
  obtain ⟨hp, hp'⟩ := w.regular h
  rw [Parser.statementForm, Parser.statementForm, hp.forms, hp'.forms]
  exact (w.kind (w.current h)).congr (fun k => (Forms.standard.statement k).getD _) rfl

theorem continuation?_eq (h : w.behind p p') (floor : Precedence) :
    Rule.continuation? floor p = Rule.continuation? floor p' := by
  obtain ⟨hp, hp'⟩ := w.regular_behind h
  rw [hp.continuation?_eq, hp'.continuation?_eq]
  exact (w.kind (w.peek h)).congr
    (fun k => if floor < k.strength then Forms.standard.trailing k else none) rfl

/-- Procedures that lead from taken tokens to taken tokens, side by side. -/
def Takes (w : Parallel) (V : α → α → Prop) (m m' : Parse α) : Prop :=
  Pairs w.behind V w.behind w.broken m m'

variable {V : α → α → Prop} {W : β → β → Prop}

theorem Takes.bind {m m' : Parse α} {f f' : α → Parse β} (hm : w.Takes V m m')
    (hf : ∀ a b, V a b → w.Takes W (f a) (f' b)) : w.Takes W (m >>= f) (m' >>= f') :=
  Pairs.bind hm hf

theorem Takes.map {m m' : Parse α} {f f' : α → β} (hm : w.Takes V m m')
    (hf : ∀ a b, V a b → W (f a) (f' b)) : w.Takes W (f <$> m) (f' <$> m') :=
  Pairs.map hm hf

theorem takes_pure {a b : α} (h : V a b) : w.Takes V (pure a) (pure b) :=
  pairs_pure h

/-- A token is expected on both sides, and is there on both or on none. -/
theorem agree_expect {kind : Token.Kind} (hkind : Rule.endsBlock kind = false)
    (h : w.behind p p') :
    (expect kind p).Agree
      (fun t q u r => (w.alike t u ∧ t.kind = kind) ∧ p.peek.kind = kind ∧ q = p.advance ∧
        r = p'.advance) w.broken (expect kind p') := by
  have hpeek := w.peek h
  by_cases hp : p.peek.kind = kind
  · have hp' := ((w.kind hpeek).eq_iff hkind).mp hp
    rw [expect_of_kind_eq hp, expect_of_kind_eq hp']
    exact .done ⟨⟨hpeek, hp⟩, hp, rfl, rfl⟩
  · have hp' := fun hp' => hp (((w.kind hpeek).eq_iff hkind).mpr hp')
    rw [expect_of_kind_ne hp, expect_of_kind_ne hp']
    exact .failed (w.refuse_next (fun found _ => .unexpected kind found) h)

/-- A plain token that is expected is taken. -/
theorem takes_expect {kind : Token.Kind} (hkind : kind.Plain) :
    w.Takes (fun t u => w.alike t u ∧ t.kind = kind) (expect kind) (expect kind) := by
  intro p p' h
  refine (agree_expect hkind.endsBlock_eq_false h).imp ?_ fun _ _ => id
  rintro t q u r ⟨htu, hpeek, rfl, rfl⟩
  exact ⟨htu, w.take (w.advance h) (by rwa [Parser.current_advance, hpeek])⟩

/-- An expression behind the current token is taken. -/
theorem pairs_advance_expr (hn : nested.Together w nested') (floor : Precedence)
    {Q : Parser → Parser → Prop} {f f' : Expr → Parse α}
    (hf : ∀ x y, x.Alike w.alike w.free y → Pairs w.behind V Q w.broken (f x) (f' y)) :
    Pairs w.behind V Q w.broken (Parse.advance >>= fun _ => nested.expr floor >>= f)
      (Parse.advance >>= fun _ => nested'.expr floor >>= f') := fun p p' h => by
  rw [advance_bind, advance_bind]
  exact (hn.expr floor).bind hf _ _ (w.advance h)

/-- A part of a rule that depends on the next token, which it takes if it is of a
plain kind. -/
theorem takes_peek_ite {kind : Token.Kind} (hkind : kind.Plain) {m m' r r' : Parse α}
    (hm : w.Takes V m m') (hr : w.Takes V r r') :
    w.Takes V (Parse.peek >>= fun t => if t.kind = kind then Parse.advance >>= fun _ => m else r)
      (Parse.peek >>= fun t => if t.kind = kind then Parse.advance >>= fun _ => m' else r') := by
  intro p p' h
  rw [peek_bind, peek_bind]
  have hiff := (w.kind (w.peek h)).eq_iff hkind.endsBlock_eq_false
  by_cases hp : p.peek.kind = kind
  · rw [if_pos hp, if_pos (hiff.mp hp), advance_bind, advance_bind]
    exact hm _ _ (w.take (w.advance h) (by rwa [Parser.current_advance, hp]))
  · rw [if_neg hp, if_neg fun hp' => hp (hiff.mpr hp')]
    exact hr p p' h

end Parallel

/-! ## Expressions -/

namespace Nested.Together

open Rule Parallel

theorem bracedBlock (hn : nested.Together w nested') :
    w.Takes (Block.Alike w.alike w.free) (bracedBlock nested) (bracedBlock nested') := by
  intro p p' h
  refine agree_bind ((agree_expect rfl h).imp ?_ fun _ _ => id)
  rintro t q u r ⟨-, hpeek, rfl, rfl⟩
  exact hn.block (w.advance h) hpeek

theorem alternative (hn : nested.Together w nested') :
    w.Takes (Option.Rel (Block.Alike w.alike w.free)) (alternative nested)
      (alternative nested') :=
  takes_peek_ite (by decide) (hn.bracedBlock.map fun _ _ => .some) (takes_pure .none)

theorem conditional (hn : nested.Together w nested') (htoken : w.alike p.current p'.current)
    (h : w.behind p p') :
    (conditional nested p).Agree (fun x q y r => x.Alike w.alike w.free y ∧ w.behind q r) w.broken
      (conditional nested' p') := by
  rw [Rule.conditional, Rule.conditional, current_bind, current_bind]
  exact (takes_expect (by decide)).bind (fun _ _ _ => pairs_advance_expr hn _ fun _ _ hx =>
    (takes_expect (by decide)).bind fun _ _ _ => hn.bracedBlock.bind fun _ _ hb =>
      hn.alternative.bind fun _ _ hc => takes_pure (.conditional htoken hx hb hc)) p p' h

theorem parameter : w.Takes (Identifier.Alike w.alike) parameter parameter :=
  (takes_expect (by decide)).bind fun t u ht =>
    takes_pure ⟨ht.1, w.text ht.1 (by rw [ht.2]; rfl)⟩

theorem parameters : w.Takes (List.Forall₂ (Identifier.Alike w.alike)) parameters parameters :=
  takes_peek_ite (by decide) (takes_pure .nil) (parameter.bind fun _ _ hname =>
    Takes.bind (Pairs.bounded (pairs_many_of_rel
      (takes_peek_ite (by decide) (parameter.map fun _ _ => .some) (takes_pure .none))))
      fun _ _ hnames => (takes_expect (by decide)).bind fun _ _ _ =>
        takes_pure (.cons hname hnames))

theorem function (hn : nested.Together w nested') (htoken : w.alike p.current p'.current)
    (h : w.behind p p') :
    (function nested p).Agree (fun x q y r => x.Alike w.alike w.free y ∧ w.behind q r) w.broken
      (function nested' p') := by
  rw [Rule.function, Rule.function, current_bind, current_bind]
  exact (takes_expect (by decide)).bind (fun _ _ _ => parameters.bind fun _ _ hnames =>
    hn.bracedBlock.bind fun _ _ hb => takes_pure (.function htoken hnames hb)) p p' h

theorem furtherArgument (hn : nested.Together w nested') :
    w.Takes (Option.Rel (Expr.Alike w.alike w.free)) (furtherArgument nested)
      (furtherArgument nested') := by
  have hexpr : w.Takes (Option.Rel (Expr.Alike w.alike w.free))
      (Parse.advance >>= fun _ => nested.expr .lowest >>= fun x => pure (some x))
      (Parse.advance >>= fun _ => nested'.expr .lowest >>= fun x => pure (some x)) :=
    pairs_advance_expr hn _ fun _ _ hx => takes_pure (.some hx)
  exact takes_peek_ite (by decide) hexpr (takes_pure .none)

theorem arguments (hn : nested.Together w nested') :
    w.Takes (List.Forall₂ (Expr.Alike w.alike w.free)) (arguments nested) (arguments nested') :=
  takes_peek_ite (by decide) (takes_pure .nil) (pairs_advance_expr hn _ fun _ _ hx =>
    Takes.bind (Pairs.bounded (pairs_many_of_rel hn.furtherArgument)) fun _ _ hxs =>
      (takes_expect (by decide)).bind fun _ _ _ => takes_pure (.cons hx hxs))

theorem leading (hn : nested.Together w nested') {form : LeadingForm} (h : w.before p p')
    (hform : p.current.kind ∈ form.kinds) :
    (leading form nested p).Agree (fun x q y r => x.Alike w.alike w.free y ∧ w.behind q r) w.broken
      (leading form nested' p') := by
  have hplain := LeadingForm.plain_of_mem_kinds hform
  have htoken := w.current h
  have hkind := (w.kind htoken).eq hplain.endsBlock_eq_false
  have htext := w.text htoken hplain.endsBlock_eq_false
  have hbehind := w.take h hplain
  cases form with
  | identifier => exact .done ⟨.identifier ⟨htoken, htext⟩, hbehind⟩
  | integer =>
      rw [Rule.leading, Rule.integer, Rule.integer, current_bind, current_bind, ← htext]
      cases Text.integer? p.current.text with
      | none =>
          have hrefuse := w.refuse (fun _ text => .badInteger text) h
          rw [← htext] at hrefuse
          exact .failed hrefuse
      | some value => exact .done ⟨.integer value htoken, hbehind⟩
  | boolean =>
      rw [Rule.leading, Rule.boolean, Rule.boolean, current_bind, current_bind, ← hkind]
      exact .done ⟨.boolean _ htoken, hbehind⟩
  | unary =>
      rw [Rule.leading, Rule.unary, Rule.unary, current_bind, current_bind, ← htext]
      exact pairs_advance_expr hn _ (fun _ _ hx => takes_pure (.unary _ htoken hx)) p p' hbehind
  | grouping =>
      exact pairs_advance_expr hn _ (fun _ _ hx => (takes_expect (by decide)).bind fun _ _ _ =>
        takes_pure hx) p p' hbehind
  | conditional => exact hn.conditional htoken hbehind
  | function => exact hn.function htoken hbehind

theorem operand (hn : nested.Together w nested') :
    Pairs w.before (Expr.Alike w.alike w.free) w.behind w.broken (operand nested)
      (operand nested') := by
  intro p p' h
  rw [Rule.operand, Rule.operand, current_bind, current_bind, get_bind, get_bind,
    ← leadingForm?_eq h]
  cases hform : p.leadingForm? with
  | none => exact .failed (w.refuse (fun kind _ => .noExpression kind) h)
  | some form =>
      rw [Parser.leadingForm?, (w.regular h).1.forms, Forms.leading_eq_some_iff] at hform
      exact hn.leading h hform

theorem trailing (hn : nested.Together w nested') (form : TrailingForm) {x y : Expr}
    (hxy : x.Alike w.alike w.free y) (h : w.before p p') (hplain : p.current.kind.Plain) :
    (trailing form x nested p).Agree (fun x q y r => x.Alike w.alike w.free y ∧ w.behind q r)
      w.broken (trailing form y nested' p') := by
  have htoken := w.current h
  have htext := w.text htoken hplain.endsBlock_eq_false
  have hbehind := w.take h hplain
  cases form with
  | binary =>
      have hfloor : p.current.precedence = p'.current.precedence := by
        rw [Token.precedence, Token.precedence, htext]
      rw [Rule.trailing, Rule.binary, Rule.binary, current_bind, current_bind,
        ← htext, ← hfloor]
      exact pairs_advance_expr hn _ (fun _ _ hr => takes_pure (.binary _ htoken hxy hr)) p p'
        hbehind
  | call =>
      rw [Rule.trailing, Rule.call, Rule.call, current_bind, current_bind]
      exact hn.arguments.bind (fun _ _ hxs => takes_pure (.call htoken hxy hxs)) p p' hbehind

theorem continue? (hn : nested.Together w nested') (floor : Precedence) {x y : Expr}
    (hxy : x.Alike w.alike w.free y) :
    w.Takes (Option.Rel (Expr.Alike w.alike w.free)) (continue? floor x nested)
      (continue? floor y nested') := by
  intro p p' h
  rw [Rule.continue?, Rule.continue?, get_bind, get_bind, ← continuation?_eq h]
  cases hform : continuation? floor p with
  | none => exact .done ⟨.none, h⟩
  | some form =>
      rw [(w.regular_behind h).1.continuation?_eq, Option.ite_none_right_eq_some] at hform
      have hplain := Forms.plain_of_trailing hform.2
      exact agree_map ((hn.trailing form hxy (w.advance h) hplain).imp
        (fun _ _ _ _ hr => ⟨.some hr.1, hr.2⟩) fun _ _ => id)

/-- **Expressions go together** when what is nested in them does. -/
theorem expression (hn : nested.Together w nested') (floor : Precedence) :
    Pairs w.before (Expr.Alike w.alike w.free) w.behind w.broken (expression floor nested)
      (expression floor nested') :=
  hn.operand.bind fun _ _ hxy => Pairs.bounded fun bound bound' =>
    pairs_iterate (fun _ _ h => hn.continue? floor h) bound bound' hxy

/-! ## Statements -/

theorem optional_semicolon :
    Pairs w.behind (fun _ _ => True) w.ended w.broken (optional .semicolon)
      (optional .semicolon) := by
  intro p p' h
  have hiff := (w.kind (w.peek h)).eq_iff (m := .semicolon) rfl
  unfold Parse.optional
  rw [peek_bind, peek_bind]
  by_cases hp : p.peek.kind = .semicolon
  · rw [if_pos hp, if_pos (hiff.mp hp)]
    exact .done ⟨trivial, w.ended_of_semicolon h hp⟩
  · rw [if_neg hp, if_neg fun hp' => hp (hiff.mpr hp')]
    exact .done ⟨trivial, w.ended_of_behind h⟩

theorem returnedValue (hn : nested.Together w nested') :
    w.Takes (Option.Rel (Expr.Alike w.alike w.free)) (returnedValue nested)
      (returnedValue nested') := by
  intro p p' h
  rw [Rule.returnedValue, Rule.returnedValue, peek_bind, peek_bind,
    ← (w.kind (w.peek h)).congr endsReturn rfl]
  split
  · exact .done ⟨.none, h⟩
  · exact pairs_advance_expr hn _ (fun _ _ hx => takes_pure (.some hx)) p p' h

/-- **Statements go together** when what is nested in them does. -/
theorem statementForm (hn : nested.Together w nested') (h : w.before p p') :
    (statementForm p.statementForm nested p).Agree
      (fun s q r q' => s.Alike w.alike w.free r ∧ w.ended q q') w.broken
      (statementForm p'.statementForm nested' p') := by
  have htoken := w.current h
  rw [← statementForm_eq h]
  cases hform : p.statementForm with
  | binding =>
      have hkind := (w.regular h).1.statementForm_eq_binding_iff.mp hform
      have hbehind := w.take h (by rw [hkind]; decide)
      rw [Rule.statementForm, Rule.binding, Rule.binding, current_bind, current_bind]
      exact Pairs.bind (takes_expect (by decide)) (fun t u ht =>
        Pairs.bind (takes_expect (by decide)) fun _ _ _ => pairs_advance_expr hn _ fun _ _ hx =>
          optional_semicolon.bind fun _ _ _ => pairs_pure (.binding htoken
            ⟨ht.1, w.text ht.1 (by rw [ht.2]; rfl)⟩ hx)) p p' hbehind
  | ret =>
      have hkind := (w.regular h).1.statementForm_eq_ret_iff.mp hform
      have hbehind := w.take h (by rw [hkind]; decide)
      rw [Rule.statementForm, Rule.ret, Rule.ret, current_bind, current_bind]
      exact Pairs.bind hn.returnedValue (fun _ _ hx => optional_semicolon.bind fun _ _ _ =>
        pairs_pure (.ret htoken hx)) p p' hbehind
  | expression =>
      rw [Rule.statementForm, Rule.expressionStatement, Rule.expressionStatement, current_bind,
        current_bind]
      exact (hn.expr _).bind (fun _ _ hx => optional_semicolon.bind fun _ _ _ =>
        pairs_pure (.expression htoken hx)) p p' h

end Nested.Together

end ExprLang
