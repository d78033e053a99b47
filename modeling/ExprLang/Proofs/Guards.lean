/-
# Guards of conditionals

Behind the keyword of a conditional stands an expression between parentheses,
and behind these a block.  So much is true of every derivation; it is carried
through derivations as a property of the tokens between two places (`Guards`).
For a rendered tree it means that every condition is an operation: a condition
that starts with no parenthesis has none to offer, and one that is called has
an argument where the block should be.  Main statement:
`Program.ifsGuarded_of_errors_eq_nil`.
-/
import ExprLang.Proofs.Acceptance
import ExprLang.Proofs.Rederivation

namespace ExprLang

/-! ## What stands behind the keyword -/

/-- What has to stand behind the keyword of a conditional. -/
inductive Guard : List Token → Prop where
  | mk {opening closing brace : Token} {e : Expr} {ts rest : List Token}
      (hopening : opening.kind = .openParen) (hclosing : closing.kind = .closeParen)
      (hbrace : brace.kind = .openCurly)
      (hcondition : Derives (.expr .equality e) ts (closing :: brace :: rest)) :
      Guard (opening :: ts)

/-- Behind every keyword of a conditional among the tokens `ts` in front of
`rest` stands what has to stand there. -/
def Guards (ts rest : List Token) : Prop :=
  ∀ t us, (t :: us) <:+ ts → ¬ (t :: us) <:+ rest → t.kind = .kwIf → Guard us

namespace Guards

variable {t : Token} {ts us rest : List Token}

theorem refl (ts : List Token) : Guards ts ts := by
  intro t us hsuffix hnot _
  exact absurd hsuffix hnot

/-- From one place to a second one, and from there to a third one. -/
theorem trans (h : Guards ts us) (h' : Guards us rest) : Guards ts rest := by
  intro t vs hsuffix hnot ht
  by_cases hmid : (t :: vs) <:+ us
  · exact h' t vs hmid hnot ht
  · exact h t vs hsuffix hmid ht

/-- A further token asks for what stands behind it, if it is such a keyword. -/
theorem cons (ht : t.kind = .kwIf → Guard ts) (h : Guards ts rest) : Guards (t :: ts) rest := by
  intro u vs hsuffix hnot hu
  rcases List.suffix_cons_iff.mp hsuffix with heq | hsuffix
  · obtain ⟨rfl, rfl⟩ := List.cons.inj heq
    exact ht hu
  · exact h u vs hsuffix hnot hu

/-- A further token of another kind asks for nothing. -/
theorem skip {k : Token.Kind} (ht : t.kind = k) (h : Guards ts rest) (hk : k ≠ .kwIf := by nofun) :
    Guards (t :: ts) rest :=
  h.cons fun hif => absurd (ht.symm.trans hif) hk

theorem of_furtherParameters {names : List Identifier} (h : FurtherParameters names ts rest) :
    Guards ts rest := by
  induction h with
  | nil hclosing => exact (refl _).skip hclosing
  | cons hcomma hname _ ih => exact (ih.skip hname).skip hcomma

theorem of_parameters {names : List Identifier} (h : Parameters names ts rest) :
    Guards ts rest := by
  cases h with
  | nil hclosing => exact (refl _).skip hclosing
  | cons hname hnames => exact (of_furtherParameters hnames).skip hname

theorem of_terminated (h : Terminated ts rest) : Guards ts rest := by
  cases h with
  | semicolon ht => exact (refl _).skip ht
  | bare => exact refl _

theorem of_closed (h : Closed ts rest) : Guards ts rest := by
  cases h with
  | brace ht => exact (refl _).skip ht
  | input => exact refl _

/-- **In what is derived every conditional has its guard.** -/
theorem of_derives {φ : Phrase} (h : Derives φ ts rest) : Guards ts rest := by
  induction h with
  | identifier ht => exact (refl _).skip ht
  | integer ht _ => exact (refl _).skip ht
  | boolean ht =>
      rcases ht with ht | ht
      · exact (refl _).skip ht
      · exact (refl _).skip ht
  | grouping hopening hclosing _ ih =>
      exact (ih.trans ((refl _).skip hclosing)).skip hopening
  | conditional ht hopening hclosing hcondition hconsequence _ ih ih' ih'' =>
      have hrest := (ih.trans (((ih'.trans ih'')).skip hclosing)).skip hopening
      apply hrest.cons
      intro _
      cases hconsequence with
      | block hbrace => exact .mk hopening hclosing hbrace hcondition
  | function ht hopening hnames _ ih =>
      exact (((of_parameters hnames).trans ih).skip hopening).skip ht
  | call hopening _ _ ih ih' => exact ih.trans (ih'.skip hopening)
  | applied _ ih => exact ih
  | unary ht _ ih =>
      rcases ht with ht | ht
      · exact ih.skip ht
      · exact ih.skip ht
  | operand _ _ ih => exact ih
  | binary hbinary _ _ ih ih' =>
      refine ih.trans (ih'.cons fun hif => ?_)
      rw [hif] at hbinary
      exact absurd hbinary (by decide)
  | noArguments hclosing => exact (refl _).skip hclosing
  | arguments _ _ ih ih' => exact ih.trans ih'
  | noFurtherArguments hclosing => exact (refl _).skip hclosing
  | furtherArguments hcomma _ _ ih ih' => exact (ih.trans ih').skip hcomma
  | noAlternative => exact refl _
  | alternative ht _ ih => exact ih.skip ht
  | binding ht hname hassign _ hend ih =>
      exact (((ih.trans (of_terminated hend)).skip hassign).skip hname).skip ht
  | ret ht _ hend ih => exact (ih.trans (of_terminated hend)).skip ht
  | bareRet ht _ hend => exact (of_terminated hend).skip ht
  | expression _ hend ih => exact ih.trans (of_terminated hend)
  | noStatements => exact refl _
  | statements _ _ ih ih' => exact ih.trans ih'
  | block hopening _ hclosed ih => exact (ih.trans (of_closed hclosed)).skip hopening

end Guards

/-! ## One reading between parentheses -/

/-- **What stands in front of a closing parenthesis is derived in one way.**  It
is what the parser reads, and the parser reads one thing. -/
theorem Derives.unique_of_closeParen {p : Parser} (hp : p.Regular) {e e' : Expr}
    {closing closing' : Token} {rest rest' : List Token} (hclosing : closing.kind = .closeParen)
    (hclosing' : closing'.kind = .closeParen)
    (h : Derives (.expr .equality e) p.ahead (closing :: rest))
    (h' : Derives (.expr .equality e') p.ahead (closing' :: rest')) :
    e = e' ∧ closing :: rest = closing' :: rest' := by
  have hadmits : Precedence.Admits .lowest .equality := Precedence.admits_right nofun
  -- one run of the rule for expressions, under two promises
  have hread := h.read.nested_expr (n := p.ahead.length + 1) hp rfl hadmits
    (Phrase.Read.follows_of_closeParen hclosing)
  have hread' := h'.read.nested_expr (n := p.ahead.length + 1) hp rfl hadmits
    (Phrase.Read.follows_of_closeParen hclosing')
  have hends := (Nested.ends_level (p.ahead.length + 1)).expr .lowest p hp.steady
    (Nat.lt_succ_self _)
  cases hrun : (Nested.level (p.ahead.length + 1)).expr .lowest p with
  | done x q =>
      rw [hrun] at hread hread'
      obtain ⟨rfl, -, hq⟩ := hread
      obtain ⟨rfl, -, hq'⟩ := hread'
      exact ⟨rfl, hq.symm.trans hq'⟩
  | failed q =>
      rw [hrun] at hread
      exact hread.elim
  | exhausted =>
      rw [hrun] at hends
      exact hends.elim

/-- Tokens that a parser can be in front of and in which every conditional has its
guard. -/
structure Legible (ts : List Token) : Prop where
  regular : ∃ p : Parser, p.Regular ∧ p.ahead = ts
  guards : Guards ts []

namespace Legible

variable {t : Token} {ts us : List Token}

theorem tail (h : Legible (t :: ts)) : Legible ts := by
  obtain ⟨⟨p, hp, hts⟩, hguards⟩ := h
  refine ⟨⟨p.advance, hp.advance, by rw [Parser.ahead_advance, hts]; rfl⟩, ?_⟩
  intro u vs hsuffix
  exact hguards u vs (hsuffix.trans (List.suffix_cons t ts))

theorem behind (us : List Token) (h : Legible (us ++ ts)) : Legible ts := by
  induction us with
  | nil => exact h
  | cons u us ih => exact ih h.tail

/-- The guard of a conditional. -/
theorem guard (h : Legible (t :: ts)) (ht : t.kind = .kwIf) : Guard ts :=
  h.guards t ts List.suffix_rfl (by simp) ht

end Legible

/-! ## Guards of rendered conditionals -/

/-- **A condition that has a guard is an operation.** -/
theorem Expr.isOperation_of_guard {e : Expr} (he : e.All writable) (hg : e.All guarded)
    {ts rest : List Token} (hts : ts.map Token.lexeme = e.lexemes) (hlegible : Legible (ts ++ rest))
    (hguard : Guard (ts ++ rest)) : e.IsOperation := by
  -- it starts with a parenthesis, as no other first token is as strong as one
  have hopens : e.Opens := by
    obtain ⟨l, ls, hl, hkind⟩ := e.exists_lexemes_eq_cons
    rw [hl] at hts
    obtain ⟨t, us, rfl, rfl, -⟩ := List.map_eq_cons_iff.mp hts
    rcases hkind with ⟨hopens, -⟩ | ⟨-, -, hstrength⟩
    · exact hopens
    · cases hguard with
      | mk hopening =>
          have hcall : t.lexeme.kind.strength = .call := congrArg Token.Kind.strength hopening
          rw [hstrength] at hcall
          cases hcall
  cases (e.reading he hg hts).opening hopens with
  | operation hoperation => exact hoperation
  -- a call: its callee ends at a parenthesis too, and there the argument stands
  | @called opening closing argument inner more value _ _ hclosing hinner hargument =>
      cases hguard with
      | @mk _ closing' brace x _ rest' _ hclosing' hbrace hcondition =>
          -- the condition ends where it does when it is rendered: in front of an argument
          obtain ⟨p, hp, hahead⟩ := hlegible.tail.regular
          rw [← hahead] at hcondition
          have hinner' := hinner (closing :: argument :: (more ++ rest))
          have htokens : inner ++ closing :: argument :: (more ++ rest) = p.ahead := by
            rw [hahead]
            simp
          rw [htokens] at hinner'
          obtain ⟨-, hrest⟩ := Derives.unique_of_closeParen hp hclosing hclosing' hinner' hcondition
          obtain ⟨-, htail⟩ := List.cons.inj hrest
          obtain ⟨rfl, -⟩ := List.cons.inj htail
          rw [hargument] at hbrace
          cases hbrace

mutual

/-- **In a legible rendering every condition is an operation.** -/
theorem Expr.guarded_of_legible (e : Expr) (he : e.All writable) {ts rest : List Token}
    (hts : ts.map Token.lexeme = e.lexemes) (h : Legible (ts ++ rest)) : e.All guarded := by
  match e with
  | .identifier name => exact trivial
  | .integer token value => exact trivial
  | .boolean token value => exact trivial
  | .unary token operator operand =>
      obtain ⟨opening, us, rfl, -, hus⟩ := List.map_eq_cons_iff.mp hts
      obtain ⟨t, vs, rfl, -, hvs⟩ := List.map_eq_cons_iff.mp hus
      obtain ⟨xs, cs, rfl, hxs, -⟩ := List.map_eq_append_iff.mp hvs
      have hoperand : Legible (xs ++ (cs ++ rest)) :=
        Legible.behind [opening, t] (by simpa using h)
      exact ⟨trivial, operand.guarded_of_legible he.2 hxs hoperand⟩
  | .binary token operator left right =>
      obtain ⟨opening, us, rfl, -, hus⟩ := List.map_eq_cons_iff.mp hts
      obtain ⟨xs, vs, rfl, hxs, hvs⟩ := List.map_eq_append_iff.mp hus
      obtain ⟨t, ws, rfl, -, hws⟩ := List.map_eq_cons_iff.mp hvs
      obtain ⟨ys, cs, rfl, hys, -⟩ := List.map_eq_append_iff.mp hws
      have hleft : Legible (xs ++ t :: (ys ++ (cs ++ rest))) :=
        Legible.behind [opening] (by simpa using h)
      have hright : Legible (ys ++ (cs ++ rest)) := (hleft.behind xs).tail
      exact ⟨trivial, left.guarded_of_legible he.2.1 hxs hleft,
        right.guarded_of_legible he.2.2 hys hright⟩
  | .conditional token condition consequence alternative =>
      obtain ⟨-, hc, hb, ha⟩ := he
      obtain ⟨t, us, rfl, ht, hus⟩ := List.map_eq_cons_iff.mp hts
      obtain ⟨cs, vs, rfl, hcs, hvs⟩ := List.map_eq_append_iff.mp hus
      obtain ⟨bs, as, rfl, hbs, has⟩ := List.map_eq_append_iff.mp hvs
      have hcondition : Legible (cs ++ (bs ++ (as ++ rest))) := by
        simpa using Legible.tail h
      -- the keyword of the conditional is among the tokens, and so is its guard
      have hguard : Guard (cs ++ (bs ++ (as ++ rest))) := by
        simpa using Legible.guard h (Token.kind_of_lexeme ht)
      have hgc := condition.guarded_of_legible hc hcs hcondition
      have hblock := hcondition.behind cs
      refine ⟨Expr.isOperation_of_guard hc hgc hcs hcondition hguard, hgc,
        consequence.guarded_of_legible hb hbs hblock, ?_⟩
      exact Expr.guardedElse_of_legible alternative ha has (hblock.behind bs)
  | .function token parameters body =>
      obtain ⟨t, us, rfl, -, hus⟩ := List.map_eq_cons_iff.mp hts
      obtain ⟨opening, vs, rfl, -, hvs⟩ := List.map_eq_cons_iff.mp hus
      obtain ⟨ps, bs, rfl, -, hbs⟩ := List.map_eq_append_iff.mp hvs
      have hbody : Legible (bs ++ rest) :=
        Legible.behind (t :: opening :: ps) (by simpa using h)
      exact ⟨trivial, body.guarded_of_legible he.2 hbs hbody⟩
  | .call token callee arguments =>
      obtain ⟨cs, us, rfl, hcs, hus⟩ := List.map_eq_append_iff.mp hts
      obtain ⟨opening, as, rfl, -, has⟩ := List.map_eq_cons_iff.mp hus
      have hcallee : Legible (cs ++ opening :: (as ++ rest)) := by
        simpa using h
      exact ⟨trivial, callee.guarded_of_legible he.2.1 hcs hcallee,
        Expr.guardedArguments_of_legible arguments he.2.2 has (hcallee.behind cs).tail⟩
termination_by structural e

theorem Expr.guardedArguments_of_legible (xs : List Expr) (hxs : Expr.AllArguments writable xs)
    {ts rest : List Token} (hts : ts.map Token.lexeme = Expr.lexemesArguments xs)
    (h : Legible (ts ++ rest)) : Expr.AllArguments guarded xs := by
  match xs with
  | [] => exact trivial
  | x :: xs =>
      obtain ⟨us, vs, rfl, hus, hvs⟩ := List.map_eq_append_iff.mp hts
      rw [List.append_assoc] at h
      exact ⟨x.guarded_of_legible hxs.1 hus h,
        Expr.guardedFurther_of_legible xs hxs.2 hvs (h.behind us)⟩
termination_by structural xs

theorem Expr.guardedFurther_of_legible (xs : List Expr) (hxs : Expr.AllArguments writable xs)
    {ts rest : List Token} (hts : ts.map Token.lexeme = Expr.lexemesFurther xs)
    (h : Legible (ts ++ rest)) : Expr.AllArguments guarded xs := by
  match xs with
  | [] => exact trivial
  | x :: xs =>
      obtain ⟨comma, ws, rfl, -, hws⟩ := List.map_eq_cons_iff.mp hts
      obtain ⟨us, vs, rfl, hus, hvs⟩ := List.map_eq_append_iff.mp hws
      have hx : Legible (us ++ (vs ++ rest)) := by
        simpa using Legible.tail h
      exact ⟨x.guarded_of_legible hxs.1 hus hx,
        Expr.guardedFurther_of_legible xs hxs.2 hvs (hx.behind us)⟩
termination_by structural xs

theorem Expr.guardedElse_of_legible (b : Option Block) (hb : Expr.AllElse writable b)
    {ts rest : List Token} (hts : ts.map Token.lexeme = Expr.lexemesElse b)
    (h : Legible (ts ++ rest)) : Expr.AllElse guarded b := by
  match b with
  | none => exact trivial
  | some b =>
      obtain ⟨t, us, rfl, -, hus⟩ := List.map_eq_cons_iff.mp hts
      exact b.guarded_of_legible hb hus (Legible.tail h)
termination_by structural b

theorem Stmt.guarded_of_legible (s : Stmt) (hs : s.All writable) {ts rest : List Token}
    (hts : ts.map Token.lexeme = s.lexemes) (h : Legible (ts ++ rest)) : s.All guarded := by
  match s with
  | .binding token name value =>
      obtain ⟨t, ws, rfl, -, hws⟩ := List.map_eq_cons_iff.mp hts
      obtain ⟨n, xs, rfl, -, hxs⟩ := List.map_eq_cons_iff.mp hws
      obtain ⟨assign, ys, rfl, -, hys⟩ := List.map_eq_cons_iff.mp hxs
      obtain ⟨zs, cs, rfl, hzs, -⟩ := List.map_eq_append_iff.mp hys
      have hvalue : Legible (zs ++ (cs ++ rest)) :=
        Legible.behind [t, n, assign] (by simpa using h)
      exact ⟨trivial, value.guarded_of_legible hs.2 hzs hvalue⟩
  | .ret token value =>
      obtain ⟨t, ws, rfl, -, hws⟩ := List.map_eq_cons_iff.mp hts
      obtain ⟨zs, cs, rfl, hzs, -⟩ := List.map_eq_append_iff.mp hws
      have hvalue : Legible (zs ++ (cs ++ rest)) :=
        Legible.behind [t] (by simpa using h)
      exact ⟨trivial, Stmt.guardedValue_of_legible value hs.2 hzs hvalue⟩
  | .expression token value => exact ⟨trivial, value.guarded_of_legible hs.2 hts h⟩
termination_by structural s

theorem Stmt.guardedValue_of_legible (x : Option Expr) (hx : Stmt.AllValue writable x)
    {ts rest : List Token} (hts : ts.map Token.lexeme = Stmt.lexemesValue x)
    (h : Legible (ts ++ rest)) : Stmt.AllValue guarded x := by
  match x with
  | none => exact trivial
  | some x => exact x.guarded_of_legible hx hts h
termination_by structural x

theorem Stmt.guardedList_of_legible (ss : List Stmt) (hss : Stmt.AllList writable ss)
    {ts rest : List Token} (hts : ts.map Token.lexeme = Stmt.lexemesList ss)
    (h : Legible (ts ++ rest)) : Stmt.AllList guarded ss := by
  match ss with
  | [] => exact trivial
  | s :: ss =>
      obtain ⟨us, vs, rfl, hus, hvs⟩ := List.map_eq_append_iff.mp hts
      rw [List.append_assoc] at h
      exact ⟨s.guarded_of_legible hss.1 hus h,
        Stmt.guardedList_of_legible ss hss.2 hvs (h.behind us)⟩
termination_by structural ss

theorem Block.guarded_of_legible (b : Block) (hb : b.All writable) {ts rest : List Token}
    (hts : ts.map Token.lexeme = b.lexemes) (h : Legible (ts ++ rest)) : b.All guarded := by
  match b with
  | .mk token body =>
      obtain ⟨opening, us, rfl, -, hus⟩ := List.map_eq_cons_iff.mp hts
      obtain ⟨vs, ws, rfl, hvs, -⟩ := List.map_eq_append_iff.mp hus
      have hbody : Legible (vs ++ (ws ++ rest)) :=
        Legible.behind [opening] (by simpa using h)
      exact ⟨trivial, Stmt.guardedList_of_legible body hb.2 hvs hbody⟩
termination_by structural b

end

/-- **A program that is read back without an error is guarded.** -/
theorem Program.ifsGuarded_of_errors_eq_nil (p : Program) (hp : p.WellFormed)
    (h : (parse p.render).errors = []) : p.IfsGuarded := by
  have hderived := derivedFrom_of_errors_eq_nil h
  have hlegible : Legible (Lexer.tokenize p.render).dropLast :=
    ⟨⟨Parser.ofSource p.render, Parser.regular_ofSource _, Parser.ahead_ofSource_eq_dropLast _⟩,
      Guards.of_derives hderived⟩
  rw [← List.append_nil (Lexer.tokenize p.render).dropLast] at hlegible
  exact ⟨trivial, Stmt.guardedList_of_legible p.statements hp.2 (p.lexeme_tokenize_render hp)
    hlegible⟩

end ExprLang
