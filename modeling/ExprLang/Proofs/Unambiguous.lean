/-
# Rendering tells trees apart

Two well-formed programs that are rendered alike are equal up to tokens.  The
text of an expression is cancelled from the front of a longer text, whatever
follows, as long as what follows does not go on with the expression: no `el`
may follow, and a parenthesis only where it opens an operation, which is never
the list of arguments of a call (`Expr.lexemesArguments_ne`).  A call is looked
at as its head, which is no call, with lists of arguments behind it; the
induction is on the length of the text.  Main statement:
`Program.bare_eq_of_render_eq`.
-/
import ExprLang.Proofs.Rederivation
import ExprLang.Proofs.Window

namespace ExprLang

/-! ## Lexemes that tell what they were made of -/

/-- Names are told apart by their lexemes. -/
theorem Lexeme.ofName_injective {name name' : String} (h : ofName name = ofName name') :
    name = name' :=
  String.toList_inj.mp (congrArg Lexeme.chars h)

/-- Operators are told apart by their lexemes. -/
theorem Lexeme.ofOperator_injective {operator operator' : String}
    (h : operator ∈ prefixOperators ++ infixOperators)
    (h' : operator' ∈ prefixOperators ++ infixOperators)
    (heq : ofOperator operator = ofOperator operator') : operator = operator' := by
  have hchars := congrArg Lexeme.chars heq
  rw [chars_ofOperator h, chars_ofOperator h'] at hchars
  exact String.toList_inj.mp hchars

/-- Integers that are not negative are told apart by their digits. -/
theorem Text.toString_injective {v v' : Int} (hv : 0 ≤ v) (hv' : 0 ≤ v')
    (h : (toString v).toList = (toString v').toList) : v = v' := by
  obtain ⟨-, -, hvalue⟩ := toString_of_nonneg hv
  obtain ⟨-, -, hvalue'⟩ := toString_of_nonneg hv'
  rw [← hvalue, h, hvalue']

/-! ## How an expression begins -/

/-- The leading form of a rendered expression: that of its head, and of an
operation the parenthesis in front. -/
def Expr.leading : Expr → LeadingForm
  | .identifier _ => .identifier
  | .integer _ _ => .integer
  | .boolean _ _ => .boolean
  | .unary .. | .binary .. => .grouping
  | .conditional .. => .conditional
  | .function .. => .function
  | .call _ callee _ => callee.leading

/-- A rendered expression begins with a lexeme of its leading form. -/
theorem Expr.exists_first (e : Expr) :
    ∃ l ls, e.lexemes = l :: ls ∧ l.kind ∈ e.leading.kinds := by
  match e with
  | .identifier _ | .integer .. | .unary .. | .binary .. | .conditional .. | .function .. =>
      exact ⟨_, _, rfl, List.mem_singleton.mpr rfl⟩
  | .boolean _ true => exact ⟨_, _, rfl, List.mem_cons_self⟩
  | .boolean _ false => exact ⟨_, _, rfl, List.mem_cons_of_mem _ List.mem_cons_self⟩
  | .call _ callee arguments =>
      obtain ⟨l, ls, hcallee, hl⟩ := callee.exists_first
      exact ⟨l, ls ++ .ofKind .openParen :: lexemesArguments arguments, by simp [lexemes, hcallee],
        hl⟩
termination_by structural e

/-- No rendered expression begins with an operator: operations stand between
parentheses. -/
theorem Expr.leading_ne_unary (e : Expr) : e.leading ≠ .unary := by
  cases e with
  | call _ callee _ => exact callee.leading_ne_unary
  | _ => rintro ⟨⟩
termination_by structural e

namespace Expr

variable {x y : Expr} {l : Lexeme} {r r' : List Lexeme}

/-- Expressions that are rendered alike have the same leading form. -/
theorem leading_eq (h : x.lexemes ++ r = y.lexemes ++ r') : x.leading = y.leading := by
  obtain ⟨l, ls, hx, hl⟩ := x.exists_first
  obtain ⟨l', ls', hy, hl'⟩ := y.exists_first
  rw [hx, hy, List.cons_append, List.cons_append] at h
  rw [← (List.cons.inj h).1, ← Forms.leading_eq_some_iff] at hl'
  exact Option.some.inj ((Forms.leading_eq_some_iff.mpr hl).symm.trans hl')

/-- A lexeme that is no leading form, or a prefix operator, is not rendered first. -/
theorem lexemes_append_ne
    (hl : Forms.standard.leading l.kind = none ∨ Forms.standard.leading l.kind = some .unary) :
    x.lexemes ++ r ≠ l :: r' := by
  intro h
  obtain ⟨k, ks, hx, hk⟩ := x.exists_first
  rw [hx, List.cons_append] at h
  rw [(List.cons.inj h).1, ← Forms.leading_eq_some_iff] at hk
  rcases hl with hl | hl
  · rw [hl] at hk
    cases hk
  · exact x.leading_ne_unary (Option.some.inj (hk.symm.trans hl))

end Expr

/-- A statement begins with its keyword or with an expression. -/
theorem Stmt.exists_first (s : Stmt) :
    ∃ l ls, s.lexemes = l :: ls ∧
      (l.kind = .atSign ∨ l.kind = .kwRet ∨ ∃ e : Expr, l.kind ∈ e.leading.kinds) := by
  cases s with
  | binding => exact ⟨_, _, rfl, .inl rfl⟩
  | ret => exact ⟨_, _, rfl, .inr (.inl rfl)⟩
  | expression _ e =>
      obtain ⟨l, ls, he, hl⟩ := e.exists_first
      exact ⟨l, ls, he, .inr (.inr ⟨e, hl⟩)⟩

/-! ## Heads of calls -/

/-- A call. -/
def Expr.IsCall : Expr → Prop
  | .call .. => True
  | _ => False

/-- The lexemes of lists of arguments, one behind the other. -/
def Expr.lexemesCalls : List (List Expr) → List Lexeme
  | [] => []
  | arguments :: calls =>
      .ofKind .openParen :: (Expr.lexemesArguments arguments ++ Expr.lexemesCalls calls)

theorem Expr.lexemesCalls_concat (calls : List (List Expr)) (arguments : List Expr) :
    lexemesCalls (calls ++ [arguments]) =
      lexemesCalls calls ++ .ofKind .openParen :: lexemesArguments arguments := by
  induction calls with
  | nil => simp [lexemesCalls]
  | cons first calls ih => simp [lexemesCalls, ih]

/-- An expression that calls its head, which is no call, with lists of arguments
from the left to the right. -/
structure Expr.Spine (e head : Expr) (calls : List (List Expr)) : Prop where
  head_not_call : ¬ head.IsCall
  leading : e.leading = head.leading
  writable : e.All writable → head.All writable ∧ ∀ xs ∈ calls, AllArguments writable xs
  lexemes : e.lexemes = head.lexemes ++ lexemesCalls calls
  bare : e.bare = (calls.map bareArguments).foldl (.call default) head.bare

/-- Every expression has a head. -/
theorem Expr.exists_spine (e : Expr) : ∃ head calls, e.Spine head calls := by
  cases e with
  | call token callee arguments =>
      obtain ⟨head, calls, hhead, hleading, hwritable, hlexemes, hbare⟩ := callee.exists_spine
      refine ⟨head, calls ++ [arguments], hhead, hleading, ?_, ?_, ?_⟩
      · rintro ⟨-, hcallee, harguments⟩
        obtain ⟨hhead, hcalls⟩ := hwritable hcallee
        refine ⟨hhead, fun xs hxs => ?_⟩
        rcases List.mem_append.mp hxs with hxs | hxs
        · exact hcalls xs hxs
        · exact List.mem_singleton.mp hxs ▸ harguments
      · rw [Expr.lexemes, hlexemes, lexemesCalls_concat, List.append_assoc]
      · rw [Expr.bare, hbare, List.map_append, List.foldl_append]
        rfl
  | _ => exact ⟨_, [], id, rfl, fun h => ⟨h, List.forall_mem_nil _⟩, (List.append_nil _).symm, rfl⟩
termination_by structural e

/-- A head that begins with a parenthesis is an operation. -/
theorem Expr.isOperation_of_leading {e : Expr} (he : ¬ e.IsCall) (h : e.leading = .grouping) :
    e.IsOperation := by
  cases e with
  | unary => trivial
  | binary => trivial
  | call => exact absurd trivial he
  | _ => cases h

/-! ## What may follow -/

/-- What may follow a conditional: no second branch. -/
def FollowsElse (r : List Lexeme) : Prop :=
  ∀ l ∈ r.head?, l.kind ≠ .kwEl

/-- What may follow an expression: no second branch, and a parenthesis only if it
opens an operation. -/
structure FollowsExpr (r : List Lexeme) : Prop where
  noElse : FollowsElse r
  noCall : (∀ l ∈ r.head?, l.kind = .openParen → ∃ (o : Expr) (r' : List Lexeme),
    o.IsOperation ∧ o.All writable ∧ r = o.lexemes ++ r')

/-- What may follow the statements of a block or of a program. -/
def FollowsBody (r : List Lexeme) : Prop :=
  ∀ l ∈ r.head?, l.kind = .closeCurly

/-- A lexeme other than a parenthesis and `el` may follow. -/
theorem FollowsExpr.cons {l : Lexeme} {r : List Lexeme} (helse : l.kind ≠ .kwEl)
    (hopen : l.kind ≠ .openParen) : FollowsExpr (l :: r) := by
  constructor
  · rintro _ ⟨⟩
    exact helse
  · rintro _ ⟨⟩ hl
    exact absurd hl hopen

/-- An operator between operands may follow. -/
theorem FollowsExpr.of_isBinary {l : Lexeme} {r : List Lexeme} (h : l.kind.strength.IsBinary) :
    FollowsExpr (l :: r) := by
  apply FollowsExpr.cons
  · intro helse
    rw [helse] at h
    exact absurd h (by decide)
  · intro hopen
    rw [hopen] at h
    exact absurd h (by decide)

/-- The end of a statement may follow. -/
theorem FollowsExpr.semicolon (r : List Lexeme) : FollowsExpr (.ofKind .semicolon :: r) :=
  .cons (by decide) (by decide)

/-- The end of an operation may follow. -/
theorem FollowsExpr.closeParen (r : List Lexeme) : FollowsExpr (.ofKind .closeParen :: r) :=
  .cons (by decide) (by decide)

/-- A block may follow. -/
theorem FollowsExpr.block (b : Block) (r : List Lexeme) : FollowsExpr (b.lexemes ++ r) := by
  cases b
  exact .cons (by decide) (by decide)

/-- Further arguments may follow. -/
theorem FollowsExpr.lexemesFurther (xs : List Expr) (r : List Lexeme) :
    FollowsExpr (Expr.lexemesFurther xs ++ r) := by
  cases xs <;> exact .cons (by decide) (by decide)

/-- Behind a head its lists of arguments may follow. -/
theorem FollowsElse.lexemesCalls {r : List Lexeme} (hr : FollowsElse r)
    (calls : List (List Expr)) : FollowsElse (Expr.lexemesCalls calls ++ r) := by
  cases calls with
  | nil => exact hr
  | cons =>
      rintro _ ⟨⟩
      decide

/-- Behind the last statement of a program nothing follows. -/
theorem FollowsBody.nil : FollowsBody [] := by
  intro l hl
  cases hl

/-- Behind an expression the statements of a block may follow. -/
theorem FollowsExpr.lexemesList {ss : List Stmt} (hss : Stmt.AllList writable ss)
    {r : List Lexeme} (hr : FollowsBody r) : FollowsExpr (Stmt.lexemesList ss ++ r) := by
  match ss with
  | [] =>
      cases r with
      | nil => exact ⟨nofun, nofun⟩
      | cons l r =>
          have hl : l.kind = .closeCurly := hr l rfl
          exact .cons (by rw [hl]; decide) (by rw [hl]; decide)
  | .binding .. :: _ => exact .cons (by decide) (by decide)
  | .ret .. :: _ => exact .cons (by decide) (by decide)
  | .expression token e :: ss =>
      obtain ⟨head, calls, hspine⟩ := e.exists_spine
      obtain ⟨l, ls, he, hl⟩ := e.exists_first
      have hcons : Stmt.lexemesList (.expression token e :: ss) ++ r =
          l :: (ls ++ (Stmt.lexemesList ss ++ r)) := by
        simp [Stmt.lexemesList, Stmt.lexemes, he]
      have hform := Forms.leading_eq_some_iff.mpr hl
      constructor
      · intro k hk helse
        rw [hcons] at hk
        cases hk
        rw [helse] at hform
        cases hform
      · intro k hk hopen
        rw [hcons] at hk
        cases hk
        rw [hopen] at hform
        have hhead := Expr.isOperation_of_leading hspine.head_not_call
          (hspine.leading ▸ (Option.some.inj hform).symm)
        refine ⟨head, Expr.lexemesCalls calls ++ (Stmt.lexemesList ss ++ r), hhead,
          (hspine.writable hss.1.2).1, ?_⟩
        simp [Stmt.lexemesList, Stmt.lexemes, hspine.lexemes]

/-! ## Texts that are told apart -/

/-- Texts that begin with what `lexemes` makes of valid things, and that go on with
what may follow, are told apart if they are shorter than `n`: both the things, up
to tokens, and the rest. -/
def ToldApart {α : Type} (valid : α → Prop) (lexemes : α → List Lexeme) (bare : α → α)
    (follows : List Lexeme → Prop) (n : Nat) : Prop :=
  ∀ ⦃a b : α⦄ ⦃r r' : List Lexeme⦄, (lexemes a ++ r).length < n → valid a → valid b →
    follows r → follows r' → lexemes a ++ r = lexemes b ++ r' → bare a = bare b ∧ r = r'

/-- Expressions are told apart in texts shorter than `n`. -/
def Expr.ToldApart (n : Nat) : Prop :=
  ExprLang.ToldApart (fun e : Expr => e.All writable) lexemes Expr.bare FollowsExpr n

/-- The parameters behind the first one are told apart. -/
theorem Identifier.eq_of_lexemesFurther_append_eq {xs ys : List Identifier}
    {r r' : List Lexeme} (h : lexemesFurther xs ++ r = lexemesFurther ys ++ r') :
    xs.map bare = ys.map bare ∧ r = r' := by
  induction xs generalizing ys with
  | nil =>
      cases ys with
      | nil => exact ⟨rfl, (List.cons.inj h).2⟩
      | cons y ys => cases (List.cons.inj h).1
  | cons x xs ih =>
      cases ys with
      | nil => cases (List.cons.inj h).1
      | cons y ys =>
          obtain ⟨hname, htail⟩ := List.cons.inj (List.cons.inj h).2
          obtain ⟨hmap, hr⟩ := ih htail
          rw [List.map_cons, List.map_cons, hmap, bare, bare, Lexeme.ofName_injective hname]
          exact ⟨rfl, hr⟩

/-- The parameters of a function are told apart. -/
theorem Identifier.eq_of_lexemes_append_eq {xs ys : List Identifier}
    {r r' : List Lexeme} (h : lexemes xs ++ r = lexemes ys ++ r') :
    xs.map bare = ys.map bare ∧ r = r' := by
  cases xs with
  | nil =>
      cases ys with
      | nil => exact ⟨rfl, (List.cons.inj h).2⟩
      | cons y ys => cases congrArg Lexeme.kind (List.cons.inj h).1
  | cons x xs =>
      cases ys with
      | nil => cases congrArg Lexeme.kind (List.cons.inj h).1
      | cons y ys =>
          obtain ⟨hname, htail⟩ := List.cons.inj h
          obtain ⟨hmap, hr⟩ := eq_of_lexemesFurther_append_eq htail
          rw [List.map_cons, List.map_cons, hmap, bare, bare, Lexeme.ofName_injective hname]
          exact ⟨rfl, hr⟩

/-- An operation in front of an operand is none between two operands. -/
theorem Expr.unary_lexemes_ne_binary {token token' : Token} {operator operator' : String}
    {x y z : Expr} {r r' : List Lexeme} (h : operator ∈ prefixOperators) :
    (Expr.unary token operator x).lexemes ++ r ≠
      (Expr.binary token' operator' y z).lexemes ++ r' := by
  intro heq
  simp only [lexemes, List.cons_append, List.append_assoc, List.cons.injEq, true_and] at heq
  refine lexemes_append_ne (.inr ?_) heq.symm
  rcases Lexeme.kind_ofOperator h with h | h <;> rw [h] <;> rfl

/-- What may follow statements is not taken for another statement. -/
theorem Stmt.lexemesList_cons_ne (s : Stmt) {ss : List Stmt} {r r' : List Lexeme}
    (hr : FollowsBody r) : lexemesList (s :: ss) ++ r' ≠ r := by
  rintro rfl
  obtain ⟨l, ls, hs, hl⟩ := s.exists_first
  have hclose : l.kind = .closeCurly := hr l (by rw [lexemesList, hs]; rfl)
  rw [hclose] at hl
  rcases hl with hl | hl | ⟨e, hl⟩
  · cases hl
  · cases hl
  · cases Forms.leading_eq_some_iff.mpr hl

section Shorter

variable {n : Nat} (told : Expr.ToldApart n)
include told

/-- The arguments behind the first one are told apart. -/
theorem Expr.toldApart_further :
    ExprLang.ToldApart (AllArguments writable) lexemesFurther bareArguments (fun _ => True) n := by
  intro xs
  induction xs with
  | nil =>
      rintro ys r r' - - - - - h
      cases ys with
      | nil => exact ⟨rfl, (List.cons.inj h).2⟩
      | cons y ys => cases (List.cons.inj h).1
  | cons x xs ih =>
      rintro ys r r' hn ⟨hx, hxs⟩ hys - - h
      cases ys with
      | nil => cases (List.cons.inj h).1
      | cons y ys =>
          simp only [lexemesFurther, List.cons_append, List.append_assoc, List.length_cons,
            List.cons.injEq, true_and] at hn h
          obtain ⟨hxy, h⟩ := told (by omega) hx hys.1 (.lexemesFurther _ _) (.lexemesFurther _ _) h
          have hn' : (lexemesFurther xs ++ r).length < n := by
            rw [List.length_append] at hn
            omega
          obtain ⟨hxs, hr⟩ := ih hn' hxs hys.2 trivial trivial h
          rw [bareArguments, bareArguments, hxy, hxs]
          exact ⟨rfl, hr⟩

/-- The arguments of a call are told apart. -/
theorem Expr.toldApart_arguments :
    ExprLang.ToldApart (AllArguments writable) lexemesArguments bareArguments (fun _ => True)
      n := by
  rintro xs ys r r' hn hxs hys - - h
  cases xs with
  | nil =>
      cases ys with
      | nil => exact ⟨rfl, (List.cons.inj h).2⟩
      | cons y ys =>
          rw [lexemesArguments, lexemesArguments, List.append_assoc] at h
          exact absurd h.symm (lexemes_append_ne (.inl rfl))
  | cons x xs =>
      rw [lexemesArguments, List.append_assoc] at hn h
      cases ys with
      | nil => exact absurd h (lexemes_append_ne (.inl rfl))
      | cons y ys =>
          rw [lexemesArguments, List.append_assoc] at h
          obtain ⟨hxy, h⟩ := told hn hxs.1 hys.1 (.lexemesFurther _ _) (.lexemesFurther _ _) h
          have hn' : (lexemesFurther xs ++ r).length < n :=
            (List.suffix_append _ _).length_le.trans_lt hn
          obtain ⟨hxs, hr⟩ := toldApart_further told hn' hxs.2 hys.2 trivial trivial h
          rw [bareArguments, bareArguments, hxy, hxs]
          exact ⟨rfl, hr⟩

/-- **No list of arguments is an operation**: behind its first argument there is a
comma or a parenthesis, and in an operation there is an operator. -/
theorem Expr.lexemesArguments_ne {xs : List Expr} {o : Expr} {r r' : List Lexeme}
    (hn : (lexemesArguments xs ++ r).length < n) (hxs : AllArguments writable xs)
    (ho : o.IsOperation) (howritable : o.All writable) :
    .ofKind .openParen :: (lexemesArguments xs ++ r) ≠ o.lexemes ++ r' := by
  intro h
  cases o with
  | unary token operator operand =>
      have hoperator := Lexeme.kind_ofOperator howritable.1
      rw [lexemes, List.cons_append, List.cons_append] at h
      replace h := (List.cons.inj h).2
      cases xs with
      | nil =>
          have hkind := congrArg Lexeme.kind (List.cons.inj h).1
          rcases hoperator with hoperator | hoperator <;>
            · rw [hoperator] at hkind
              cases hkind
      | cons x xs =>
          rw [lexemesArguments, List.append_assoc] at h
          refine lexemes_append_ne (.inr ?_) h
          rcases hoperator with hoperator | hoperator <;> rw [hoperator] <;> rfl
  | binary token operator left right =>
      have hoperator := Lexeme.strength_ofOperator howritable.1
      simp only [lexemes, List.cons_append, List.append_assoc, List.cons.injEq, true_and] at h
      cases xs with
      | nil => exact lexemes_append_ne (.inl rfl) h.symm
      | cons x xs =>
          rw [lexemesArguments, List.append_assoc] at hn h
          obtain ⟨-, hrest⟩ := told hn hxs.1 howritable.2.1 (.lexemesFurther xs r)
            (.of_isBinary hoperator) h
          cases xs with
          | nil =>
              rw [← (List.cons.inj hrest).1] at hoperator
              exact absurd hoperator (by decide)
          | cons y ys =>
              rw [← (List.cons.inj hrest).1] at hoperator
              exact absurd hoperator (by decide)
  | _ => exact ho.elim

/-- The lists of arguments behind the head of a call are told apart. -/
theorem Expr.toldApart_calls :
    ExprLang.ToldApart (fun calls => ∀ xs ∈ calls, AllArguments writable xs) lexemesCalls
      (List.map bareArguments) FollowsExpr (n + 1) := by
  intro calls
  induction calls with
  | nil =>
      rintro calls' r r' hn - hcalls' hr - h
      cases calls' with
      | nil => exact ⟨rfl, h⟩
      | cons xs calls' =>
          -- the rest opens an operation, which is no list of arguments
          rw [lexemesCalls, lexemesCalls, List.nil_append, List.cons_append,
            List.append_assoc] at h
          obtain ⟨o, r'', ho, howritable, hor⟩ :=
            hr.noCall (.ofKind .openParen) (by rw [h]; rfl) rfl
          rw [h] at hn hor
          have hn' : (lexemesArguments xs ++ (lexemesCalls calls' ++ r')).length < n := by
            simpa [lexemesCalls] using hn
          exact absurd hor (lexemesArguments_ne told hn' (hcalls' _ List.mem_cons_self) ho
            howritable)
  | cons xs calls ih =>
      intro calls' r r' hn hcalls hcalls' hr hr' h
      rw [lexemesCalls, List.cons_append, List.append_assoc, List.length_cons,
        Nat.add_lt_add_iff_right] at hn
      rw [lexemesCalls, List.cons_append, List.append_assoc] at h
      obtain ⟨hxs, hcalls⟩ := List.forall_mem_cons.mp hcalls
      cases calls' with
      | nil =>
          rw [lexemesCalls, List.nil_append] at h
          obtain ⟨o, r'', ho, howritable, hor⟩ :=
            hr'.noCall (.ofKind .openParen) (by rw [← h]; rfl) rfl
          rw [← h] at hor
          exact absurd hor (lexemesArguments_ne told hn hxs ho howritable)
      | cons xs' calls' =>
          obtain ⟨hxs', hcalls'⟩ := List.forall_mem_cons.mp hcalls'
          rw [lexemesCalls, List.cons_append, List.append_assoc] at h
          obtain ⟨harguments, h⟩ := toldApart_arguments told hn hxs hxs' trivial trivial
            (List.cons.inj h).2
          have hn' : (lexemesCalls calls ++ r).length < n + 1 :=
            (List.suffix_append _ _).length_le.trans_lt (Nat.lt_succ_of_lt hn)
          obtain ⟨hmap, hr⟩ := ih hn' hcalls hcalls' hr hr' h
          rw [List.map_cons, List.map_cons, harguments, hmap]
          exact ⟨rfl, hr⟩

/-- Returned values are told apart. -/
theorem Stmt.toldApart_value {x y : Option Expr} {r r' : List Lexeme}
    (hn : (Stmt.lexemesValue x ++ .ofKind .semicolon :: r).length < n)
    (hx : Stmt.AllValue writable x) (hy : Stmt.AllValue writable y)
    (h : Stmt.lexemesValue x ++ .ofKind .semicolon :: r =
      Stmt.lexemesValue y ++ .ofKind .semicolon :: r') :
    Stmt.bareValue x = Stmt.bareValue y ∧ r = r' := by
  cases x with
  | none =>
      cases y with
      | none => exact ⟨rfl, (List.cons.inj h).2⟩
      | some y => exact absurd h.symm (Expr.lexemes_append_ne (.inl rfl))
  | some x =>
      cases y with
      | none => exact absurd h (Expr.lexemes_append_ne (.inl rfl))
      | some y =>
          obtain ⟨hxy, hr⟩ := told hn hx hy (.semicolon r) (.semicolon r') h
          exact ⟨congrArg some hxy, (List.cons.inj hr).2⟩

/-- A statement is told apart from another one that begins alike, if only
statements follow. -/
theorem Stmt.toldApart_stmt {s t : Stmt} {ss ts : List Stmt} {r r' : List Lexeme}
    (hn : (s.lexemes ++ (lexemesList ss ++ r)).length < n) (hss : Stmt.AllList writable (s :: ss))
    (hts : Stmt.AllList writable (t :: ts)) (hr : FollowsBody r) (hr' : FollowsBody r')
    (h : s.lexemes ++ (lexemesList ss ++ r) = t.lexemes ++ (lexemesList ts ++ r')) :
    s.bare = t.bare ∧ lexemesList ss ++ r = lexemesList ts ++ r' := by
  obtain ⟨hs, hss⟩ := hss
  obtain ⟨ht, hts⟩ := hts
  cases s with
  | binding token name value =>
      cases t with
      | binding token' name' value' =>
          simp only [lexemes, List.cons_append, List.append_assoc, List.nil_append,
            List.cons.injEq, true_and, List.length_cons] at hn h
          obtain ⟨hname, h⟩ := h
          obtain ⟨hvalue, h⟩ := told (by omega) hs.2 ht.2 (.semicolon _) (.semicolon _) h
          rw [bare, bare, hvalue, Identifier.bare, Identifier.bare,
            Lexeme.ofName_injective hname]
          exact ⟨rfl, (List.cons.inj h).2⟩
      | ret => cases congrArg Lexeme.kind (List.cons.inj h).1
      | expression => exact absurd h.symm (Expr.lexemes_append_ne (.inl rfl))
  | ret token value =>
      cases t with
      | binding => cases congrArg Lexeme.kind (List.cons.inj h).1
      | ret token' value' =>
          simp only [lexemes, List.cons_append, List.append_assoc, List.nil_append,
            List.cons.injEq, true_and, List.length_cons] at hn h
          obtain ⟨hvalue, h⟩ := toldApart_value told (by omega) hs.2 ht.2 h
          rw [bare, bare, hvalue]
          exact ⟨rfl, h⟩
      | expression => exact absurd h.symm (Expr.lexemes_append_ne (.inl rfl))
  | expression token value =>
      cases t with
      | binding => exact absurd h (Expr.lexemes_append_ne (.inl rfl))
      | ret => exact absurd h (Expr.lexemes_append_ne (.inl rfl))
      | expression token' value' =>
          obtain ⟨hvalue, h⟩ := told hn hs.2 ht.2 (.lexemesList hss hr) (.lexemesList hts hr') h
          rw [bare, bare, hvalue]
          exact ⟨rfl, h⟩

/-- **Statements are told apart**, whether or not anything ends them. -/
theorem Stmt.toldApart_list :
    ExprLang.ToldApart (Stmt.AllList writable) lexemesList bareList FollowsBody n := by
  intro ss
  induction ss with
  | nil =>
      rintro ts r r' - - - hr - h
      cases ts with
      | nil => exact ⟨rfl, h⟩
      | cons t ts => exact absurd h.symm (t.lexemesList_cons_ne hr)
  | cons s ss ih =>
      intro ts r r' hn hss hts hr hr' h
      cases ts with
      | nil => exact absurd h (s.lexemesList_cons_ne hr')
      | cons t ts =>
          rw [lexemesList, List.append_assoc] at hn h
          rw [lexemesList, List.append_assoc] at h
          obtain ⟨hst, h⟩ := toldApart_stmt told hn hss hts hr hr' h
          have hn' : (lexemesList ss ++ r).length < n :=
            (List.suffix_append _ _).length_le.trans_lt hn
          obtain ⟨hlist, hr⟩ := ih hn' hss.2 hts.2 hr hr' h
          rw [bareList, bareList, hst, hlist]
          exact ⟨rfl, hr⟩

/-- Blocks are told apart. -/
theorem Block.toldApart :
    ExprLang.ToldApart (fun b : Block => b.All writable) lexemes bare (fun _ => True) n := by
  rintro ⟨token, body⟩ ⟨token', body'⟩ r r' hn hb hb' - - h
  simp only [lexemes, List.cons_append, List.append_assoc, List.nil_append, List.cons.injEq,
    true_and, List.length_cons] at hn h
  have hclose : ∀ r, FollowsBody (.ofKind .closeCurly :: r) := by
    rintro r _ ⟨⟩
    rfl
  obtain ⟨hlist, hr⟩ := Stmt.toldApart_list told (by omega) hb.2 hb'.2 (hclose r) (hclose r') h
  rw [bare, bare, hlist]
  exact ⟨rfl, (List.cons.inj hr).2⟩

/-- The second branches of conditionals are told apart, and none from one. -/
theorem Expr.toldApart_else :
    ExprLang.ToldApart (AllElse writable) lexemesElse bareElse FollowsElse n := by
  intro a a' r r' hn ha ha' hr hr' h
  cases a with
  | none =>
      cases a' with
      | none => exact ⟨rfl, h⟩
      | some b' => exact absurd rfl (hr (.ofKind .kwEl) (congrArg List.head? h))
  | some b =>
      cases a' with
      | none => exact absurd rfl (hr' (.ofKind .kwEl) (congrArg List.head? h.symm))
      | some b' =>
          simp only [lexemesElse, List.cons_append, List.cons.injEq, true_and,
            List.length_cons] at hn h
          obtain ⟨hblock, hr⟩ := Block.toldApart told (by omega) ha ha' trivial trivial h
          rw [bareElse, bareElse, hblock]
          exact ⟨rfl, hr⟩

/-- Conditionals are told apart, though nothing stands around their conditions. -/
theorem Expr.toldApart_conditional {x x' : Expr} {b b' : Block} {a a' : Option Block}
    {r r' : List Lexeme} (hn : (x.lexemes ++ (b.lexemes ++ (lexemesElse a ++ r))).length < n)
    (hx : x.All writable ∧ b.All writable ∧ AllElse writable a)
    (hx' : x'.All writable ∧ b'.All writable ∧ AllElse writable a')
    (hr : FollowsElse r) (hr' : FollowsElse r')
    (h : x.lexemes ++ (b.lexemes ++ (lexemesElse a ++ r)) =
      x'.lexemes ++ (b'.lexemes ++ (lexemesElse a' ++ r'))) :
    x.bare = x'.bare ∧ b.bare = b'.bare ∧ bareElse a = bareElse a' ∧ r = r' := by
  obtain ⟨hx, hb, ha⟩ := hx
  obtain ⟨hx', hb', ha'⟩ := hx'
  obtain ⟨hcondition, h⟩ := told hn hx hx' (.block b _) (.block b' _) h
  rw [List.length_append] at hn
  obtain ⟨hblock, h⟩ := Block.toldApart told (by omega) hb hb' trivial trivial h
  rw [List.length_append] at hn
  obtain ⟨helse, hr⟩ := toldApart_else told (by omega) ha ha' hr hr' h
  exact ⟨hcondition, hblock, helse, hr⟩

/-- Operations are told apart. -/
theorem Expr.toldApart_operation {x y : Expr} {r r' : List Lexeme}
    (hn : (x.lexemes ++ r).length < n + 1) (hoperation : x.IsOperation)
    (hoperation' : y.IsOperation) (hx : x.All writable) (hy : y.All writable)
    (h : x.lexemes ++ r = y.lexemes ++ r') : x.bare = y.bare ∧ r = r' := by
  cases x with
  | unary token operator operand =>
      cases y with
      | unary token' operator' operand' =>
          simp only [lexemes, List.cons_append, List.append_assoc, List.nil_append,
            List.cons.injEq, true_and, List.length_cons] at hn h
          obtain ⟨hoperator, h⟩ := h
          obtain ⟨hoperand, h⟩ := told (by omega) hx.2 hy.2 (.closeParen r) (.closeParen r') h
          rw [bare, bare, hoperand, Lexeme.ofOperator_injective (List.mem_append_left _ hx.1)
            (List.mem_append_left _ hy.1) hoperator]
          exact ⟨rfl, (List.cons.inj h).2⟩
      | binary => exact absurd h (unary_lexemes_ne_binary hx.1)
      | _ => exact hoperation'.elim
  | binary token operator left right =>
      cases y with
      | unary => exact absurd h.symm (unary_lexemes_ne_binary hy.1)
      | binary token' operator' left' right' =>
          simp only [lexemes, List.cons_append, List.append_assoc, List.nil_append,
            List.cons.injEq, true_and, List.length_cons, Nat.add_lt_add_iff_right] at hn h
          obtain ⟨hleft, h⟩ := told hn hx.2.1 hy.2.1
            (.of_isBinary (Lexeme.strength_ofOperator hx.1))
            (.of_isBinary (Lexeme.strength_ofOperator hy.1)) h
          obtain ⟨hoperator, h⟩ := List.cons.inj h
          rw [List.length_append, List.length_cons] at hn
          obtain ⟨hright, h⟩ := told (by omega) hx.2.2 hy.2.2 (.closeParen r) (.closeParen r') h
          rw [bare, bare, hleft, hright, Lexeme.ofOperator_injective (List.mem_append_right _ hx.1)
            (List.mem_append_right _ hy.1) hoperator]
          exact ⟨rfl, (List.cons.inj h).2⟩
      | _ => exact hoperation'.elim
  | _ => exact hoperation.elim

/-- Expressions that are no calls are told apart. -/
theorem Expr.toldApart_head :
    ExprLang.ToldApart (fun e : Expr => ¬ e.IsCall ∧ e.All writable) lexemes Expr.bare FollowsElse
      (n + 1) := by
  rintro x y r r' hn ⟨hcall, hx⟩ ⟨hcall', hy⟩ hr hr' h
  have hleading := leading_eq h
  cases x with
  | identifier name =>
      cases y with
      | identifier name' =>
          obtain ⟨hname, hr⟩ := List.cons.inj h
          rw [bare, bare, Identifier.bare, Identifier.bare, Lexeme.ofName_injective hname]
          exact ⟨rfl, hr⟩
      | call => exact absurd trivial hcall'
      | _ => cases hleading
  | integer token value =>
      cases y with
      | integer token' value' =>
          obtain ⟨hdigits, hr⟩ := List.cons.inj h
          rw [bare, bare, Text.toString_injective hx.1 hy.1 (congrArg Lexeme.chars hdigits)]
          exact ⟨rfl, hr⟩
      | call => exact absurd trivial hcall'
      | _ => cases hleading
  | boolean token value =>
      cases y with
      | boolean token' value' =>
          obtain ⟨hvalue, hr⟩ := List.cons.inj h
          have hvalue : value = value' := by
            cases value <;> cases value' <;> first | rfl | cases congrArg Lexeme.kind hvalue
          rw [bare, bare, hvalue]
          exact ⟨rfl, hr⟩
      | call => exact absurd trivial hcall'
      | _ => cases hleading
  | unary =>
      have hoperation := isOperation_of_leading hcall' hleading.symm
      exact toldApart_operation told hn trivial hoperation hx hy h
  | binary =>
      have hoperation := isOperation_of_leading hcall' hleading.symm
      exact toldApart_operation told hn trivial hoperation hx hy h
  | conditional token condition consequence alternative =>
      cases y with
      | conditional token' condition' consequence' alternative' =>
          simp only [lexemes, List.cons_append, List.append_assoc, List.cons.injEq, true_and,
            List.length_cons, Nat.add_lt_add_iff_right] at hn h
          obtain ⟨hcondition, hconsequence, halternative, hr⟩ :=
            toldApart_conditional told hn hx.2 hy.2 hr hr' h
          rw [bare, bare, hcondition, hconsequence, halternative]
          exact ⟨rfl, hr⟩
      | call => exact absurd trivial hcall'
      | _ => cases hleading
  | function token parameters body =>
      cases y with
      | function token' parameters' body' =>
          simp only [lexemes, List.cons_append, List.append_assoc, List.cons.injEq, true_and,
            List.length_cons] at hn h
          obtain ⟨hparameters, h⟩ := Identifier.eq_of_lexemes_append_eq h
          rw [List.length_append] at hn
          obtain ⟨hbody, hr⟩ := Block.toldApart told (by omega) hx.2 hy.2 trivial trivial h
          rw [bare, bare, hparameters, hbody]
          exact ⟨rfl, hr⟩
      | call => exact absurd trivial hcall'
      | _ => cases hleading
  | call => exact absurd trivial hcall

/-- Expressions are told apart in texts that are longer by one lexeme. -/
theorem Expr.ToldApart.succ : Expr.ToldApart (n + 1) := by
  intro x y r r' hn hx hy hr hr' h
  obtain ⟨head, calls, hspine⟩ := x.exists_spine
  obtain ⟨head', calls', hspine'⟩ := y.exists_spine
  obtain ⟨hhead, hcalls⟩ := hspine.writable hx
  obtain ⟨hhead', hcalls'⟩ := hspine'.writable hy
  rw [hspine.lexemes, List.append_assoc] at hn h
  rw [hspine'.lexemes, List.append_assoc] at h
  obtain ⟨hheads, h⟩ := toldApart_head told hn ⟨hspine.head_not_call, hhead⟩
    ⟨hspine'.head_not_call, hhead'⟩ (hr.noElse.lexemesCalls calls)
    (hr'.noElse.lexemesCalls calls') h
  rw [List.length_append] at hn
  obtain ⟨hlists, hr⟩ := toldApart_calls told (by omega) hcalls hcalls' hr hr' h
  rw [hspine.bare, hspine'.bare, hheads, hlists]
  exact ⟨rfl, hr⟩

end Shorter

/-- **Expressions are told apart** in texts of every length. -/
theorem Expr.toldApart (n : Nat) : Expr.ToldApart n := by
  induction n with
  | zero =>
      intro x y r r' hn
      exact absurd hn (Nat.not_lt_zero _)
  | succ n ih => exact ih.succ

/-! ## Programs -/

/-- **Rendering tells programs apart.**  Well-formed programs with the same text
are equal up to tokens: with any conditions, though no parentheses are rendered
around them, and with any statements, though only blanks are rendered between
them. -/
theorem Program.bare_eq_of_render_eq (p q : Program) (hp : p.WellFormed) (hq : q.WellFormed)
    (h : p.render = q.render) : p.bare = q.bare := by
  have hlexemes : p.lexemes = q.lexemes := by
    rw [← p.lexeme_tokenize_render hp, h, q.lexeme_tokenize_render hq]
  have hlist : Stmt.lexemesList p.statements ++ [] = Stmt.lexemesList q.statements ++ [] := by
    rw [List.append_nil, List.append_nil]
    exact hlexemes
  obtain ⟨hbare, -⟩ := Stmt.toldApart_list (Expr.toldApart _) (Nat.lt_succ_self _) hp.2 hq.2
    .nil .nil hlist
  exact congrArg Program.mk hbare

/-- A program whose text is not read back, with its tokens at a place: a
conditional without parentheses around its condition, and in it a name with an
operation behind it. -/
def Program.crowded (place : UInt32) : Program :=
  let token (text : String) : Token := ⟨.illegal, text, place, place⟩
  let name (text : String) : Expr := .identifier ⟨token text, text⟩
  let body := Block.mk (token "") [.expression (token "") (name "x"),
    .expression (token "") (.unary (token "") "-" (name "y")), .ret (token "ret") none]
  ⟨[.expression (token "") (.conditional (token "") (name "c") body none)]⟩

/-- Its text determines it all the same. -/
theorem Program.bare_crowded_eq :
    (crowded 0).WellFormed ∧ (crowded 1).WellFormed ∧ (crowded 0).render = (crowded 1).render ∧
      (crowded 0).bare = (crowded 1).bare :=
  ⟨by decide, by decide, rfl, bare_eq_of_render_eq _ _ (by decide) (by decide) rfl⟩

end ExprLang
