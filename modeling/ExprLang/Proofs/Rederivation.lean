/-
# Derivations of rendered trees

The tokens of a rendered tree are derived as the tree that it is read back as,
if conditionals test operations.  The induction is on the tree.  An expression
statement does not know where it ends before the next one is looked at, so the
tokens of statements are also derived with an expression in front of them that
is still open (`Stmt.ReadingList.behind`), and those of an expression that begins
with a parenthesis as what such an expression runs into (`Expr.Reading.behind`).
Main statement: `Program.exists_derivedFrom`.
-/
import ExprLang.Proofs.Grammar
import ExprLang.Proofs.Rereading

namespace ExprLang

/-! ## Operators -/

namespace Lexeme

variable {operator : String}

/-- An operator is written as it is. -/
theorem chars_ofOperator (h : operator ∈ prefixOperators ++ infixOperators) :
    (ofOperator operator).chars = operator.toList := by
  simp only [prefixOperators, infixOperators, List.cons_append, List.nil_append, List.mem_cons,
    List.not_mem_nil, or_false] at h
  rcases h with rfl | rfl | rfl | rfl | rfl | rfl | rfl | rfl | rfl | rfl <;> rfl

/-- The kind of an operator in front of an operand. -/
theorem kind_ofOperator (h : operator ∈ prefixOperators) :
    (ofOperator operator).kind = .bang ∨ (ofOperator operator).kind = .minus := by
  simp only [prefixOperators, List.mem_cons, List.not_mem_nil, or_false] at h
  rcases h with rfl | rfl
  · exact .inl rfl
  · exact .inr rfl

/-- The strength of an operator between two operands. -/
theorem strength_ofOperator (h : operator ∈ infixOperators) :
    (ofOperator operator).kind.strength.IsBinary := by
  simp only [infixOperators, List.mem_cons, List.not_mem_nil, or_false] at h
  rcases h with rfl | rfl | rfl | rfl | rfl | rfl | rfl | rfl <;> decide

end Lexeme

/-! ## Tokens with known lexemes -/

namespace Token

variable {t : Token}

theorem kind_of_lexeme {k : Kind} (h : t.lexeme = .ofKind k) : t.kind = k :=
  congrArg Lexeme.kind h

theorem text_of_lexeme {w : String} {l : Lexeme} (h : t.lexeme = l) (hl : l.chars = w.toList) :
    t.text = w :=
  String.toList_inj.mp ((congrArg Lexeme.chars h).trans hl)

/-- The token of a name. -/
theorem of_lexeme_name {name : String} (h : t.lexeme = .ofName name) :
    t.kind = .identifier ∧ t.text = name :=
  ⟨congrArg Lexeme.kind h, text_of_lexeme h rfl⟩

/-- The token of an operator in front of an operand. -/
theorem of_lexeme_prefixOperator {operator : String} (hoperator : operator ∈ prefixOperators)
    (h : t.lexeme = .ofOperator operator) :
    (t.kind = .bang ∨ t.kind = .minus) ∧ t.text = operator := by
  have hkind : t.kind = (Lexeme.ofOperator operator).kind := congrArg Lexeme.kind h
  rw [hkind]
  exact ⟨Lexeme.kind_ofOperator hoperator,
    text_of_lexeme h (Lexeme.chars_ofOperator (List.mem_append_left _ hoperator))⟩

/-- The token of an operator between two operands. -/
theorem of_lexeme_infixOperator {operator : String} (hoperator : operator ∈ infixOperators)
    (h : t.lexeme = .ofOperator operator) : t.kind.strength.IsBinary ∧ t.text = operator := by
  have hkind : t.kind = (Lexeme.ofOperator operator).kind := congrArg Lexeme.kind h
  rw [hkind]
  exact ⟨Lexeme.strength_ofOperator hoperator,
    text_of_lexeme h (Lexeme.chars_ofOperator (List.mem_append_right _ hoperator))⟩

end Token

/-- An expression begins with a parenthesis, or with a token that ends nothing
in front of it and goes on with nothing in front of it. -/
theorem Expr.exists_lexemes_eq_cons (e : Expr) :
    ∃ l ls, e.lexemes = l :: ls ∧ (e.Opens ∧ l.kind = .openParen ∨
      ¬ e.Opens ∧ l.kind ≠ .semicolon ∧ l.kind.strength = .lowest) := by
  match e with
  | .identifier name => exact ⟨_, _, rfl, .inr ⟨id, nofun, rfl⟩⟩
  | .integer .. => exact ⟨_, _, rfl, .inr ⟨id, nofun, rfl⟩⟩
  | .boolean _ true => exact ⟨_, _, rfl, .inr ⟨id, nofun, rfl⟩⟩
  | .boolean _ false => exact ⟨_, _, rfl, .inr ⟨id, nofun, rfl⟩⟩
  | .unary .. => exact ⟨_, _, rfl, .inl ⟨trivial, rfl⟩⟩
  | .binary .. => exact ⟨_, _, rfl, .inl ⟨trivial, rfl⟩⟩
  | .conditional .. => exact ⟨_, _, rfl, .inr ⟨id, nofun, rfl⟩⟩
  | .function .. => exact ⟨_, _, rfl, .inr ⟨id, nofun, rfl⟩⟩
  | .call _ callee arguments =>
      obtain ⟨l, ls, hcallee, hl⟩ := callee.exists_lexemes_eq_cons
      refine ⟨l, ls ++ .ofKind .openParen :: Expr.lexemesArguments arguments, ?_, hl⟩
      rw [lexemes, hcallee, List.cons_append]
termination_by structural e

/-- A statement that does not begin with a parenthesis begins with a token that
ends nothing in front of it and goes on with nothing in front of it. -/
theorem Stmt.exists_lexemes_eq_cons (s : Stmt) (hs : ¬ s.Opens) :
    ∃ l ls, s.lexemes = l :: ls ∧ l.kind ≠ .semicolon ∧ l.kind.strength = .lowest := by
  cases s with
  | binding => exact ⟨_, _, rfl, nofun, rfl⟩
  | ret => exact ⟨_, _, rfl, nofun, rfl⟩
  | expression _ e =>
      obtain ⟨l, ls, he, hl⟩ := e.exists_lexemes_eq_cons
      rcases hl with ⟨hopens, -⟩ | ⟨-, hl⟩
      · exact absurd hopens hs
      · exact ⟨l, ls, he, hl⟩

/-! ## Readings -/

/-- Tokens that are read, whatever stands behind them, as something that is
`target` without tokens. -/
def ReadsAs {α : Type} (phrase : α → Phrase) (bare : α → α) (target : α) (ts : List Token) :
    Prop :=
  ∃ a, bare a = target ∧ ∀ rest, Derives (phrase a) (ts ++ rest) rest

/-- The tokens of an expression that begins with a parenthesis.  Those of an
operation end with the parenthesis that matches; in a call the arguments follow. -/
inductive Expr.Opening (e : Expr) : List Token → Prop where
  | operation {opening closing : Token} {inner : List Token} {value : Expr} (he : e.IsOperation)
      (hopening : opening.kind = .openParen) (hclosing : closing.kind = .closeParen)
      (hinner : ∀ rest, Derives (.expr .equality value) (inner ++ rest) rest)
      (hvalue : value.bare = e.reread) : Opening e (opening :: (inner ++ [closing]))
  | called {opening closing argument : Token} {inner more : List Token} {value : Expr}
      (he : ¬ e.IsOperation) (hopening : opening.kind = .openParen)
      (hclosing : closing.kind = .closeParen)
      (hinner : ∀ rest, Derives (.expr .equality value) (inner ++ rest) rest)
      (hargument : argument.kind = .openParen) :
      Opening e (opening :: (inner ++ closing :: argument :: more))

/-- How the tokens of an expression are read: as what the expression is read back
as, alone and behind an expression that runs into it. -/
structure Expr.Reading (e : Expr) (ts : List Token) : Prop where
  alone : ReadsAs (.expr .call) Expr.bare e.reread ts
  behind : e.Opens → ∀ {f : Expr} {us : List Token}, ReadsAs (.expr .call) Expr.bare f us →
    ReadsAs (.expr .call) Expr.bare (f.runInto e.reread) (us ++ ts)
  opening : e.Opens → e.Opening ts

/-- How the tokens of statements are read, up to the end of a block or of the
input: as what the statements are read back as, alone and behind an expression
that is still open. -/
structure Stmt.ReadingList (ss : List Stmt) (ts : List Token) : Prop where
  alone : ∃ rs, Stmt.bareList rs = Stmt.rereadList ss ∧
    ∀ rest, (∀ t ∈ rest.head?, t.kind = .closeCurly) → Derives (.statements rs) (ts ++ rest) rest
  behind : ∀ {f : Expr} {us : List Token}, ReadsAs (.expr .call) Expr.bare f us →
    ∃ rs, Stmt.bareList rs = (Stmt.expression default f).join (Stmt.rereadList ss) ∧
      ∀ rest, (∀ t ∈ rest.head?, t.kind = .closeCurly) →
        Derives (.statements rs) (us ++ (ts ++ rest)) rest

/-! ## Readings of expressions -/

/-- What is read as a call or tighter is read on every level. -/
theorem Derives.of_call {e : Expr} {ts rest : List Token} {level : Precedence}
    (hlevel : level ≠ .lowest) (h : Derives (.expr .call e) ts rest) :
    Derives (.expr level e) ts rest := by
  apply h.loosen hlevel
  cases level <;> decide

namespace Expr.Reading

variable {e : Expr} {ts : List Token}

/-- An expression that begins with no parenthesis is read alone only. -/
theorem of_not_opens (he : ¬ e.Opens) (h : ReadsAs (.expr .call) Expr.bare e.reread ts) :
    e.Reading ts where
  alone := h
  behind hopens := absurd hopens he
  opening hopens := absurd hopens he

theorem identifier {t : Token} {name : Identifier} (ht : t.kind = .identifier)
    (htext : t.text = name.name) : (Expr.identifier name).Reading [t] := by
  refine .of_not_opens id ⟨.identifier ⟨t, t.text⟩, ?_, fun rest => .identifier ht⟩
  rw [Expr.bare, Identifier.bare, htext, Expr.reread, Identifier.bare]

theorem integer {token t : Token} {value : Int} (hvalue : 0 ≤ value)
    (hmax : value ≤ Text.maxInteger) (ht : t.kind = .integer) (htext : t.text = toString value) :
    (Expr.integer token value).Reading [t] := by
  obtain ⟨-, -, hdecimal⟩ := Text.toString_of_nonneg hvalue
  rw [← htext] at hdecimal
  have hfits : Text.decimalValue t.text.toList ≤ Text.maxInteger := by
    omega
  refine .of_not_opens id
    ⟨.integer t (Text.decimalValue t.text.toList), ?_, fun rest => .integer ht hfits⟩
  rw [Expr.bare, hdecimal, Expr.reread]

theorem boolean {token t : Token} {value : Bool}
    (ht : t.kind = if value then .kwTrue else .kwFalse) :
    (Expr.boolean token value).Reading [t] := by
  refine .of_not_opens id ⟨.boolean t (t.kind = .kwTrue), ?_, fun rest => .boolean ?_⟩
  · rw [ht]
    cases value <;> rfl
  · rw [ht]
    cases value
    · exact .inr rfl
    · exact .inl rfl

/-- An operation is read between parentheses, which hold the argument of a call
behind an expression that runs into it. -/
theorem operation {opening closing : Token} {value : Expr} (he : e.IsOperation)
    (hopening : opening.kind = .openParen) (hclosing : closing.kind = .closeParen)
    (hts : ∀ rest, Derives (.expr .equality value) (ts ++ rest) rest)
    (hvalue : value.bare = e.reread) : e.Reading (opening :: (ts ++ [closing])) where
  alone := by
    refine ⟨value, hvalue, fun rest => ?_⟩
    rw [List.cons_append, List.append_assoc]
    exact .grouping hopening hclosing (hts _)
  behind := by
    rintro - f us ⟨g, rfl, hus⟩
    refine ⟨.call opening g [value], ?_, fun rest => ?_⟩
    · have hrun : g.bare.runInto e.reread = .call default g.bare [e.reread] := by
        cases e with
        | unary => rfl
        | binary => rfl
        | _ => exact he.elim
      rw [hrun, Expr.bare, bareArguments, bareArguments, hvalue]
    · have hcallee := hus (opening :: (ts ++ [closing] ++ rest))
      rw [List.append_assoc, List.cons_append]
      refine .call hopening hcallee ?_
      rw [List.append_assoc]
      exact .arguments (hts _) (.noFurtherArguments hclosing)
  opening _ := .operation he hopening hclosing hts hvalue

/-- A unary operation is read as its operand with the operator in front. -/
theorem unary {token opening closing t : Token} {operator : String}
    (hopening : opening.kind = .openParen) (hclosing : closing.kind = .closeParen)
    (ht : t.kind = .bang ∨ t.kind = .minus) (htext : t.text = operator) (he : e.Reading ts) :
    (Expr.unary token operator e).Reading (opening :: t :: (ts ++ [closing])) := by
  obtain ⟨x, hx, hderives⟩ := he.alone
  refine @operation _ (t :: ts) _ _ (.unary t t.text x) trivial hopening hclosing
    (fun rest => ?_) ?_
  · have hunary := Derives.unary ht ((hderives rest).of_call nofun)
    exact hunary.loosen nofun (by decide)
  · rw [Expr.bare, hx, htext, Expr.reread]

/-- A binary operation is read as its operands with the operator between them. -/
theorem binary {token opening closing t : Token} {operator : String} {e' : Expr}
    {us : List Token} (hopening : opening.kind = .openParen)
    (hclosing : closing.kind = .closeParen) (ht : t.kind.strength.IsBinary)
    (htext : t.text = operator) (he : e.Reading ts) (he' : e'.Reading us) :
    (Expr.binary token operator e e').Reading (opening :: (ts ++ t :: (us ++ [closing]))) := by
  obtain ⟨x, hx, hleft⟩ := he.alone
  obtain ⟨y, hy, hright⟩ := he'.alone
  -- the levels of the two operands and of the whole
  have hlevel : t.kind.strength ≠ .lowest ∧ t.kind.strength.right ≠ .lowest ∧
      Precedence.rank .equality ≤ t.kind.strength.rank := by
    rcases ht with h | h | h | h <;> rw [h] <;> decide
  obtain ⟨hlowest, hlowest', hle⟩ := hlevel
  have hread := @operation (.binary token operator e e') (ts ++ t :: us) opening closing
    (.binary t t.text x y) trivial hopening hclosing (fun rest => ?_) ?_
  · simpa using hread
  · rw [List.append_assoc]
    have hbinary := Derives.binary ht ((hleft _).of_call hlowest)
      ((hright rest).of_call hlowest')
    exact hbinary.loosen nofun hle
  · rw [Expr.bare, hx, hy, htext, Expr.reread]

/-- A conditional on an operation is read, since its condition stands between
parentheses of its own. -/
theorem conditional {token t : Token} {consequence : Block} {alternative : Option Block}
    {us vs : List Token} (ht : t.kind = .kwIf) (hoperation : e.IsOperation) (he : e.Reading ts)
    (hconsequence : ReadsAs .block Block.bare consequence.reread us)
    (halternative : ReadsAs .alternative bareElse (rereadElse alternative) vs) :
    (Expr.conditional token e consequence alternative).Reading (t :: (ts ++ (us ++ vs))) := by
  obtain ⟨b, hb, hblock⟩ := hconsequence
  obtain ⟨a, ha, helse⟩ := halternative
  have hopens : e.Opens := by
    cases e with
    | unary => trivial
    | binary => trivial
    | _ => exact hoperation.elim
  refine .of_not_opens id ?_
  cases he.opening hopens with
  | called hnot => exact absurd hoperation hnot
  | @operation opening closing inner value _ hopening hclosing hinner hvalue =>
      refine ⟨.conditional t value b a, ?_, fun rest => ?_⟩
      · rw [Expr.bare, hvalue, hb, ha, Expr.reread]
      · have hcondition := hinner (closing :: (us ++ (vs ++ rest)))
        have := Derives.conditional ht hopening hclosing hcondition (hblock _) (helse _)
        simpa using this

/-- A function is read as its parameters and its body. -/
theorem function {token t opening : Token} {names : List Identifier} {body : Block}
    {us : List Token} (ht : t.kind = .kwFn) (hopening : opening.kind = .openParen)
    (hnames : ∃ ns : List Identifier, ns.map Identifier.bare = names.map Identifier.bare ∧
      ∀ rest, Parameters ns (ts ++ rest) rest)
    (hbody : ReadsAs .block Block.bare body.reread us) :
    (Expr.function token names body).Reading (t :: opening :: (ts ++ us)) := by
  obtain ⟨ns, hns, hparameters⟩ := hnames
  obtain ⟨b, hb, hblock⟩ := hbody
  refine .of_not_opens id ⟨.function t ns b, ?_, fun rest => ?_⟩
  · rw [Expr.bare, hns, hb, Expr.reread]
  · have hrest := hparameters (us ++ rest)
    rw [← List.append_assoc] at hrest
    exact .function ht hopening hrest (hblock rest)

/-- A call is read as its callee and its arguments. -/
theorem call {token opening : Token} {callee : Expr} {arguments : List Expr} {us : List Token}
    (hcallee : callee.Reading ts) (hopening : opening.kind = .openParen)
    (harguments : ReadsAs .arguments Expr.bareArguments (Expr.rereadArguments arguments) us) :
    (Expr.call token callee arguments).Reading (ts ++ opening :: us) := by
  obtain ⟨xs, hxs, harguments⟩ := harguments
  -- a callee that is read in some way is read with the arguments behind it
  have hcall : ∀ {f : Expr} {vs : List Token}, ReadsAs (.expr .call) Expr.bare f vs →
      ReadsAs (.expr .call) Expr.bare (.call default f (rereadArguments arguments))
        (vs ++ opening :: us) := by
    rintro f vs ⟨g, rfl, hvs⟩
    refine ⟨.call opening g xs, by rw [Expr.bare, hxs], fun rest => ?_⟩
    rw [List.append_assoc, List.cons_append]
    exact .call hopening (hvs _) (harguments rest)
  refine ⟨hcall hcallee.alone, fun hopens f vs hvs => ?_, fun hopens => ?_⟩
  · rw [← List.append_assoc]
    exact hcall (hcallee.behind hopens hvs)
  · cases hcallee.opening hopens with
    | operation _ h hclosing hinner _ =>
        rw [List.cons_append, List.append_assoc]
        exact .called id h hclosing hinner hopening
    | called _ h hclosing hinner hargument =>
        rw [List.cons_append, List.append_assoc]
        exact .called id h hclosing hinner hargument

end Expr.Reading

/-! ## Readings of names -/

/-- The parameters behind the first one are derived from their lexemes. -/
theorem Identifier.exists_furtherParameters (names : List Identifier) {ts : List Token}
    (hts : ts.map Token.lexeme = Identifier.lexemesFurther names) :
    ∃ ns : List Identifier, ns.map Identifier.bare = names.map Identifier.bare ∧
      ∀ rest, FurtherParameters ns (ts ++ rest) rest := by
  induction names generalizing ts with
  | nil =>
      obtain ⟨t, rfl, ht⟩ := List.map_eq_singleton_iff.mp hts
      exact ⟨[], rfl, fun rest => .nil (Token.kind_of_lexeme ht)⟩
  | cons name names ih =>
      obtain ⟨comma, us, rfl, hcomma, hus⟩ := List.map_eq_cons_iff.mp hts
      obtain ⟨t, vs, rfl, ht, hvs⟩ := List.map_eq_cons_iff.mp hus
      obtain ⟨hkind, htext⟩ := Token.of_lexeme_name ht
      obtain ⟨ns, hns, hderives⟩ := ih hvs
      refine ⟨⟨t, t.text⟩ :: ns, ?_, fun rest => ?_⟩
      · rw [List.map_cons, List.map_cons, hns, bare, bare, htext]
      · exact .cons (Token.kind_of_lexeme hcomma) hkind (hderives rest)

/-- The parameters of a function are derived from their lexemes. -/
theorem Identifier.exists_parameters (names : List Identifier) {ts : List Token}
    (hts : ts.map Token.lexeme = Identifier.lexemes names) :
    ∃ ns : List Identifier, ns.map Identifier.bare = names.map Identifier.bare ∧
      ∀ rest, Parameters ns (ts ++ rest) rest := by
  cases names with
  | nil =>
      obtain ⟨t, rfl, ht⟩ := List.map_eq_singleton_iff.mp hts
      exact ⟨[], rfl, fun rest => .nil (Token.kind_of_lexeme ht)⟩
  | cons name names =>
      obtain ⟨t, us, rfl, ht, hus⟩ := List.map_eq_cons_iff.mp hts
      obtain ⟨hkind, htext⟩ := Token.of_lexeme_name ht
      obtain ⟨ns, hns, hderives⟩ := exists_furtherParameters names hus
      refine ⟨⟨t, t.text⟩ :: ns, ?_, fun rest => .cons hkind (hderives rest)⟩
      rw [List.map_cons, List.map_cons, hns, bare, bare, htext]

/-! ## Readings of statements -/

namespace Stmt

variable {s : Stmt} {ss : List Stmt} {ts us : List Token}

/-- Statements that do not begin with a parenthesis, and the end of a block or of
the input, end nothing with a semicolon and go on with nothing. -/
theorem ends_in_front (hss : ¬ OpensFirst ss) (hts : ts.map Token.lexeme = lexemesList ss)
    {rest : List Token} (hrest : ∀ t ∈ rest.head?, t.kind = .closeCurly) :
    ∀ t ∈ (ts ++ rest).head?, t.kind ≠ .semicolon ∧ t.kind.strength = .lowest := by
  intro t ht
  cases ss with
  | nil =>
      obtain rfl := List.map_eq_nil_iff.mp hts
      rw [hrest t ht]
      exact ⟨nofun, rfl⟩
  | cons s ss =>
      rw [opensFirst_cons] at hss
      obtain ⟨l, ls, hl, hkind⟩ := s.exists_lexemes_eq_cons hss
      rw [lexemesList, hl] at hts
      obtain ⟨u, us, rfl, rfl, -⟩ := List.map_eq_cons_iff.mp hts
      cases ht
      exact hkind

namespace ReadingList

/-- In front of statements that do not begin with a parenthesis an open
expression is a statement. -/
theorem of_not_opensFirst (hss : ¬ OpensFirst ss) (hts : ts.map Token.lexeme = lexemesList ss)
    (h : ∃ rs, bareList rs = rereadList ss ∧ ∀ rest, (∀ t ∈ rest.head?, t.kind = .closeCurly) →
      Derives (.statements rs) (ts ++ rest) rest) : ReadingList ss ts where
  alone := h
  behind := by
    obtain ⟨rs, hrs, hderives⟩ := h
    rintro f us ⟨g, rfl, hus⟩
    obtain ⟨u, us', hcons⟩ : ∃ u us', us = u :: us' := by
      obtain ⟨u, us', _, hu, -⟩ := (hus []).exists_leading
      rw [List.append_nil] at hu
      exact ⟨u, us', hu⟩
    subst hcons
    refine ⟨.expression u g :: rs, ?_, fun rest hrest => ?_⟩
    · rw [join_of_not_opensFirst, bareList, bare, hrs]
      rintro ⟨-, h⟩
      exact hss ((opensFirst_rereadList ss).mp h)
    · refine .statements (.expression ((hus _).of_call (by decide)) (.bare ?_))
        (hderives rest hrest)
      exact ends_in_front hss hts hrest

theorem nil : ReadingList [] [] := by
  refine of_not_opensFirst ?_ rfl ⟨[], rfl, fun rest _ => .noStatements⟩
  rintro ⟨s, hs, -⟩
  cases hs

/-- A statement that ends with a semicolon is read alone. -/
theorem cons (hs : ¬ s.IsExpression)
    (hlexemes : (ts ++ us).map Token.lexeme = lexemesList (s :: ss))
    (hread : ReadsAs .statement bare s.reread ts) (hlist : ReadingList ss us) :
    ReadingList (s :: ss) (ts ++ us) := by
  obtain ⟨r, hr, hts⟩ := hread
  obtain ⟨rs, hrs, hus⟩ := hlist.alone
  refine of_not_opensFirst ?_ hlexemes ⟨r :: rs, ?_, fun rest hrest => ?_⟩
  · rw [opensFirst_cons]
    intro h
    cases s with
    | expression => exact hs trivial
    | binding => exact h
    | ret => exact h
  · rw [rereadList, join_of_not_opensFirst fun h => hs (s.isExpression_reread.mp h.1), bareList, hr,
      hrs]
  · rw [List.append_assoc]
    exact .statements (hts _) (hus rest hrest)

/-- An expression in front of statements is open to them.  Where it begins with a
parenthesis, an expression in front of it runs into it and is open in its place. -/
theorem expression {token : Token} {e : Expr}
    (hlexemes : (ts ++ us).map Token.lexeme = lexemesList (.expression token e :: ss))
    (he : e.Reading ts) (hlist : ReadingList ss us) :
    ReadingList (.expression token e :: ss) (ts ++ us) := by
  obtain ⟨rs, hrs, hderives⟩ := hlist.behind he.alone
  have halone : ∃ rs, bareList rs = rereadList (.expression token e :: ss) ∧
      ∀ rest, (∀ t ∈ rest.head?, t.kind = .closeCurly) →
        Derives (.statements rs) (ts ++ us ++ rest) rest := by
    refine ⟨rs, hrs, fun rest hrest => ?_⟩
    rw [List.append_assoc]
    exact hderives rest hrest
  by_cases hopens : e.Opens
  · refine ⟨halone, fun hf => ?_⟩
    obtain ⟨rs, hrs, hderives⟩ := hlist.behind (he.behind hopens hf)
    refine ⟨rs, ?_, fun rest hrest => ?_⟩
    · rw [hrs, rereadList, reread, join_join (e.opens_reread.mpr hopens)]
    · have := hderives rest hrest
      rwa [List.append_assoc] at this ⊢
  · refine of_not_opensFirst ?_ hlexemes halone
    rwa [opensFirst_cons]

end ReadingList

end Stmt

/-! ## Readings of trees -/

mutual

/-- **The tokens of an expression are read as what it is read back as.** -/
theorem Expr.reading (e : Expr) (he : e.All writable) (hg : e.All guarded) {ts : List Token}
    (hts : ts.map Token.lexeme = e.lexemes) : e.Reading ts := by
  match e with
  | .identifier name =>
      obtain ⟨t, rfl, ht⟩ := List.map_eq_singleton_iff.mp hts
      obtain ⟨hkind, htext⟩ := Token.of_lexeme_name ht
      exact .identifier hkind htext
  | .integer token value =>
      obtain ⟨t, rfl, ht⟩ := List.map_eq_singleton_iff.mp hts
      exact .integer he.1 he.2 (congrArg Lexeme.kind ht) (Token.text_of_lexeme ht rfl)
  | .boolean token value =>
      obtain ⟨t, rfl, ht⟩ := List.map_eq_singleton_iff.mp hts
      exact .boolean (Token.kind_of_lexeme ht)
  | .unary token operator operand =>
      obtain ⟨opening, us, rfl, hopening, hus⟩ := List.map_eq_cons_iff.mp hts
      obtain ⟨t, vs, rfl, ht, hvs⟩ := List.map_eq_cons_iff.mp hus
      obtain ⟨xs, cs, rfl, hxs, hcs⟩ := List.map_eq_append_iff.mp hvs
      obtain ⟨closing, rfl, hclosing⟩ := List.map_eq_singleton_iff.mp hcs
      obtain ⟨hkind, htext⟩ := Token.of_lexeme_prefixOperator he.1 ht
      exact .unary (Token.kind_of_lexeme hopening) (Token.kind_of_lexeme hclosing) hkind htext
        (operand.reading he.2 hg.2 hxs)
  | .binary token operator left right =>
      obtain ⟨opening, us, rfl, hopening, hus⟩ := List.map_eq_cons_iff.mp hts
      obtain ⟨xs, vs, rfl, hxs, hvs⟩ := List.map_eq_append_iff.mp hus
      obtain ⟨t, ws, rfl, ht, hws⟩ := List.map_eq_cons_iff.mp hvs
      obtain ⟨ys, cs, rfl, hys, hcs⟩ := List.map_eq_append_iff.mp hws
      obtain ⟨closing, rfl, hclosing⟩ := List.map_eq_singleton_iff.mp hcs
      obtain ⟨hbinary, htext⟩ := Token.of_lexeme_infixOperator he.1 ht
      exact .binary (Token.kind_of_lexeme hopening) (Token.kind_of_lexeme hclosing) hbinary htext
        (left.reading he.2.1 hg.2.1 hxs) (right.reading he.2.2 hg.2.2 hys)
  | .conditional token condition consequence alternative =>
      obtain ⟨-, hwc, hwb, hwa⟩ := he
      obtain ⟨hoperation, hgc, hgb, hga⟩ := hg
      obtain ⟨t, us, rfl, ht, hus⟩ := List.map_eq_cons_iff.mp hts
      obtain ⟨cs, vs, rfl, hcs, hvs⟩ := List.map_eq_append_iff.mp hus
      obtain ⟨bs, as, rfl, hbs, has⟩ := List.map_eq_append_iff.mp hvs
      exact .conditional (Token.kind_of_lexeme ht) hoperation (condition.reading hwc hgc hcs)
        (consequence.reading hwb hgb hbs) (Expr.readingElse alternative hwa hga has)
  | .function token parameters body =>
      obtain ⟨t, us, rfl, ht, hus⟩ := List.map_eq_cons_iff.mp hts
      obtain ⟨opening, vs, rfl, hopening, hvs⟩ := List.map_eq_cons_iff.mp hus
      obtain ⟨ps, bs, rfl, hps, hbs⟩ := List.map_eq_append_iff.mp hvs
      exact .function (Token.kind_of_lexeme ht) (Token.kind_of_lexeme hopening)
        (Identifier.exists_parameters parameters hps) (body.reading he.2 hg.2 hbs)
  | .call token callee arguments =>
      obtain ⟨cs, us, rfl, hcs, hus⟩ := List.map_eq_append_iff.mp hts
      obtain ⟨opening, as, rfl, hopening, has⟩ := List.map_eq_cons_iff.mp hus
      exact .call (callee.reading he.2.1 hg.2.1 hcs) (Token.kind_of_lexeme hopening)
        (Expr.readingArguments arguments he.2.2 hg.2.2 has)
termination_by structural e

theorem Expr.readingArguments (xs : List Expr) (hxs : Expr.AllArguments writable xs)
    (hg : Expr.AllArguments guarded xs) {ts : List Token}
    (hts : ts.map Token.lexeme = Expr.lexemesArguments xs) :
    ReadsAs .arguments Expr.bareArguments (Expr.rereadArguments xs) ts := by
  match xs with
  | [] =>
      obtain ⟨closing, rfl, hclosing⟩ := List.map_eq_singleton_iff.mp hts
      exact ⟨[], rfl, fun rest => .noArguments (Token.kind_of_lexeme hclosing)⟩
  | x :: xs =>
      obtain ⟨us, vs, rfl, hus, hvs⟩ := List.map_eq_append_iff.mp hts
      obtain ⟨y, hy, hderives⟩ := (x.reading hxs.1 hg.1 hus).alone
      obtain ⟨ys, hys, hfurther⟩ := Expr.readingFurther xs hxs.2 hg.2 hvs
      refine ⟨y :: ys, ?_, fun rest => ?_⟩
      · rw [Expr.bareArguments, hy, hys, Expr.rereadArguments]
      · rw [List.append_assoc]
        exact .arguments ((hderives _).of_call nofun) (hfurther rest)
termination_by structural xs

theorem Expr.readingFurther (xs : List Expr) (hxs : Expr.AllArguments writable xs)
    (hg : Expr.AllArguments guarded xs) {ts : List Token}
    (hts : ts.map Token.lexeme = Expr.lexemesFurther xs) :
    ReadsAs .furtherArguments Expr.bareArguments (Expr.rereadArguments xs) ts := by
  match xs with
  | [] =>
      obtain ⟨closing, rfl, hclosing⟩ := List.map_eq_singleton_iff.mp hts
      exact ⟨[], rfl, fun rest => .noFurtherArguments (Token.kind_of_lexeme hclosing)⟩
  | x :: xs =>
      obtain ⟨comma, ws, rfl, hcomma, hws⟩ := List.map_eq_cons_iff.mp hts
      obtain ⟨us, vs, rfl, hus, hvs⟩ := List.map_eq_append_iff.mp hws
      obtain ⟨y, hy, hderives⟩ := (x.reading hxs.1 hg.1 hus).alone
      obtain ⟨ys, hys, hfurther⟩ := Expr.readingFurther xs hxs.2 hg.2 hvs
      refine ⟨y :: ys, ?_, fun rest => ?_⟩
      · rw [Expr.bareArguments, hy, hys, Expr.rereadArguments]
      · rw [List.cons_append, List.append_assoc]
        exact .furtherArguments (Token.kind_of_lexeme hcomma) ((hderives _).of_call nofun)
          (hfurther rest)
termination_by structural xs

theorem Expr.readingElse (b : Option Block) (hb : Expr.AllElse writable b)
    (hg : Expr.AllElse guarded b) {ts : List Token}
    (hts : ts.map Token.lexeme = Expr.lexemesElse b) :
    ReadsAs .alternative Expr.bareElse (Expr.rereadElse b) ts := by
  match b with
  | none =>
      obtain rfl := List.map_eq_nil_iff.mp hts
      exact ⟨none, rfl, fun rest => .noAlternative⟩
  | some b =>
      obtain ⟨t, us, rfl, ht, hus⟩ := List.map_eq_cons_iff.mp hts
      obtain ⟨c, hc, hblock⟩ := b.reading hb hg hus
      refine ⟨some c, ?_, fun rest => .alternative (Token.kind_of_lexeme ht) (hblock rest)⟩
      rw [Expr.bareElse, hc, Expr.rereadElse]
termination_by structural b

theorem Stmt.readingValue (x : Option Expr) (hx : Stmt.AllValue writable x)
    (hg : Stmt.AllValue guarded x) {t : Token} (ht : t.kind = .kwRet) {ts : List Token}
    (hts : ts.map Token.lexeme = Stmt.lexemesValue x ++ [.ofKind .semicolon]) :
    ReadsAs .statement Stmt.bare (.ret default (Stmt.rereadValue x)) (t :: ts) := by
  obtain ⟨us, vs, rfl, hus, hvs⟩ := List.map_eq_append_iff.mp hts
  obtain ⟨semicolon, rfl, hsemicolon⟩ := List.map_eq_singleton_iff.mp hvs
  have hkind := Token.kind_of_lexeme hsemicolon
  match x with
  | none =>
      obtain rfl := List.map_eq_nil_iff.mp hus
      refine ⟨.ret t none, rfl, fun rest => .bareRet ht ?_ (.semicolon hkind)⟩
      rintro _ ⟨rfl⟩
      exact .inl hkind
  | some x =>
      obtain ⟨y, hy, hderives⟩ := (x.reading hx hg hus).alone
      refine ⟨.ret t (some y), ?_, fun rest => ?_⟩
      · rw [Stmt.bare, Stmt.bareValue, hy, Stmt.rereadValue]
      · rw [List.cons_append, List.append_assoc]
        exact .ret ht ((hderives _).of_call nofun) (.semicolon hkind)
termination_by structural x

/-- **The tokens of statements are read as what they are read back as.** -/
theorem Stmt.readingList (ss : List Stmt) (hss : Stmt.AllList writable ss)
    (hg : Stmt.AllList guarded ss) {ts : List Token}
    (hts : ts.map Token.lexeme = Stmt.lexemesList ss) : Stmt.ReadingList ss ts := by
  match ss with
  | [] =>
      obtain rfl := List.map_eq_nil_iff.mp hts
      exact .nil
  | .binding token name value :: ss =>
      obtain ⟨us, vs, rfl, hus, hvs⟩ := List.map_eq_append_iff.mp hts
      refine .cons id hts ?_ (Stmt.readingList ss hss.2 hg.2 hvs)
      obtain ⟨t, ws, rfl, ht, hws⟩ := List.map_eq_cons_iff.mp hus
      obtain ⟨n, xs, rfl, hn, hxs⟩ := List.map_eq_cons_iff.mp hws
      obtain ⟨assign, ys, rfl, hassign, hys⟩ := List.map_eq_cons_iff.mp hxs
      obtain ⟨zs, cs, rfl, hzs, hcs⟩ := List.map_eq_append_iff.mp hys
      obtain ⟨semicolon, rfl, hsemicolon⟩ := List.map_eq_singleton_iff.mp hcs
      obtain ⟨hkind, htext⟩ := Token.of_lexeme_name hn
      obtain ⟨y, hy, hderives⟩ := (value.reading hss.1.2 hg.1.2 hzs).alone
      refine ⟨.binding t ⟨n, n.text⟩ y, ?_, fun rest => ?_⟩
      · rw [Stmt.bare, hy, Identifier.bare, htext, Stmt.reread, Identifier.bare]
      · have hvalue := hderives (semicolon :: rest)
        have := Derives.binding (Token.kind_of_lexeme ht) hkind (Token.kind_of_lexeme hassign)
          (hvalue.of_call nofun) (.semicolon (Token.kind_of_lexeme hsemicolon))
        simpa using this
  | .ret token value :: ss =>
      obtain ⟨us, vs, rfl, hus, hvs⟩ := List.map_eq_append_iff.mp hts
      refine .cons id hts ?_ (Stmt.readingList ss hss.2 hg.2 hvs)
      obtain ⟨t, ws, rfl, ht, hws⟩ := List.map_eq_cons_iff.mp hus
      exact Stmt.readingValue value hss.1.2 hg.1.2 (Token.kind_of_lexeme ht) hws
  | .expression token e :: ss =>
      obtain ⟨us, vs, rfl, hus, hvs⟩ := List.map_eq_append_iff.mp hts
      exact .expression hts (e.reading hss.1.2 hg.1.2 hus) (Stmt.readingList ss hss.2 hg.2 hvs)
termination_by structural ss

/-- **The tokens of a block are read as what it is read back as.** -/
theorem Block.reading (b : Block) (hb : b.All writable) (hg : b.All guarded) {ts : List Token}
    (hts : ts.map Token.lexeme = b.lexemes) : ReadsAs .block Block.bare b.reread ts := by
  match b with
  | .mk token body =>
      obtain ⟨opening, us, rfl, hopening, hus⟩ := List.map_eq_cons_iff.mp hts
      obtain ⟨vs, ws, rfl, hvs, hws⟩ := List.map_eq_append_iff.mp hus
      obtain ⟨closing, rfl, hclosing⟩ := List.map_eq_singleton_iff.mp hws
      have hkind := Token.kind_of_lexeme hclosing
      obtain ⟨rs, hrs, hderives⟩ := (Stmt.readingList body hb.2 hg.2 hvs).alone
      refine ⟨.mk opening rs, by rw [Block.bare, hrs, Block.reread], fun rest => ?_⟩
      have hbody := hderives (closing :: rest) (by rintro _ ⟨rfl⟩; exact hkind)
      rw [List.cons_append, List.append_assoc]
      exact .block (Token.kind_of_lexeme hopening) hbody (.brace hkind)
termination_by structural b

end

/-- **A guarded program is derived from its tokens** as what it is read back as. -/
theorem Program.exists_derivedFrom (p : Program) (hp : p.WellFormed) (hg : p.IfsGuarded)
    {ts : List Token} (hts : ts.map Token.lexeme = p.lexemes) :
    ∃ r : Program, r.bare = p.reread ∧ r.DerivedFrom ts := by
  obtain ⟨rs, hrs, hderives⟩ := (Stmt.readingList p.statements hp.2 hg.2 hts).alone
  refine ⟨⟨rs⟩, by rw [bare, hrs, reread], ?_⟩
  have := hderives [] (by simp)
  rwa [List.append_nil] at this

end ExprLang
