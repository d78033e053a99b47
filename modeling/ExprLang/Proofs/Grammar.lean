/-
# The grammar

Which tokens make which trees, said without the parser.  Binary operators stand
on four levels and group to the left; tighter than these are the prefix
operators, and tightest are calls.  `Derives` relates a phrase to the tokens
that begin with it and the tokens left behind it.  Main statements:
`Derives.loosen` (what stands on a level stands on every looser one) and
`Derives.exists_leading` (how an expression starts).
-/
import ExprLang.Parser.Forms
import ExprLang.Text.Decimal
import ExprLang.Tree.Basic

namespace ExprLang

/-! ## Levels -/

/-- How tightly a token of a kind binds in infix position. -/
def Token.Kind.strength : Token.Kind → Precedence
  | .equal | .notEqual => .equality
  | .less | .greater => .relational
  | .plus | .minus => .additive
  | .star | .slash => .multiplicative
  | .openParen => .call
  | _ => .lowest

namespace Precedence

/-- The levels of the binary operators. -/
def IsBinary (l : Precedence) : Prop :=
  l = equality ∨ l = relational ∨ l = additive ∨ l = multiplicative

instance (l : Precedence) : Decidable l.IsBinary :=
  inferInstanceAs (Decidable (_ ∨ _ ∨ _ ∨ _))

/-- The level of what stands to the right of an operator.  For the lowest
strength, which no operator has, it is the level of whole expressions. -/
def right : Precedence → Precedence
  | lowest => equality
  | equality => relational
  | relational => additive
  | additive => multiplicative
  | multiplicative => unary
  | unary => unary
  | call => call

/-- What binds tighter than a floor stands on a level that the floor lets through. -/
theorem rank_right_le {floor : Precedence} {k : Token.Kind} (h : floor < k.strength) :
    floor.right.rank ≤ k.strength.rank := by
  cases floor <;> cases k <;> first | decide | exact absurd h (by decide)

/-- A floor under which expressions of a level are read whole: whatever may
continue them binds tighter. -/
def Admits (floor level : Precedence) : Prop :=
  ∀ k : Token.Kind, level.rank ≤ k.strength.rank → floor < k.strength

/-- Tighter levels are read whole as well. -/
theorem Admits.of_le {floor k l : Precedence} (h : floor.Admits k) (hle : k.rank ≤ l.rank) :
    floor.Admits l :=
  fun _ hl => h _ (Nat.le_trans hle hl)

/-- The right operand of an operator is read under the strength of the operator. -/
theorem admits_right {floor : Precedence} (h : floor ≠ .call) : floor.Admits floor.right := by
  intro k hk
  cases floor <;> cases k <;> first | exact absurd rfl h | exact absurd hk (by decide) | decide

theorem rank_le_right (l : Precedence) : l.rank ≤ l.right.rank := by
  cases l <;> decide

/-- Nothing binds tighter than a call. -/
theorem not_call_lt (l : Precedence) : ¬ call < l := by
  cases l <;> decide

end Precedence

/-! ## Derivations -/

/-- What can be derived: an expression on a level, the arguments of a call behind
its opening parenthesis, those behind the first, the second branch of a
conditional, a statement, a run of statements, a block. -/
inductive Phrase : Type where
  | expr (level : Precedence) (e : Expr)
  | arguments (es : List Expr)
  | furtherArguments (es : List Expr)
  | alternative (block : Option Block)
  | statement (s : Stmt)
  | statements (ss : List Stmt)
  | block (b : Block)

/-- The parameters behind the first one, up to the closing parenthesis. -/
inductive FurtherParameters : List Identifier → List Token → List Token → Prop where
  | nil {closing : Token} {rest : List Token} (hclosing : closing.kind = .closeParen) :
      FurtherParameters [] (closing :: rest) rest
  | cons {comma name : Token} {names : List Identifier} {ts rest : List Token}
      (hcomma : comma.kind = .comma) (hname : name.kind = .identifier)
      (hnames : FurtherParameters names ts rest) :
      FurtherParameters (⟨name, name.text⟩ :: names) (comma :: name :: ts) rest

/-- The parameters of a function, up to the closing parenthesis. -/
inductive Parameters : List Identifier → List Token → List Token → Prop where
  | nil {closing : Token} {rest : List Token} (hclosing : closing.kind = .closeParen) :
      Parameters [] (closing :: rest) rest
  | cons {name : Token} {names : List Identifier} {ts rest : List Token}
      (hname : name.kind = .identifier) (hnames : FurtherParameters names ts rest) :
      Parameters (⟨name, name.text⟩ :: names) (name :: ts) rest

/-- How a statement ends: it takes a semicolon that stands right behind it.
Without one, no binary operator and no opening parenthesis may follow. -/
inductive Terminated : List Token → List Token → Prop where
  | semicolon {t : Token} {rest : List Token} (ht : t.kind = .semicolon) :
      Terminated (t :: rest) rest
  | bare {rest : List Token}
      (hrest : ∀ t ∈ rest.head?, t.kind ≠ .semicolon ∧ t.kind.strength = .lowest) :
      Terminated rest rest

/-- How a block ends: with a closing brace, or with the input. -/
inductive Closed : List Token → List Token → Prop where
  | brace {t : Token} {rest : List Token} (ht : t.kind = .closeCurly) : Closed (t :: rest) rest
  | input : Closed [] []

/-- **The grammar.**  `Derives φ ts rest` says that the tokens `ts` are those of
the phrase `φ` with `rest` behind them. -/
inductive Derives : Phrase → List Token → List Token → Prop where
  | identifier {t : Token} {rest : List Token} (ht : t.kind = .identifier) :
      Derives (.expr .call (.identifier ⟨t, t.text⟩)) (t :: rest) rest
  | integer {t : Token} {rest : List Token} (ht : t.kind = .integer)
      (hvalue : Text.decimalValue t.text.toList ≤ Text.maxInteger) :
      Derives (.expr .call (.integer t (Text.decimalValue t.text.toList))) (t :: rest) rest
  | boolean {t : Token} {rest : List Token} (ht : t.kind = .kwTrue ∨ t.kind = .kwFalse) :
      Derives (.expr .call (.boolean t (t.kind = .kwTrue))) (t :: rest) rest
  | grouping {opening closing : Token} {e : Expr} {ts rest : List Token}
      (hopening : opening.kind = .openParen) (hclosing : closing.kind = .closeParen)
      (he : Derives (.expr .equality e) ts (closing :: rest)) :
      Derives (.expr .call e) (opening :: ts) rest
  | conditional {t opening closing : Token} {condition : Expr} {consequence : Block}
      {alternative : Option Block} {ts ts' ts'' rest : List Token} (ht : t.kind = .kwIf)
      (hopening : opening.kind = .openParen) (hclosing : closing.kind = .closeParen)
      (hcondition : Derives (.expr .equality condition) ts (closing :: ts'))
      (hconsequence : Derives (.block consequence) ts' ts'')
      (halternative : Derives (.alternative alternative) ts'' rest) :
      Derives (.expr .call (.conditional t condition consequence alternative))
        (t :: opening :: ts) rest
  | function {t opening : Token} {names : List Identifier} {body : Block}
      {ts ts' rest : List Token} (ht : t.kind = .kwFn) (hopening : opening.kind = .openParen)
      (hnames : Parameters names ts ts') (hbody : Derives (.block body) ts' rest) :
      Derives (.expr .call (.function t names body)) (t :: opening :: ts) rest
  | call {opening : Token} {callee : Expr} {es : List Expr} {ts ts' rest : List Token}
      (hopening : opening.kind = .openParen)
      (hcallee : Derives (.expr .call callee) ts (opening :: ts'))
      (hes : Derives (.arguments es) ts' rest) :
      Derives (.expr .call (.call opening callee es)) ts rest
  | applied {e : Expr} {ts rest : List Token} (he : Derives (.expr .call e) ts rest) :
      Derives (.expr .unary e) ts rest
  | unary {t : Token} {e : Expr} {ts rest : List Token} (ht : t.kind = .bang ∨ t.kind = .minus)
      (he : Derives (.expr .unary e) ts rest) :
      Derives (.expr .unary (.unary t t.text e)) (t :: ts) rest
  | operand {level : Precedence} {e : Expr} {ts rest : List Token} (hlevel : level.IsBinary)
      (he : Derives (.expr level.right e) ts rest) : Derives (.expr level e) ts rest
  | binary {t : Token} {left right : Expr} {ts ts' rest : List Token}
      (hbinary : t.kind.strength.IsBinary)
      (hleft : Derives (.expr t.kind.strength left) ts (t :: ts'))
      (hright : Derives (.expr t.kind.strength.right right) ts' rest) :
      Derives (.expr t.kind.strength (.binary t t.text left right)) ts rest
  | noArguments {closing : Token} {rest : List Token} (hclosing : closing.kind = .closeParen) :
      Derives (.arguments []) (closing :: rest) rest
  | arguments {e : Expr} {es : List Expr} {ts ts' rest : List Token}
      (he : Derives (.expr .equality e) ts ts') (hes : Derives (.furtherArguments es) ts' rest) :
      Derives (.arguments (e :: es)) ts rest
  | noFurtherArguments {closing : Token} {rest : List Token}
      (hclosing : closing.kind = .closeParen) :
      Derives (.furtherArguments []) (closing :: rest) rest
  | furtherArguments {comma : Token} {e : Expr} {es : List Expr} {ts ts' rest : List Token}
      (hcomma : comma.kind = .comma) (he : Derives (.expr .equality e) ts ts')
      (hes : Derives (.furtherArguments es) ts' rest) :
      Derives (.furtherArguments (e :: es)) (comma :: ts) rest
  | noAlternative {rest : List Token} : Derives (.alternative none) rest rest
  | alternative {t : Token} {b : Block} {ts rest : List Token} (ht : t.kind = .kwEl)
      (hb : Derives (.block b) ts rest) : Derives (.alternative (some b)) (t :: ts) rest
  | binding {t name assign : Token} {value : Expr} {ts ts' rest : List Token}
      (ht : t.kind = .atSign) (hname : name.kind = .identifier) (hassign : assign.kind = .assign)
      (hvalue : Derives (.expr .equality value) ts ts') (hend : Terminated ts' rest) :
      Derives (.statement (.binding t ⟨name, name.text⟩ value)) (t :: name :: assign :: ts) rest
  | ret {t : Token} {value : Expr} {ts ts' rest : List Token} (ht : t.kind = .kwRet)
      (hvalue : Derives (.expr .equality value) ts ts') (hend : Terminated ts' rest) :
      Derives (.statement (.ret t (some value))) (t :: ts) rest
  | bareRet {t : Token} {ts rest : List Token} (ht : t.kind = .kwRet)
      (hnext : ∀ u ∈ ts.head?, u.kind = .semicolon ∨ u.kind = .closeCurly)
      (hend : Terminated ts rest) : Derives (.statement (.ret t none)) (t :: ts) rest
  | expression {t : Token} {value : Expr} {ts ts' rest : List Token}
      (hvalue : Derives (.expr .equality value) (t :: ts) ts') (hend : Terminated ts' rest) :
      Derives (.statement (.expression t value)) (t :: ts) rest
  | noStatements {rest : List Token} : Derives (.statements []) rest rest
  | statements {s : Stmt} {ss : List Stmt} {ts ts' rest : List Token}
      (hs : Derives (.statement s) ts ts') (hss : Derives (.statements ss) ts' rest) :
      Derives (.statements (s :: ss)) ts rest
  | block {opening : Token} {ss : List Stmt} {ts ts' rest : List Token}
      (hopening : opening.kind = .openCurly) (hss : Derives (.statements ss) ts ts')
      (hclosed : Closed ts' rest) : Derives (.block (.mk opening ss)) (opening :: ts) rest

/-- Tokens that are those of a program, with nothing behind it. -/
def Program.DerivedFrom (program : Program) (tokens : List Token) : Prop :=
  Derives (.statements program.statements) tokens []

/-! ## Levels in derivations -/

namespace Derives

variable {e : Expr} {ts rest : List Token}

/-- What stands on a level stands on the next looser one. -/
theorem loosen_one {k : Precedence} (hk : k ≠ .lowest ∧ k ≠ .call) {l : Precedence}
    (hl : l.rank = k.rank + 1) (h : Derives (.expr l e) ts rest) : Derives (.expr k e) ts rest := by
  by_cases hbinary : k.IsBinary
  · refine .operand hbinary ?_
    have hright : k.right = l := by
      rcases hbinary with rfl | rfl | rfl | rfl <;> exact Precedence.rank_injective hl.symm
    rwa [hright]
  · have hunary : k = .unary := by
      cases k <;> first | rfl | exact absurd rfl hk.1 | exact absurd rfl hk.2 |
        exact absurd (by decide) hbinary
    subst hunary
    have hcall : l = .call := Precedence.rank_injective hl
    subst hcall
    exact .applied h

/-- **What stands on a level stands on every looser one.** -/
theorem loosen {k l : Precedence} (hk : k ≠ .lowest) (hle : k.rank ≤ l.rank)
    (h : Derives (.expr l e) ts rest) : Derives (.expr k e) ts rest := by
  induction hn : l.rank - k.rank generalizing k with
  | zero =>
      have hkl : k = l := Precedence.rank_injective (by omega)
      rwa [hkl]
  | succ n ih =>
      have hcall : k ≠ .call := by
        rintro rfl
        cases l <;> simp [Precedence.rank] at hn
      obtain ⟨m, hm⟩ : ∃ m : Precedence, m.rank = k.rank + 1 := by
        cases k
        · exact ⟨.equality, rfl⟩
        · exact ⟨.relational, rfl⟩
        · exact ⟨.additive, rfl⟩
        · exact ⟨.multiplicative, rfl⟩
        · exact ⟨.unary, rfl⟩
        · exact ⟨.call, rfl⟩
        · exact absurd rfl hcall
      have hmlow : m ≠ .lowest := by
        rintro rfl
        exact absurd hm (by simp [Precedence.rank])
      exact loosen_one ⟨hk, hcall⟩ hm (ih hmlow (by omega) (by omega))

/-! ## First tokens -/

/-- **An expression starts with a token that has a leading form.** -/
theorem exists_leading {l : Precedence} (h : Derives (.expr l e) ts rest) :
    ∃ t us form, ts = t :: us ∧ Forms.standard.leading t.kind = some form := by
  generalize hφ : Phrase.expr l e = φ at h
  induction h generalizing l e with
  | identifier ht => exact ⟨_, _, .identifier, rfl, by rw [ht]; rfl⟩
  | integer ht _ => exact ⟨_, _, .integer, rfl, by rw [ht]; rfl⟩
  | boolean ht =>
      refine ⟨_, _, .boolean, rfl, ?_⟩
      rcases ht with ht | ht
      · rw [ht]; rfl
      · rw [ht]; rfl
  | grouping hopening => exact ⟨_, _, .grouping, rfl, by rw [hopening]; rfl⟩
  | conditional ht => exact ⟨_, _, .conditional, rfl, by rw [ht]; rfl⟩
  | function ht => exact ⟨_, _, .function, rfl, by rw [ht]; rfl⟩
  | call _ _ _ ih _ => exact ih rfl
  | applied _ ih => exact ih rfl
  | unary ht =>
      refine ⟨_, _, .unary, rfl, ?_⟩
      rcases ht with ht | ht
      · rw [ht]; rfl
      · rw [ht]; rfl
  | operand _ _ ih => exact ih rfl
  | binary _ _ _ ih _ => exact ih rfl
  | _ => cases hφ

/-- **A statement starts with a token that has a leading form or a statement form.** -/
theorem exists_start {s : Stmt} (h : Derives (.statement s) ts rest) :
    ∃ t us, ts = t :: us ∧
      (Forms.standard.leading t.kind ≠ none ∨ Forms.standard.statement t.kind ≠ none) := by
  cases h with
  | binding ht => exact ⟨_, _, rfl, .inr (by rw [ht]; simp [Forms.standard])⟩
  | ret ht => exact ⟨_, _, rfl, .inr (by rw [ht]; simp [Forms.standard])⟩
  | bareRet ht => exact ⟨_, _, rfl, .inr (by rw [ht]; simp [Forms.standard])⟩
  | expression hvalue =>
      obtain ⟨t, us, form, hts, hform⟩ := hvalue.exists_leading
      exact ⟨t, us, hts, .inl (by rw [hform]; simp)⟩

end Derives

end ExprLang
