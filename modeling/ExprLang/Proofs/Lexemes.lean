/-
# The lexemes of a rendered tree

Which lexemes a tree is rendered as, and that the lexer finds them again.  Where
a lexeme ends is decided by the character behind it, so everything is shown of a
text with further characters behind it that no word goes on with (`Breaks`).
Main statement: `Program.lexeme_tokenize_render`.
-/
import ExprLang.Proofs.Scan
import ExprLang.Proofs.Shape

namespace ExprLang

/-! ## Lexemes -/

/-- The lexeme that a token was made of. -/
def Token.lexeme (t : Token) : Lexeme :=
  ⟨t.kind, t.text.toList⟩

namespace Lexeme

/-- The lexeme of a kind that is written in one way. -/
def ofKind (k : Token.Kind) : Lexeme :=
  ⟨k, (k.spelling?.getD "").toList⟩

/-- The lexeme of a name. -/
def ofName (name : String) : Lexeme :=
  ⟨.identifier, name.toList⟩

/-- The lexeme of an operator. -/
def ofOperator : String → Lexeme
  | "==" => ofKind .equal
  | "!=" => ofKind .notEqual
  | "<" => ofKind .less
  | ">" => ofKind .greater
  | "+" => ofKind .plus
  | "-" => ofKind .minus
  | "*" => ofKind .star
  | "/" => ofKind .slash
  | "!" => ofKind .bang
  | operator => ⟨.illegal, operator.toList⟩

end Lexeme

/-- The lexemes of the parameters behind the first one, up to the closing
parenthesis. -/
def Identifier.lexemesFurther : List Identifier → List Lexeme
  | [] => [.ofKind .closeParen]
  | name :: names => .ofKind .comma :: .ofName name.name :: lexemesFurther names

/-- The lexemes of the parameters of a function, up to the closing parenthesis. -/
def Identifier.lexemes : List Identifier → List Lexeme
  | [] => [.ofKind .closeParen]
  | name :: names => .ofName name.name :: lexemesFurther names

mutual

/-- The lexemes of an expression. -/
def Expr.lexemes : Expr → List Lexeme
  | .identifier name => [.ofName name.name]
  | .integer _ value => [⟨.integer, (toString value).toList⟩]
  | .boolean _ value => [.ofKind (if value then .kwTrue else .kwFalse)]
  | .unary _ operator operand =>
      .ofKind .openParen :: .ofOperator operator :: (operand.lexemes ++ [.ofKind .closeParen])
  | .binary _ operator left right =>
      .ofKind .openParen ::
        (left.lexemes ++ .ofOperator operator :: (right.lexemes ++ [.ofKind .closeParen]))
  | .conditional _ condition consequence alternative =>
      .ofKind .kwIf ::
        (condition.lexemes ++ (consequence.lexemes ++ Expr.lexemesElse alternative))
  | .function _ parameters body =>
      .ofKind .kwFn :: .ofKind .openParen :: (Identifier.lexemes parameters ++ body.lexemes)
  | .call _ callee arguments =>
      callee.lexemes ++ .ofKind .openParen :: Expr.lexemesArguments arguments

/-- The lexemes of the arguments of a call, up to the closing parenthesis. -/
def Expr.lexemesArguments : List Expr → List Lexeme
  | [] => [.ofKind .closeParen]
  | x :: xs => x.lexemes ++ Expr.lexemesFurther xs

/-- The lexemes of the arguments behind the first one, up to the closing
parenthesis. -/
def Expr.lexemesFurther : List Expr → List Lexeme
  | [] => [.ofKind .closeParen]
  | x :: xs => .ofKind .comma :: (x.lexemes ++ Expr.lexemesFurther xs)

/-- The lexemes of the second branch of a conditional. -/
def Expr.lexemesElse : Option Block → List Lexeme
  | none => []
  | some b => .ofKind .kwEl :: b.lexemes

/-- The lexemes of a statement. -/
def Stmt.lexemes : Stmt → List Lexeme
  | .binding _ name value =>
      .ofKind .atSign :: .ofName name.name :: .ofKind .assign ::
        (value.lexemes ++ [.ofKind .semicolon])
  | .ret _ value => .ofKind .kwRet :: (Stmt.lexemesValue value ++ [.ofKind .semicolon])
  | .expression _ value => value.lexemes

/-- The lexemes of a returned value. -/
def Stmt.lexemesValue : Option Expr → List Lexeme
  | none => []
  | some x => x.lexemes

/-- The lexemes of some statements. -/
def Stmt.lexemesList : List Stmt → List Lexeme
  | [] => []
  | s :: ss => s.lexemes ++ Stmt.lexemesList ss

/-- The lexemes of a block. -/
def Block.lexemes : Block → List Lexeme
  | .mk _ body => .ofKind .openCurly :: (Stmt.lexemesList body ++ [.ofKind .closeCurly])

end

/-! ## Texts with known lexemes -/

/-- A text is scanned as these lexemes, wherever it stands. -/
def Lexes (cs : List Char) (ls : List Lexeme) : Prop :=
  ∀ position, ∃ ts, Scans position cs ts ∧ ts.map Token.lexeme = ls ++ [⟨.eof, []⟩]

/-- No word goes on at the beginning of a text. -/
def Breaks (cs : List Char) : Prop :=
  ∀ c ∈ cs.head?, isWordChar c = false

/-- No word goes on at the end of the input. -/
theorem breaks_nil : Breaks [] := by
  intro c hc
  cases hc

/-- No word goes on with a text that begins with a symbol or a blank. -/
theorem breaks_append {w : String} {c : Char} {tail cs : List Char} (hw : w.toList = c :: tail)
    (hc : isWordChar c = false) : Breaks (w.toList ++ cs) := by
  intro d hd
  rw [hw] at hd
  cases hd
  exact hc

namespace Lexes

variable {cs chars : List Char} {ls : List Lexeme}

/-- The empty text has no lexemes. -/
theorem nil : Lexes [] [] := by
  intro position
  exact ⟨_, .nil (by simp), rfl⟩

/-- A blank in front is passed over. -/
theorem blank {c : Char} (hc : c.isWhitespace) (h : Lexes cs ls) : Lexes (c :: cs) ls := by
  intro position
  obtain ⟨ts, hscans, hts⟩ := h (position + Text.byteLength [c])
  cases hscans with
  | @nil _ blanks hblank =>
      have hblanks : ∀ d ∈ c :: cs, d.isWhitespace := List.forall_mem_cons.mpr ⟨hc, hblank⟩
      exact ⟨_, .nil hblanks, hts⟩
  | @cons _ blanks chars rest kind tokens hblank hspells hend htail =>
      have hblanks : ∀ d ∈ c :: blanks, d.isWhitespace := List.forall_mem_cons.mpr ⟨hc, hblank⟩
      -- the token keeps its place: the blank moves from in front of the text into it
      have hplace : position + Text.byteLength (c :: blanks) =
          position + Text.byteLength [c] + Text.byteLength blanks := by
        rw [show c :: blanks = [c] ++ blanks from rfl, Text.byteLength_append]
        omega
      rw [← hplace] at htail
      exact ⟨_, .cons hblanks hspells hend htail, hts⟩

theorem space (h : Lexes cs ls) : Lexes (" ".toList ++ cs) ls :=
  h.blank rfl

/-- What a kind is written as is one lexeme, where it does not go on. -/
theorem cons {k : Token.Kind} (hspells : k.Spells chars)
    (hend : ∀ c ∈ cs.head?, k.continuedBy c = false) (h : Lexes cs ls) :
    Lexes (chars ++ cs) (⟨k, chars⟩ :: ls) := by
  intro position
  obtain ⟨ts, hscans, hts⟩ := h (position + Text.byteLength chars)
  refine ⟨_, .cons (List.forall_mem_nil _) hspells hend hscans, ?_⟩
  show (⟨k, (String.ofList chars).toList⟩ : Lexeme) :: ts.map Token.lexeme = _
  rw [hts, String.toList_ofList]
  rfl

/-- A kind that is written in one way is read back, where it does not go on. -/
theorem ofKind {k : Token.Kind} {w : String} (hw : k.spelling? = some w)
    (hend : ∀ c ∈ cs.head?, k.continuedBy c = false) (h : Lexes cs ls) :
    Lexes (w.toList ++ cs) (.ofKind k :: ls) := by
  have hspells : k.Spells w.toList := .fixed (by rw [hw, String.ofList_toList])
  have hlexeme : Lexeme.ofKind k = ⟨k, w.toList⟩ := by
    rw [Lexeme.ofKind, hw]
    rfl
  rw [hlexeme]
  exact h.cons hspells hend

/-- A symbol that nothing continues is read back. -/
theorem symbol {k : Token.Kind} {w : String} (hw : k.spelling? = some w)
    (hfree : ∀ c, k.continuedBy c = false) (h : Lexes cs ls) :
    Lexes (w.toList ++ cs) (.ofKind k :: ls) :=
  h.ofKind hw fun c _ => hfree c

/-- A reserved word is read back, where no word goes on. -/
theorem keyword {k : Token.Kind} {w : String} (hk : k ∈ Token.Kind.reserved)
    (hw : k.spelling? = some w) (hcs : Breaks cs) (h : Lexes cs ls) :
    Lexes (w.toList ++ cs) (.ofKind k :: ls) := by
  apply h.ofKind hw
  intro c hc
  rw [Token.Kind.continuedBy_word (.inr hk)]
  exact hcs c hc

/-- A name is read back, where no word goes on. -/
theorem name {name : String} (hname : IsName name) (hcs : Breaks cs) (h : Lexes cs ls) :
    Lexes (name.toList ++ cs) (.ofName name :: ls) := by
  obtain ⟨hword, hfree⟩ := hname
  have hspells := Lexeme.spells_ofWord hword
  have hkind : Token.Kind.ofWord (String.ofList name.toList) = .identifier := by
    rw [String.ofList_toList]
    rcases Token.Kind.ofWord_mem name with h | h
    · exact h
    · exact absurd ((Token.Kind.ofWord_eq_iff h).mp rfl) (hfree _ h)
  rw [hkind] at hspells
  apply h.cons hspells
  intro c hc
  rw [Token.Kind.continuedBy_word (.inl rfl)]
  exact hcs c hc

/-- An operator is read back, where no equals sign follows. -/
theorem operator {operator : String} (hoperator : operator ∈ prefixOperators ++ infixOperators)
    (hcs : cs.head? ≠ some '=') (h : Lexes cs ls) :
    Lexes (operator.toList ++ cs) (.ofOperator operator :: ls) := by
  have hend : ∀ k : Token.Kind, k ≠ .integer → ¬ (k = .identifier ∨ k ∈ Token.Kind.reserved) →
      ∀ c ∈ cs.head?, k.continuedBy c = false := by
    intro k hint hword c hc
    apply Token.Kind.continuedBy_eq_false hint hword
    intro _ heq
    rw [heq] at hc
    exact hcs hc
  simp only [prefixOperators, infixOperators, List.cons_append, List.nil_append, List.mem_cons,
    List.not_mem_nil, or_false] at hoperator
  rcases hoperator with rfl | rfl | rfl | rfl | rfl | rfl | rfl | rfl | rfl | rfl <;>
    exact h.ofKind rfl (hend _ (by decide) (by decide))

end Lexes

/-! ## Integers in decimal -/

namespace Text

/-- The digits of a number have its value. -/
theorem decimalValue_toDigits (n : Nat) : decimalValue (Nat.toDigits 10 n) = n :=
  Nat.ofDigitChars_ten_toDigits

/-- An integer that is not negative is written in digits that have its value. -/
theorem toString_of_nonneg {v : Int} (h : 0 ≤ v) :
    (toString v).toList ≠ [] ∧ (∀ c ∈ (toString v).toList, c.isDigit) ∧
      (decimalValue (toString v).toList : Int) = v := by
  obtain ⟨n, rfl⟩ := Int.eq_ofNat_of_zero_le h
  have hrepr : (toString (n : Int)).toList = Nat.toDigits 10 n := Nat.toList_repr
  rw [hrepr, decimalValue_toDigits]
  exact ⟨Nat.toDigits_ne_nil,
    fun c hc => Nat.isDigit_of_mem_toDigits (by decide) (by decide) hc, rfl⟩

end Text

/-- An integer is read back, where no word goes on. -/
theorem Lexes.integer {cs : List Char} {ls : List Lexeme} {v : Int} (hv : 0 ≤ v)
    (hcs : Breaks cs) (h : Lexes cs ls) :
    Lexes ((toString v).toList ++ cs) (⟨.integer, (toString v).toList⟩ :: ls) := by
  obtain ⟨hne, hdigits, -⟩ := Text.toString_of_nonneg hv
  apply h.cons (.integer hne hdigits)
  intro c hc
  have hword := hcs c hc
  rw [Bool.eq_false_iff, Ne, isWordChar_iff, not_or] at hword
  exact Bool.eq_false_iff.mpr hword.2

/-! ## First characters -/

/-- An expression is rendered with a parenthesis first, or with a part of a word. -/
theorem Expr.exists_render_eq_cons (e : Expr) (h : e.All writable) :
    ∃ c tail, e.render.toList = c :: tail ∧ (e.Opens ∧ c = '(' ∨ ¬ e.Opens ∧ isWordChar c) := by
  match e with
  | .identifier name =>
      obtain ⟨⟨c, rest, hname, hc, -⟩, -⟩ : IsName name.name := h
      exact ⟨c, rest, hname, .inr ⟨id, isWordChar_iff.mpr (.inl hc)⟩⟩
  | .integer token value =>
      obtain ⟨hne, hdigits, -⟩ := Text.toString_of_nonneg h.1
      obtain ⟨c, rest, hvalue⟩ := List.exists_cons_of_ne_nil hne
      refine ⟨c, rest, hvalue, .inr ⟨id, isWordChar_iff.mpr (.inr (hdigits c ?_))⟩⟩
      rw [hvalue]
      exact List.mem_cons_self
  | .boolean _ true => exact ⟨'t', _, by simp [Expr.render]; rfl, .inr ⟨id, rfl⟩⟩
  | .boolean _ false => exact ⟨'f', _, by simp [Expr.render]; rfl, .inr ⟨id, rfl⟩⟩
  | .unary .. => exact ⟨'(', _, by simp [Expr.render]; rfl, .inl ⟨trivial, rfl⟩⟩
  | .binary .. => exact ⟨'(', _, by simp [Expr.render]; rfl, .inl ⟨trivial, rfl⟩⟩
  | .conditional .. => exact ⟨'i', _, by simp [Expr.render]; rfl, .inr ⟨id, rfl⟩⟩
  | .function token names body =>
      obtain ⟨⟨htoken, -⟩, -⟩ := h
      exact ⟨'f', _, by simp [Expr.render, htoken]; rfl, .inr ⟨id, rfl⟩⟩
  | .call token callee arguments =>
      obtain ⟨c, tail, hcallee, hc⟩ := callee.exists_render_eq_cons h.2.1
      exact ⟨c, _, by simp [Expr.render, hcallee]; rfl, hc⟩
termination_by structural e

/-! ## Texts with separators -/

section FurtherText

variable {α : Type} {sep : String} {text : α → String}

/-- The texts of some items, each behind a separator. -/
def furtherText (sep : String) (text : α → String) (xs : List α) : List Char :=
  xs.flatMap fun x => sep.toList ++ (text x).toList

theorem furtherText_cons_append (x : α) (xs : List α) (cs : List Char) :
    furtherText sep text (x :: xs) ++ cs =
      sep.toList ++ ((text x).toList ++ (furtherText sep text xs ++ cs)) := by
  simp [furtherText]

/-- Items with separators between them are the first one and the further ones. -/
theorem toList_intercalate_map_cons (x : α) (xs : List α) :
    (sep.intercalate ((x :: xs).map text)).toList = (text x).toList ++ furtherText sep text xs := by
  induction xs generalizing x with
  | nil => simp [furtherText]
  | cons y ys ih =>
      have htail := ih y
      rw [List.map_cons] at htail
      rw [List.map_cons, List.map_cons, String.intercalate_cons_cons, String.toList_append,
        String.toList_append, htail]
      simp [furtherText]

/-- No word goes on in front of further items, if none goes on in front of a
separator and behind the items. -/
theorem breaks_furtherText {c : Char} {tail cs : List Char} (hsep : sep.toList = c :: tail)
    (hc : isWordChar c = false) (hcs : Breaks cs) (xs : List α) :
    Breaks (furtherText sep text xs ++ cs) := by
  cases xs with
  | nil => exact hcs
  | cons x xs =>
      rw [furtherText_cons_append]
      exact breaks_append hsep hc

end FurtherText

/-- The statements of a block are rendered with a space in front of each. -/
theorem Stmt.toList_renderSpaced (ss : List Stmt) :
    (Stmt.renderSpaced ss).toList = furtherText " " Stmt.render ss := by
  induction ss with
  | nil => rfl
  | cons s ss ih => simp [Stmt.renderSpaced, ih, furtherText]

namespace Lexes

variable {cs : List Char} {ls : List Lexeme}

/-- The comma between the items of a list, and the space behind it. -/
theorem comma (h : Lexes cs ls) : Lexes (", ".toList ++ cs) (.ofKind .comma :: ls) :=
  symbol (w := ",") rfl (fun _ => rfl) h.space

theorem furtherParameters {names : List Identifier} (hnames : ∀ name ∈ names, IsName name.name)
    (h : Lexes cs ls) :
    Lexes (furtherText ", " Identifier.name names ++ (")".toList ++ cs))
      (Identifier.lexemesFurther names ++ ls) := by
  induction names with
  | nil => exact h.symbol rfl (fun _ => rfl)
  | cons name names ih =>
      obtain ⟨hname, hnames⟩ := List.forall_mem_cons.mp hnames
      rw [furtherText_cons_append]
      refine comma (.name hname ?_ (ih hnames))
      exact breaks_furtherText rfl rfl (breaks_append rfl rfl) names

/-- The parameters of a function are read back. -/
theorem parameters {names : List Identifier} (hnames : ∀ name ∈ names, IsName name.name)
    (h : Lexes cs ls) :
    Lexes ((", ".intercalate (names.map Identifier.name)).toList ++ (")".toList ++ cs))
      (Identifier.lexemes names ++ ls) := by
  cases names with
  | nil =>
      rw [List.map_nil, String.intercalate_nil, String.toList_empty, List.nil_append]
      exact h.symbol rfl (fun _ => rfl)
  | cons name names =>
      obtain ⟨hname, hnames⟩ := List.forall_mem_cons.mp hnames
      rw [toList_intercalate_map_cons, List.append_assoc]
      refine .name hname ?_ (furtherParameters hnames h)
      exact breaks_furtherText rfl rfl (breaks_append rfl rfl) names

end Lexes

/-! ## What is rendered is read back -/

/-- An expression can follow an operator. -/
theorem Expr.head?_render_ne (e : Expr) (h : e.All writable) {cs : List Char} :
    (e.render.toList ++ cs).head? ≠ some '=' := by
  obtain ⟨c, tail, he, hc⟩ := e.exists_render_eq_cons h
  rw [he]
  rintro ⟨rfl⟩
  rcases hc with ⟨-, hc⟩ | ⟨-, hc⟩
  · cases hc
  · exact absurd hc (by decide)

mutual

/-- **A rendered expression is read back**, where no word goes on behind it. -/
theorem Expr.lexes_render (e : Expr) (he : e.All writable) {cs : List Char} {ls : List Lexeme}
    (hcs : Breaks cs) (h : Lexes cs ls) :
    Lexes (e.render.toList ++ cs) (e.lexemes ++ ls) := by
  match e with
  | .identifier name => exact .name he hcs h
  | .integer token value => exact .integer he.1 hcs h
  | .boolean token true => exact .keyword (by decide) rfl hcs h
  | .boolean token false => exact .keyword (by decide) rfl hcs h
  | .unary token operator operand =>
      obtain ⟨hoperator, hoperand⟩ := he
      have hclose := h.symbol (k := .closeParen) rfl fun _ => rfl
      have hx := operand.lexes_render hoperand (breaks_append rfl rfl) hclose
      have hop := hx.operator (List.mem_append_left _ hoperator) (operand.head?_render_ne hoperand)
      have := hop.symbol (k := .openParen) rfl fun _ => rfl
      simpa [Expr.render, Expr.lexemes] using this
  | .binary token operator left right =>
      obtain ⟨hoperator, hleft, hright⟩ := he
      have hclose := h.symbol (k := .closeParen) rfl fun _ => rfl
      have hr := right.lexes_render hright (breaks_append rfl rfl) hclose
      have hop := hr.space.operator (List.mem_append_right _ hoperator) (by simp)
      have hl := left.lexes_render hleft (breaks_append rfl rfl) hop.space
      have := hl.symbol (k := .openParen) rfl fun _ => rfl
      simpa [Expr.render, Expr.lexemes] using this
  | .conditional token condition consequence alternative =>
      obtain ⟨-, hcondition, hconsequence, halternative⟩ := he
      have ha := Expr.lexes_renderElse alternative halternative h
      have hb := consequence.lexes_render hconsequence ha
      have hc := condition.lexes_render hcondition (breaks_append rfl rfl) hb.space
      have := hc.space.keyword (k := .kwIf) (by decide) rfl (breaks_append rfl rfl)
      simpa [Expr.render, Expr.lexemes] using this
  | .function token names body =>
      obtain ⟨⟨htoken, hnames⟩, hbody⟩ := he
      have hb := (body.lexes_render hbody h).space.parameters hnames
      have hopen := hb.symbol (k := .openParen) rfl fun _ => rfl
      have := hopen.keyword (k := .kwFn) (by decide) rfl (breaks_append rfl rfl)
      simpa [Expr.render, Expr.lexemes, htoken] using this
  | .call token callee arguments =>
      obtain ⟨-, hcallee, harguments⟩ := he
      have has := Expr.lexes_renderArguments arguments harguments h
      have hopen := has.symbol (k := .openParen) rfl fun _ => rfl
      have := callee.lexes_render hcallee (breaks_append rfl rfl) hopen
      simpa [Expr.render, Expr.lexemes] using this
termination_by structural e

theorem Expr.lexes_renderArguments (xs : List Expr) (hxs : Expr.AllArguments writable xs)
    {cs : List Char} {ls : List Lexeme} (h : Lexes cs ls) :
    Lexes ((", ".intercalate (Expr.renderAll xs)).toList ++ (")".toList ++ cs))
      (Expr.lexemesArguments xs ++ ls) := by
  match xs with
  | [] =>
      rw [Expr.renderAll, String.intercalate_nil, String.toList_empty, List.nil_append]
      exact h.symbol rfl (fun _ => rfl)
  | x :: xs =>
      obtain ⟨hx, hxs⟩ := hxs
      rw [Expr.renderAll_eq_map, toList_intercalate_map_cons, List.append_assoc,
        Expr.lexemesArguments, List.append_assoc]
      refine x.lexes_render hx ?_ (Expr.lexes_renderFurther xs hxs h)
      exact breaks_furtherText rfl rfl (breaks_append rfl rfl) xs
termination_by structural xs

theorem Expr.lexes_renderFurther (xs : List Expr) (hxs : Expr.AllArguments writable xs)
    {cs : List Char} {ls : List Lexeme} (h : Lexes cs ls) :
    Lexes (furtherText ", " Expr.render xs ++ (")".toList ++ cs))
      (Expr.lexemesFurther xs ++ ls) := by
  match xs with
  | [] => exact h.symbol rfl (fun _ => rfl)
  | x :: xs =>
      obtain ⟨hx, hxs⟩ := hxs
      rw [furtherText_cons_append, Expr.lexemesFurther, List.cons_append, List.append_assoc]
      refine .comma (x.lexes_render hx ?_ (Expr.lexes_renderFurther xs hxs h))
      exact breaks_furtherText rfl rfl (breaks_append rfl rfl) xs
termination_by structural xs

theorem Expr.lexes_renderElse (b : Option Block) (hb : Expr.AllElse writable b)
    {cs : List Char} {ls : List Lexeme} (h : Lexes cs ls) :
    Lexes ((Expr.renderElse b).toList ++ cs) (Expr.lexemesElse b ++ ls) := by
  match b with
  | none => exact h
  | some b =>
      have hblock := (b.lexes_render hb h).space
      have := (hblock.keyword (k := .kwEl) (by decide) rfl (breaks_append rfl rfl)).space
      simpa [Expr.renderElse, Expr.lexemesElse] using this
termination_by structural b

/-- A rendered statement is read back, where no word goes on behind it. -/
theorem Stmt.lexes_render (s : Stmt) (hs : s.All writable) {cs : List Char} {ls : List Lexeme}
    (hcs : Breaks cs) (h : Lexes cs ls) :
    Lexes (s.render.toList ++ cs) (s.lexemes ++ ls) := by
  match s with
  | .binding token name value =>
      obtain ⟨⟨htoken, hname⟩, hvalue⟩ := hs
      have hend := h.symbol (k := .semicolon) rfl fun _ => rfl
      have hv := (value.lexes_render hvalue (breaks_append rfl rfl) hend).space
      have hassign := hv.ofKind (k := .assign) rfl (by simp; rfl)
      have hn := hassign.space.name hname (breaks_append rfl rfl)
      have := hn.space.symbol (k := .atSign) rfl fun _ => rfl
      simpa [Stmt.render, Stmt.lexemes, htoken] using this
  | .ret token value =>
      obtain ⟨htoken, hvalue⟩ : token.text = "ret" ∧ Stmt.AllValue writable value := hs
      have hend := h.symbol (k := .semicolon) rfl fun _ => rfl
      have hv := Stmt.lexes_renderValue value hvalue hend
      simpa [Stmt.render, Stmt.lexemes, htoken] using hv
  | .expression token value => exact value.lexes_render hs.2 hcs h
termination_by structural s

theorem Stmt.lexes_renderValue (x : Option Expr) (hx : Stmt.AllValue writable x)
    {cs : List Char} {ls : List Lexeme} (h : Lexes (";".toList ++ cs) ls) :
    Lexes ("ret".toList ++ ((Stmt.renderValue x).toList ++ (";".toList ++ cs)))
      (.ofKind .kwRet :: (Stmt.lexemesValue x ++ ls)) := by
  match x with
  | none =>
      have := h.keyword (k := .kwRet) (by decide) rfl (breaks_append rfl rfl)
      simpa [Stmt.renderValue, Stmt.lexemesValue] using this
  | some x =>
      have hvalue := (x.lexes_render hx (breaks_append rfl rfl) h).space
      have := hvalue.keyword (k := .kwRet) (by decide) rfl (breaks_append rfl rfl)
      simpa [Stmt.renderValue, Stmt.lexemesValue] using this
termination_by structural x

/-- Rendered statements are read back, with a blank in front of each. -/
theorem Stmt.lexes_renderList (sep : String) {c : Char} (hsep : sep.toList = [c])
    (hc : c.isWhitespace) (ss : List Stmt) (hss : Stmt.AllList writable ss) {cs : List Char}
    {ls : List Lexeme} (hcs : Breaks cs) (h : Lexes cs ls) :
    Lexes (furtherText sep Stmt.render ss ++ cs) (Stmt.lexemesList ss ++ ls) := by
  match ss with
  | [] => exact h
  | s :: ss =>
      obtain ⟨hs, hss⟩ := hss
      have hlist := Stmt.lexes_renderList sep hsep hc ss hss hcs h
      have hword := isWordChar_eq_false_of_isWhitespace hc
      have hstmt := s.lexes_render hs (breaks_furtherText hsep hword hcs ss) hlist
      rw [furtherText_cons_append, hsep, Stmt.lexemesList, List.append_assoc]
      exact hstmt.blank hc
termination_by structural ss

/-- A rendered block is read back. -/
theorem Block.lexes_render (b : Block) (hb : b.All writable) {cs : List Char} {ls : List Lexeme}
    (h : Lexes cs ls) :
    Lexes (b.render.toList ++ cs) (b.lexemes ++ ls) := by
  match b with
  | .mk token body =>
      have hclose := (h.symbol (k := .closeCurly) rfl fun _ => rfl).space
      have hbody := Stmt.lexes_renderList " " rfl rfl body hb.2 (breaks_append rfl rfl)
        hclose
      have := hbody.symbol (k := .openCurly) rfl fun _ => rfl
      simpa [Block.render, Block.lexemes, Stmt.toList_renderSpaced] using this
termination_by structural b

end

/-- The lexemes of a program. -/
def Program.lexemes (p : Program) : List Lexeme :=
  Stmt.lexemesList p.statements

/-- A rendered program is read back. -/
theorem Program.lexes_render (p : Program) (hp : p.WellFormed) :
    Lexes p.render.toList p.lexemes := by
  obtain ⟨-, hstatements⟩ := hp
  obtain ⟨statements⟩ := p
  cases statements with
  | nil => exact .nil
  | cons s ss =>
      have hlist := Stmt.lexes_renderList "\n" rfl rfl ss hstatements.2 breaks_nil .nil
      have hfirst := s.lexes_render hstatements.1 (breaks_furtherText rfl rfl breaks_nil ss) hlist
      rw [Program.render, toList_intercalate_map_cons]
      simpa [Program.lexemes, Stmt.lexemesList] using hfirst

/-- **The lexer finds the lexemes of a rendered program.** -/
theorem Program.lexeme_tokenize_render (p : Program) (hp : p.WellFormed) :
    (Lexer.tokenize p.render).dropLast.map Token.lexeme = p.lexemes := by
  obtain ⟨ts, hscans, hts⟩ := p.lexes_render hp 0
  rw [← Lexer.scans_iff_eq_tokenize.mp hscans, List.map_dropLast, hts, List.dropLast_concat]

end ExprLang
