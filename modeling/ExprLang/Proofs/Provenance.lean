/-
# Where the nodes of a tree come from

Every node of a tree keeps a token.  Listed in the order of the source, the tokens
of a program are taken from the source one behind the other, and what the nodes
say is what their tokens say, also where statements broke and were dropped.
`Picked` says of a run which of the tokens it passed have become nodes, and
composes along a run.  That the tokens are in order is shown by their positions if
the source is shorter than 4 GiB.  Main statements: `Nested.traces_level` (expressions
and blocks), `parse_provenance` (whole programs) and `parse_provenance_apart` (from
4 GiB on).
-/
import ExprLang.Proofs.Pieces
import ExprLang.Proofs.Shape
import ExprLang.Proofs.Wrapping

namespace ExprLang

/-! ## The tokens of the nodes -/

mutual

/-- The tokens of the nodes of an expression, in the order of the source. -/
def Expr.nodes : Expr → List Token
  | .identifier name => [name.token]
  | .integer token _ => [token]
  | .boolean token _ => [token]
  | .unary token _ operand => token :: operand.nodes
  | .binary token _ left right => left.nodes ++ token :: right.nodes
  | .conditional token condition consequence alternative =>
      token :: (condition.nodes ++ (consequence.nodes ++ Expr.nodesElse alternative))
  | .function token parameters body => token :: (parameters.map Identifier.token ++ body.nodes)
  | .call token callee arguments => callee.nodes ++ token :: Expr.nodesArguments arguments

/-- The tokens of the nodes of some expressions. -/
def Expr.nodesArguments : List Expr → List Token
  | [] => []
  | x :: xs => x.nodes ++ Expr.nodesArguments xs

/-- The tokens of the nodes of an optional block. -/
def Expr.nodesElse : Option Block → List Token
  | none => []
  | some b => b.nodes

/-- The tokens of the nodes of a statement.  An expression in the place of one adds
none of its own. -/
def Stmt.nodes : Stmt → List Token
  | .binding token name value => token :: name.token :: value.nodes
  | .ret token value => token :: Stmt.nodesValue value
  | .expression _ value => value.nodes

/-- The tokens of the nodes of an optional expression. -/
def Stmt.nodesValue : Option Expr → List Token
  | none => []
  | some x => x.nodes

/-- The tokens of the nodes of some statements. -/
def Stmt.nodesList : List Stmt → List Token
  | [] => []
  | s :: ss => s.nodes ++ Stmt.nodesList ss

/-- The tokens of the nodes of a block, with its opening brace. -/
def Block.nodes : Block → List Token
  | .mk token body => token :: Stmt.nodesList body

end

/-- The tokens of the nodes of a program. -/
def Program.nodes (p : Program) : List Token :=
  Stmt.nodesList p.statements

theorem Expr.nodesArguments_append (xs ys : List Expr) :
    nodesArguments (xs ++ ys) = nodesArguments xs ++ nodesArguments ys := by
  induction xs with
  | nil => rfl
  | cons x xs ih => rw [List.cons_append, nodesArguments, nodesArguments, ih, List.append_assoc]

theorem Stmt.nodesList_append (ss rs : List Stmt) :
    nodesList (ss ++ rs) = nodesList ss ++ nodesList rs := by
  induction ss with
  | nil => rfl
  | cons s ss ih => rw [List.cons_append, nodesList, nodesList, ih, List.append_assoc]

/-! ## Conditions on lists of nodes -/

section

variable {c : Conditions}

theorem Expr.allArguments_append {xs ys : List Expr} :
    AllArguments c (xs ++ ys) ↔ AllArguments c xs ∧ AllArguments c ys := by
  induction xs with
  | nil => exact (iff_of_eq (true_and _)).symm
  | cons x xs ih => rw [List.cons_append, AllArguments, AllArguments, ih, and_assoc]

theorem Stmt.allList_append {ss rs : List Stmt} :
    AllList c (ss ++ rs) ↔ AllList c ss ∧ AllList c rs := by
  induction ss with
  | nil => exact (iff_of_eq (true_and _)).symm
  | cons s ss ih => rw [List.cons_append, AllList, AllList, ih, and_assoc]

end

/-! ## What the tokens say -/

/-- A name is the text of its token. -/
def Identifier.Traced (name : Identifier) : Prop :=
  name.token.kind = .identifier ∧ name.name = name.token.text

/-- An expression has a token of the kind that it needs, and says what it says: the
value of an integer is that of its digits, and fits. -/
def Expr.Traced : Expr → Prop
  | .identifier name => name.Traced
  | .integer token value =>
      token.kind = .integer ∧ (∀ c ∈ token.text.toList, c.isDigit) ∧
        value = Text.decimalValue token.text.toList ∧ value ≤ Text.maxInteger
  | .boolean token value =>
      (token.kind = .kwTrue ∨ token.kind = .kwFalse) ∧ (value = true ↔ token.kind = .kwTrue)
  | .unary token operator _ =>
      (token.kind = .bang ∨ token.kind = .minus) ∧ operator = token.text
  | .binary token operator _ _ =>
      token.kind ∈ [.equal, .notEqual, .less, .greater, .plus, .minus, .star, .slash] ∧
        operator = token.text
  | .conditional token _ consequence alternative =>
      token.kind = .kwIf ∧ consequence.token.kind = .openCurly ∧
        ∀ b ∈ alternative, b.token.kind = .openCurly
  | .function token parameters body =>
      token.kind = .kwFn ∧ (∀ name ∈ parameters, name.Traced) ∧ body.token.kind = .openCurly
  | .call token _ _ => token.kind = .openParen

/-- Some tokens begin with the first node of an expression, or with parentheses that
stand around it. -/
def Expr.StartsAt (e : Expr) (s : List Token) : Prop :=
  ∃ (opening : List Token) (first : Token) (rest : List Token), s = opening ++ first :: rest ∧
    (∀ t ∈ opening, t.kind = .openParen) ∧ e.nodes.head? = some first

/-- A statement has a token of the kind that it needs in the source `ts`.  That of an
expression is the first one of the expression: its first node, or the first of the
parentheses in front of that. -/
def Stmt.Traced (ts : List Token) : Stmt → Prop
  | .binding token name _ => token.kind = .atSign ∧ name.Traced
  | .ret token _ => token.kind = .kwRet
  | .expression token value =>
      ∃ front rest, ts = front ++ token :: rest ∧ value.StartsAt (token :: rest) ∧
        ∀ t ∈ front.getLast?, t.kind ≠ .openParen

/-- The condition that what a tree says is what the tokens of the source `ts` say. -/
def traced (ts : List Token) : Conditions where
  expr := Expr.Traced
  stmt := Stmt.Traced ts

/-! ## Nodes picked from a run -/

/-- Some of the tokens of `s` in front of `r`, in their order. -/
def Picked (s r ns : List Token) : Prop :=
  ∃ us, s = us ++ r ∧ ns.Sublist us

namespace Picked

variable {s r r' ns ms : List Token} {t : Token}

theorem of_suffix (h : r <:+ s) : Picked s r [] := by
  obtain ⟨us, rfl⟩ := h
  exact ⟨us, rfl, List.nil_sublist us⟩

theorem trans (h : Picked s r ns) (h' : Picked r r' ms) : Picked s r' (ns ++ ms) := by
  obtain ⟨us, rfl, hus⟩ := h
  obtain ⟨vs, rfl, hvs⟩ := h'
  exact ⟨us ++ vs, (List.append_assoc _ _ _).symm, hus.append hvs⟩

theorem cons (t : Token) (h : Picked s r ns) : Picked (t :: s) r (t :: ns) := by
  obtain ⟨us, rfl, hus⟩ := h
  exact ⟨t :: us, rfl, hus.cons_cons t⟩

/-- A token in front is passed over. -/
theorem of_tail (h : Picked s.tail r ns) : Picked s r ns :=
  (of_suffix (List.tail_suffix s)).trans h

/-- A token behind is passed over. -/
theorem tail (h : Picked s r ns) : Picked s r.tail ns := by
  have hboth := h.trans (of_suffix (List.tail_suffix r))
  rwa [List.append_nil] at hboth

theorem sublist (h : Picked s r ns) : ns.Sublist s := by
  obtain ⟨us, rfl, hus⟩ := h
  exact hus.trans (List.sublist_append_left us r)

end Picked

namespace Parser

variable {ts s ns : List Token} {p q : Parser}

/-- A state of a run over the source `ts`. -/
structure Within (ts : List Token) (p : Parser) : Prop where
  regular : p.Regular
  suffix : p.ahead ++ [p.eof] <:+ ts

theorem Within.of_reaches (hp : p.Within ts) (h : p.Reaches q) : q.Within ts := by
  refine ⟨hp.regular.of_reaches h, List.IsSuffix.trans ?_ hp.suffix⟩
  rw [h.eof]
  exact (List.suffix_append_inj_of_length_eq rfl).mpr ⟨h.ahead, rfl⟩

theorem Within.advance (hp : p.Within ts) : p.advance.Within ts :=
  hp.of_reaches p.reaches_advance

theorem Within.withVisits (hp : p.Within ts) (visits : List Visit) :
    Within ts { p with visits := visits } :=
  ⟨hp.regular.withVisits visits, hp.suffix⟩

/-- From the tokens `s` up to and with its current token, which opens no
parenthesis, a run has picked `ns` as nodes. -/
structure Reads (ts s ns : List Token) (q : Parser) : Prop where
  within : q.Within ts
  picked : Picked s q.ahead.tail ns
  last : q.current.kind ≠ .openParen

namespace Reads

variable {r : Parser} {ms : List Token}

/-- Where no token was passed, none was picked. -/
theorem nothing (hp : p.Within ts) (hlast : p.current.kind ≠ .openParen) :
    p.Reads ts p.ahead.tail [] :=
  ⟨hp, .of_suffix (List.suffix_refl _), hlast⟩

theorem trans (h : q.Reads ts s ns) (h' : r.Reads ts q.ahead.tail ms) :
    r.Reads ts s (ns ++ ms) :=
  ⟨h'.within, h.picked.trans h'.picked, h'.last⟩

/-- A token in front is passed over. -/
theorem of_tail (h : q.Reads ts s.tail ns) : q.Reads ts s ns :=
  ⟨h.within, h.picked.of_tail, h.last⟩

/-- The next token is passed over. -/
theorem skip (h : q.Reads ts s ns) (hlast : q.peek.kind ≠ .openParen) :
    q.advance.Reads ts s ns :=
  ⟨h.within.advance, h.picked.tail, hlast⟩

end Reads

/-- The current token becomes a node, in front of those picked behind it. -/
theorem Within.reads_cons (hp : p.Within ts) (heof : p.current.kind ≠ .eof)
    (h : q.Reads ts p.ahead.tail ns) : q.Reads ts p.ahead (p.current :: ns) := by
  rw [hp.regular.ahead_eq_cons heof]
  exact ⟨h.within, h.picked.cons _, h.last⟩

/-- The next token alone is read and becomes a node. -/
theorem Within.reads_peek (hp : p.Within ts) (heof : p.peek.kind ≠ .eof)
    (hlast : p.peek.kind ≠ .openParen) : p.advance.Reads ts p.ahead.tail [p.peek] :=
  hp.advance.reads_cons heof (.nothing hp.advance hlast)

/-- The next token becomes a node. -/
theorem Reads.pick (h : q.Reads ts s ns) (heof : q.peek.kind ≠ .eof)
    (hlast : q.peek.kind ≠ .openParen) : q.advance.Reads ts s (ns ++ [q.peek]) :=
  h.trans (h.within.reads_peek heof hlast)

end Parser

/-! ## Where statements start -/

/-- Behind the current token a statement can start: the token opens no parenthesis,
or the token behind it starts no statement. -/
def Parser.Fresh (p : Parser) : Prop :=
  p.current.kind ≠ .openParen ∨ p.peek.kind = .closeCurly ∨ p.peek.kind = .eof

/-- A statement of the source `ts` can start at the current token: no parenthesis
opens just in front of it, unless the token starts no statement. -/
structure Parser.Starts (ts : List Token) (p : Parser) : Prop where
  within : p.Within ts
  fresh : p.current.kind ≠ .closeCurly → p.current.kind ≠ .eof →
    ∃ front, ts = front ++ (p.ahead ++ [p.eof]) ∧ ∀ t ∈ front.getLast?, t.kind ≠ .openParen

/-- Skipping stops on a semicolon, in front of a closing brace or on the last token. -/
theorem skipStatement_stops (depth : Nat) (ts : List Token) :
    (∃ t ∈ (skipStatement depth ts).head?, t.kind = .semicolon) ∨
      (∃ t ∈ (skipStatement depth ts).tail.head?, t.kind = .closeCurly) ∨
      (skipStatement depth ts).tail = [] := by
  induction ts generalizing depth with
  | nil => exact .inr (.inr rfl)
  | cons t rest ih =>
      cases rest with
      | nil =>
          rw [skipStatement_singleton]
          exact .inr (.inr rfl)
      | cons u us =>
          rw [skipStatement_cons_cons]
          split
          · next h =>
              rcases h.2 with hsemicolon | hclose
              · exact .inl ⟨t, rfl, hsemicolon⟩
              · exact .inr (.inl ⟨u, rfl, hclose⟩)
          · exact ih _

namespace Parser

variable {ts : List Token} {p : Parser}

theorem Starts.withVisits (hp : p.Starts ts) (visits : List Visit) :
    Starts ts { p with visits := visits } :=
  ⟨hp.within.withVisits visits, hp.fresh⟩

/-- A source starts with a statement. -/
theorem Starts.of_source (source : String) : (ofSource source).Starts (Lexer.tokenize source) where
  within := ⟨regular_ofSource source, List.suffix_refl _⟩
  fresh _ _ := ⟨[], rfl, nofun⟩

theorem Within.starts_advance (hp : p.Within ts) (h : p.Fresh) : p.advance.Starts ts where
  within := hp.advance
  fresh hclose heof := by
    have hopen : p.current.kind ≠ .openParen := by
      rcases h with h | h | h
      · exact h
      · exact absurd h hclose
      · exact absurd h heof
    have hcurrent : p.current.kind ≠ .eof := by
      rw [Ne, ← hp.regular.ahead_eq_nil_iff]
      intro hnil
      have htail := hp.regular.tail_eq_cons heof
      rw [hnil] at htail
      cases htail
    obtain ⟨front, hfront⟩ := hp.suffix
    refine ⟨front ++ [p.current], ?_, ?_⟩
    · rw [← hfront, hp.regular.ahead_eq_cons hcurrent, List.append_assoc]
      rfl
    · rw [List.getLast?_concat]
      rintro _ ⟨⟩
      exact hopen

/-- Behind a broken statement that was skipped another one can start. -/
theorem Within.fresh_recover (hp : p.Within ts) : p.recover.Fresh := by
  by_cases hinto : p.ranIntoClosingBrace = true
  · rw [recover_of_ranInto hinto]
    exact .inl (by rw [(ranIntoClosingBrace_iff.mp hinto).1]; decide)
  · have hreg := hp.regular.recover
    rw [recover_of_not_ranInto hinto] at hreg ⊢
    rcases skipStatement_stops 0 p.ahead with ⟨t, ht, hsemicolon⟩ | ⟨t, ht, hclose⟩ | h
    · refine .inl ?_
      rw [current, List.headD_eq_head?_getD, Option.mem_def.mp ht, Option.getD_some, hsemicolon]
      decide
    · refine .inr (.inl ?_)
      rw [peek_eq_of_mem_head? ht, hclose]
    · exact .inr (.inr (hreg.advance.ahead_eq_nil_iff.mp h))

end Parser

/-! ## What is read from tokens -/

/-- An expression has been read from the tokens `s`. -/
structure Expr.ReadFrom (ts s : List Token) (e : Expr) (q : Parser) : Prop where
  reads : q.Reads ts s e.nodes
  all : e.All (traced ts)
  starts : e.StartsAt s

/-- A block has been read from the tokens `s`. -/
structure Block.ReadFrom (ts s : List Token) (b : Block) (q : Parser) : Prop where
  reads : q.Reads ts s b.nodes
  all : b.All (traced ts)
  brace : b.token.kind = .openCurly

/-- What nested constructs read is picked from the tokens of the source `ts`. -/
structure Nested.Traces (ts : List Token) (nested : Nested) : Prop where
  keeps : ∀ p : Parser, nested.Keeps p.Reaches
  expr : ∀ (floor : Precedence) {p : Parser}, p.Within ts →
    (nested.expr floor p).Meets (fun e q => e.ReadFrom ts p.ahead q) (fun _ => True) True
  block : ∀ {p : Parser}, p.Within ts → p.current.kind = .openCurly →
    (nested.block p).Meets (fun b q => b.ReadFrom ts p.ahead q) (fun _ => True) True

theorem Expr.StartsAt.of_head? {x y : Expr} {s : List Token} (h : x.StartsAt s)
    (hnodes : ∀ t, x.nodes.head? = some t → y.nodes.head? = some t) : y.StartsAt s := by
  obtain ⟨opening, first, rest, hs, hopening, hfirst⟩ := h
  exact ⟨opening, first, rest, hs, hopening, hnodes first hfirst⟩

theorem Expr.StartsAt.append {e : Expr} {s : List Token} (h : e.StartsAt s) (r : List Token) :
    e.StartsAt (s ++ r) := by
  obtain ⟨opening, first, rest, rfl, hopening, hfirst⟩ := h
  exact ⟨opening, first, rest ++ r, by simp, hopening, hfirst⟩

/-- No block ends on the first node of an expression. -/
theorem Expr.exists_first_node {ts : List Token} (e : Expr) (he : e.All (traced ts)) :
    ∃ t, e.nodes.head? = some t ∧ Rule.endsBlock t.kind = false := by
  match e with
  | .identifier name => exact ⟨_, rfl, by rw [he.1]; rfl⟩
  | .integer token value => exact ⟨_, rfl, by rw [he.1]; rfl⟩
  | .boolean token value => exact ⟨_, rfl, by rcases he.1 with h | h <;> rw [h] <;> rfl⟩
  | .unary token operator operand =>
      exact ⟨_, rfl, by rcases he.1.1 with h | h <;> rw [h] <;> rfl⟩
  | .binary token operator left right =>
      obtain ⟨t, ht, hkind⟩ := left.exists_first_node he.2.1
      exact ⟨t, by rw [nodes, List.head?_append, ht]; rfl, hkind⟩
  | .conditional .. => exact ⟨_, rfl, by rw [he.1.1]; rfl⟩
  | .function .. => exact ⟨_, rfl, by rw [he.1.1]; rfl⟩
  | .call token callee arguments =>
      obtain ⟨t, ht, hkind⟩ := callee.exists_first_node he.2.1
      exact ⟨t, by rw [nodes, List.head?_append, ht]; rfl, hkind⟩
termination_by structural e

/-- Nor on the first of the tokens that an expression was read from. -/
theorem Expr.StartsAt.endsBlock_eq_false {ts s : List Token} {e : Expr} {t : Token}
    (h : e.StartsAt (t :: s)) (he : e.All (traced ts)) : Rule.endsBlock t.kind = false := by
  obtain ⟨opening, first, rest, hs, hopening, hfirst⟩ := h
  cases opening with
  | nil =>
      obtain ⟨u, hu, hkind⟩ := e.exists_first_node he
      rw [hfirst] at hu
      cases hu
      cases hs
      exact hkind
  | cons u opening =>
      cases hs
      rw [hopening _ List.mem_cons_self]
      rfl

namespace Rule

open Parse

variable {ts s : List Token} {nested : Nested} {p q : Parser}

/-! ## Leading forms -/

/-- An expression whose node is the current token, and first. -/
theorem readFrom_of_current (hp : p.Within ts) (heof : p.current.kind ≠ .eof) {e : Expr}
    {ns : List Token} (hnodes : e.nodes = p.current :: ns) (hall : e.All (traced ts))
    (hreads : q.Reads ts p.ahead.tail ns) : e.ReadFrom ts p.ahead q where
  reads := by
    rw [hnodes]
    exact hp.reads_cons heof hreads
  all := hall
  starts := by
    rw [hp.regular.ahead_eq_cons heof]
    exact ⟨[], _, _, rfl, List.forall_mem_nil _, by rw [hnodes]; rfl⟩

theorem integer_traces (hp : p.Within ts) (ht : p.current.kind = .integer) :
    (integer nested p).Meets (fun e q => e.ReadFrom ts p.ahead q) (fun _ => True) True := by
  rw [integer, meets_bind, meets_current]
  cases hvalue : Text.integer? p.current.text with
  | none => trivial
  | some value =>
      obtain ⟨-, hdigits, hle, rfl⟩ := Text.integer?_eq_some_iff.mp hvalue
      exact readFrom_of_current hp (by rw [ht]; decide) rfl
        ⟨ht, hdigits, rfl, by exact_mod_cast hle⟩ (.nothing hp (by rw [ht]; decide))

theorem bracedBlock_traces (hn : nested.Traces ts) (hp : p.Within ts) :
    (bracedBlock nested p).Meets (fun b q => b.ReadFrom ts p.ahead.tail q) (fun _ => True)
      True := by
  rw [bracedBlock, meets_bind, meets_expect]
  exact ⟨fun hopening => hn.block hp.advance hopening, fun _ => trivial⟩

/-- A second branch, or none, in which case no token is passed. -/
theorem alternative_traces (hn : nested.Traces ts) (hp : p.Within ts)
    (hlast : p.current.kind ≠ .openParen) :
    (alternative nested p).Meets
      (fun a q => q.Reads ts p.ahead.tail (Expr.nodesElse a) ∧ Expr.AllElse (traced ts) a ∧
        ∀ b ∈ a, b.token.kind = .openCurly) (fun _ => True) True := by
  rw [alternative, meets_bind, meets_peek, meets_ite]
  constructor
  · intro _
    rw [meets_bind, meets_advance, meets_map]
    refine (bracedBlock_traces hn hp.advance).imp (fun b q hb => ?_) (fun _ h => h) id
    refine ⟨hb.reads.of_tail, hb.all, ?_⟩
    rintro _ ⟨⟩
    exact hb.brace
  · intro _
    exact ⟨.nothing hp hlast, trivial, nofun⟩

theorem conditional_traces (hn : nested.Traces ts) (hp : p.Within ts)
    (ht : p.current.kind = .kwIf) :
    (conditional nested p).Meets (fun e q => e.ReadFrom ts p.ahead q) (fun _ => True) True := by
  rw [conditional, meets_bind, meets_current, meets_bind, meets_expect]
  refine ⟨fun _ => ?_, fun _ => trivial⟩
  rw [meets_bind, meets_advance, meets_bind]
  refine (hn.expr _ hp.advance.advance).imp (fun condition q hcondition => ?_) (fun _ h => h) id
  rw [meets_bind, meets_expect]
  refine ⟨fun hclosing => ?_, fun _ => trivial⟩
  have hq := hcondition.reads.skip (by rw [hclosing]; decide)
  rw [meets_bind]
  refine (bracedBlock_traces hn hq.within).imp (fun consequence r hconsequence => ?_)
    (fun _ h => h) id
  have hr := hq.trans hconsequence.reads
  rw [meets_bind]
  refine (alternative_traces hn hr.within hr.last).imp (fun a u halternative => ?_)
    (fun _ h => h) id
  obtain ⟨hreads, hall, hbrace⟩ := halternative
  refine readFrom_of_current hp (by rw [ht]; decide) rfl
    ⟨⟨ht, hconsequence.brace, hbrace⟩, hcondition.all, hconsequence.all, hall⟩ ?_
  rw [← List.append_assoc]
  exact (hr.trans hreads).of_tail

/-! ## Parameters -/

/-- Parameters come behind what was read before them. -/
theorem furtherParameters_traces {ns : List Token} (hp : p.Reads ts s ns) :
    (bounded (many furtherParameter) p).Meets
      (fun names q => q.Reads ts s (ns ++ names.map Identifier.token) ∧
        ∀ name ∈ names, name.Traced) (fun _ => True) True := by
  refine meets_bounded.mpr (meets_many (I := fun names q =>
    q.Reads ts s (ns ++ names.map Identifier.token) ∧ ∀ name ∈ names, name.Traced)
    (fun names q hq => ?_) ⟨by rwa [List.map_nil, List.append_nil], List.forall_mem_nil _⟩)
  obtain ⟨hreads, hnames⟩ := hq
  rw [furtherParameter, meets_bind, meets_peek, meets_ite]
  refine ⟨fun hcomma => ?_, fun _ => ⟨hreads, hnames⟩⟩
  have hq := hreads.skip (by rw [hcomma]; decide)
  rw [meets_bind, meets_advance, meets_map, parameter, meets_bind, meets_expect]
  refine ⟨fun hname => ⟨?_, ?_⟩, fun _ => trivial⟩
  · rw [List.map_append, ← List.append_assoc]
    exact hq.pick (by rw [hname]; decide) (by rw [hname]; decide)
  · exact List.forall_mem_append.mpr ⟨hnames, List.forall_mem_singleton.mpr ⟨hname, rfl⟩⟩

theorem parameters_traces (hp : p.Within ts) :
    (parameters p).Meets
      (fun names q => q.Reads ts p.ahead.tail (names.map Identifier.token) ∧
        ∀ name ∈ names, name.Traced) (fun _ => True) True := by
  rw [parameters, meets_bind, meets_peek, meets_ite]
  constructor
  · intro hclosing
    rw [meets_bind, meets_advance]
    have hlast : p.advance.current.kind ≠ .openParen := by
      rw [Parser.current_advance, hclosing]
      decide
    exact ⟨(Parser.Reads.nothing hp.advance hlast).of_tail, List.forall_mem_nil _⟩
  · intro _
    rw [parameter, meets_bind, meets_bind, meets_expect]
    refine ⟨fun hname => ?_, fun _ => trivial⟩
    have hfirst := hp.reads_peek (by rw [hname]; decide) (by rw [hname]; decide)
    rw [meets_pure, meets_bind]
    refine (furtherParameters_traces hfirst).imp (fun names q hq => ?_) (fun _ h => h) id
    rw [meets_bind, meets_expect]
    refine ⟨fun hclosing => ⟨hq.1.skip (by rw [hclosing]; decide), ?_⟩, fun _ => trivial⟩
    exact List.forall_mem_cons.mpr ⟨⟨hname, rfl⟩, hq.2⟩

theorem function_traces (hn : nested.Traces ts) (hp : p.Within ts) (ht : p.current.kind = .kwFn) :
    (function nested p).Meets (fun e q => e.ReadFrom ts p.ahead q) (fun _ => True) True := by
  rw [function, meets_bind, meets_current, meets_bind, meets_expect]
  refine ⟨fun _ => ?_, fun _ => trivial⟩
  rw [meets_bind]
  refine (parameters_traces hp.advance).imp (fun names q hq => ?_) (fun _ h => h) id
  obtain ⟨hreads, hnames⟩ := hq
  rw [meets_bind]
  refine (bracedBlock_traces hn hreads.within).imp (fun body r hbody => ?_) (fun _ h => h) id
  exact readFrom_of_current hp (by rw [ht]; decide) rfl ⟨⟨ht, hnames, hbody.brace⟩, hbody.all⟩
    (hreads.trans hbody.reads).of_tail

/-- **What a leading form reads** is picked from the source. -/
theorem leading_traces (hn : nested.Traces ts) (hp : p.Within ts) {form : LeadingForm}
    (hform : p.current.kind ∈ form.kinds) :
    (leading form nested p).Meets (fun e q => e.ReadFrom ts p.ahead q) (fun _ => True) True := by
  have heof : p.current.kind ≠ .eof := (LeadingForm.plain_of_mem_kinds hform).2.2.2
  cases form with
  | identifier =>
      have ht : p.current.kind = .identifier := List.mem_singleton.mp hform
      exact readFrom_of_current hp heof rfl ⟨ht, rfl⟩ (.nothing hp (by rw [ht]; decide))
  | integer => exact @integer_traces ts nested p hp (List.mem_singleton.mp hform)
  | boolean =>
      have ht : p.current.kind = .kwTrue ∨ p.current.kind = .kwFalse := by
        simpa [LeadingForm.kinds] using hform
      exact readFrom_of_current hp heof rfl ⟨ht, decide_eq_true_iff⟩
        (.nothing hp (by rcases ht with ht | ht <;> rw [ht] <;> decide))
  | unary =>
      have ht : p.current.kind = .bang ∨ p.current.kind = .minus := by
        simpa [LeadingForm.kinds] using hform
      rw [leading, unary, meets_bind, meets_current, meets_bind, meets_advance, meets_bind]
      refine (hn.expr _ hp.advance).imp (fun e q he => ?_) (fun _ h => h) id
      exact readFrom_of_current hp heof rfl ⟨⟨ht, rfl⟩, he.all⟩ he.reads
  | grouping =>
      rw [leading, grouping, meets_bind, meets_advance, meets_bind]
      refine (hn.expr _ hp.advance).imp (fun e q he => ?_) (fun _ h => h) id
      rw [meets_bind, meets_expect]
      refine ⟨fun hclosing => ?_, fun _ => trivial⟩
      refine ⟨(he.reads.skip (by rw [hclosing]; decide)).of_tail, he.all, ?_⟩
      -- the parenthesis leaves no node, and stands in front of the first one
      obtain ⟨opening, first, rest, hs, hopening, hfirst⟩ := he.starts
      refine ⟨p.current :: opening, first, rest, ?_, ?_, hfirst⟩
      · rw [hp.regular.ahead_eq_cons heof, List.cons_append, ← hs, Parser.ahead_advance]
      · exact List.forall_mem_cons.mpr ⟨List.mem_singleton.mp hform, hopening⟩
  | conditional => exact conditional_traces hn hp (List.mem_singleton.mp hform)
  | function => exact function_traces hn hp (List.mem_singleton.mp hform)

/-! ## Trailing forms -/

/-- Arguments come behind what was read before them. -/
theorem furtherArguments_traces (hn : nested.Traces ts) {ns : List Token}
    (hp : p.Reads ts s ns) :
    (bounded (many (furtherArgument nested)) p).Meets
      (fun es q => q.Reads ts s (ns ++ Expr.nodesArguments es) ∧
        Expr.AllArguments (traced ts) es) (fun _ => True) True := by
  refine meets_bounded.mpr (meets_many (I := fun es q =>
    q.Reads ts s (ns ++ Expr.nodesArguments es) ∧ Expr.AllArguments (traced ts) es)
    (fun es q hq => ?_) ⟨by rwa [Expr.nodesArguments, List.append_nil], trivial⟩)
  obtain ⟨hreads, hall⟩ := hq
  rw [furtherArgument, meets_bind, meets_peek, meets_ite]
  refine ⟨fun hcomma => ?_, fun _ => ⟨hreads, hall⟩⟩
  have hq := hreads.skip (by rw [hcomma]; decide)
  rw [meets_bind, meets_advance, meets_bind, meets_advance, meets_map]
  refine (hn.expr _ hq.within.advance).imp (fun e r he => ?_) (fun _ h => h) id
  refine ⟨?_, Expr.allArguments_append.mpr ⟨hall, he.all, trivial⟩⟩
  rw [Expr.nodesArguments_append, ← List.append_assoc, Expr.nodesArguments, Expr.nodesArguments,
    List.append_nil]
  exact hq.trans he.reads

theorem arguments_traces (hn : nested.Traces ts) (hp : p.Within ts) :
    (arguments nested p).Meets
      (fun es q => q.Reads ts p.ahead.tail (Expr.nodesArguments es) ∧
        Expr.AllArguments (traced ts) es) (fun _ => True) True := by
  rw [arguments, meets_bind, meets_peek, meets_ite]
  constructor
  · intro hclosing
    rw [meets_bind, meets_advance]
    have hlast : p.advance.current.kind ≠ .openParen := by
      rw [Parser.current_advance, hclosing]
      decide
    exact ⟨(Parser.Reads.nothing hp.advance hlast).of_tail, trivial⟩
  · intro _
    rw [meets_bind, meets_advance, meets_bind]
    refine (hn.expr _ hp.advance).imp (fun e q he => ?_) (fun _ h => h) id
    rw [meets_bind]
    refine (furtherArguments_traces hn he.reads).imp (fun es r hes => ?_) (fun _ h => h) id
    rw [meets_bind, meets_expect]
    exact ⟨fun hclosing => ⟨hes.1.skip (by rw [hclosing]; decide), he.all, hes.2⟩,
      fun _ => trivial⟩

/-! ## Expressions -/

theorem operand_traces (hn : nested.Traces ts) (hp : p.Within ts) :
    (operand nested p).Meets (fun e q => e.ReadFrom ts p.ahead q) (fun _ => True) True := by
  rw [operand, meets_bind, meets_current, meets_bind, meets_get]
  cases h : p.leadingForm? with
  | none => trivial
  | some form =>
      rw [Parser.leadingForm?, hp.regular.forms, Forms.leading_eq_some_iff] at h
      exact leading_traces hn hp h

/-- An operator is put behind its left operand, and so is what is read behind it. -/
theorem readFrom_of_peek {left e : Expr} (hleft : left.ReadFrom ts s p) {ns : List Token}
    (heof : p.peek.kind ≠ .eof) (hnodes : e.nodes = left.nodes ++ p.peek :: ns)
    (hall : e.All (traced ts)) (hreads : q.Reads ts p.ahead.tail.tail ns) :
    e.ReadFrom ts s q where
  reads := by
    rw [hnodes]
    exact hleft.reads.trans (hleft.reads.within.advance.reads_cons heof hreads)
  all := hall
  starts := by
    refine hleft.starts.of_head? fun t ht => ?_
    rw [hnodes, List.head?_append, ht]
    rfl

/-- **One more operator** keeps what has been read. -/
theorem continue?_traces (hn : nested.Traces ts) (floor : Precedence) {left : Expr}
    (hleft : left.ReadFrom ts s p) :
    (continue? floor left nested p).Meets
      (fun next q => next.elim (left.ReadFrom ts s q) fun e => e.ReadFrom ts s q)
      (fun _ => True) True := by
  have hp := hleft.reads.within
  rw [continue?, meets_bind, meets_get]
  cases h : continuation? floor p with
  | none => exact hleft
  | some form =>
      rw [hp.regular.continuation?_eq, Option.ite_none_right_eq_some] at h
      obtain ⟨-, hform⟩ := h
      have heof : p.peek.kind ≠ .eof := (Forms.plain_of_trailing hform).2.2.2
      rw [meets_bind, meets_advance, meets_map]
      cases form with
      | binary =>
          rw [trailing, binary, meets_bind, meets_current, meets_bind, meets_advance, meets_bind]
          refine (hn.expr _ hp.advance.advance).imp (fun e q he => ?_) (fun _ h => h) id
          refine readFrom_of_peek hleft heof rfl ⟨⟨?_, rfl⟩, hleft.all, he.all⟩ he.reads
          rw [Parser.current_advance]
          rw [Forms.trailing_eq_binary_iff] at hform
          revert hform
          cases p.peek.kind <;> decide
      | call =>
          rw [trailing, call, meets_bind, meets_current, meets_bind]
          refine (arguments_traces hn hp.advance).imp (fun es q hes => ?_) (fun _ h => h) id
          exact readFrom_of_peek hleft heof rfl
            ⟨Forms.trailing_eq_call_iff.mp hform, hleft.all, hes.2⟩ hes.1

/-- **What is read as an expression** is picked from the source. -/
theorem expression_traces (hn : nested.Traces ts) (hp : p.Within ts) (floor : Precedence) :
    (expression floor nested p).Meets (fun e q => e.ReadFrom ts p.ahead q) (fun _ => True)
      True := by
  refine meets_bind.mpr ((operand_traces hn hp).imp (fun left q hq => ?_) (fun _ h => h) id)
  exact meets_bounded.mpr (meets_iterate (I := fun left q => left.ReadFrom ts p.ahead q)
    (fun _ _ hleft => continue?_traces hn floor hleft) hq)

/-! ## Statements -/

/-- The end of a statement leaves no node. -/
theorem optional_traces {ns : List Token} (h : p.Reads ts s ns) :
    (optional .semicolon p).Meets (fun _ q => q.Reads ts s ns) (fun _ => True) True := by
  rw [meets_optional]
  exact ⟨fun hsemicolon => h.skip (by rw [hsemicolon]; decide), fun _ => h⟩

theorem binding_traces (hn : nested.Traces ts) (hp : p.Within ts)
    (ht : p.current.kind = .atSign) :
    (binding nested p).Meets (fun s q => q.Reads ts p.ahead s.nodes ∧ s.All (traced ts))
      (fun _ => True) True := by
  rw [binding, meets_bind, meets_current, meets_bind, meets_expect]
  refine ⟨fun hname => ?_, fun _ => trivial⟩
  have hq := hp.reads_peek (by rw [hname]; decide) (by rw [hname]; decide)
  rw [meets_bind, meets_expect]
  refine ⟨fun hassign => ?_, fun _ => trivial⟩
  have hr := hq.skip (by rw [hassign]; decide)
  rw [meets_bind, meets_advance, meets_bind]
  refine (hn.expr _ hr.within.advance).imp (fun value u hvalue => ?_) (fun _ h => h) id
  rw [meets_bind]
  refine (optional_traces (hr.trans hvalue.reads)).imp (fun _ v hv => ?_) (fun _ h => h) id
  exact ⟨hp.reads_cons (by rw [ht]; decide) hv, ⟨ht, hname, rfl⟩, hvalue.all⟩

theorem ret_traces (hn : nested.Traces ts) (hp : p.Within ts) (ht : p.current.kind = .kwRet) :
    (ret nested p).Meets (fun s q => q.Reads ts p.ahead s.nodes ∧ s.All (traced ts))
      (fun _ => True) True := by
  rw [ret, meets_bind, meets_current, returnedValue, meets_bind, meets_bind, meets_peek, meets_ite]
  constructor
  · intro _
    rw [meets_pure, meets_bind]
    refine (optional_traces (.nothing hp (by rw [ht]; decide))).imp (fun _ q hq => ?_)
      (fun _ h => h) id
    exact ⟨hp.reads_cons (by rw [ht]; decide) hq, ht, trivial⟩
  · intro _
    rw [meets_bind, meets_advance, meets_map]
    refine (hn.expr _ hp.advance).imp (fun value q hvalue => ?_) (fun _ h => h) id
    rw [meets_bind]
    refine (optional_traces hvalue.reads).imp (fun _ r hr => ?_) (fun _ h => h) id
    exact ⟨hp.reads_cons (by rw [ht]; decide) hr, ht, hvalue.all⟩

/-- An expression statement keeps the first token of its expression: no parenthesis
is left in front of it by what was read before. -/
theorem expressionStatement_traces (hn : nested.Traces ts) (hp : p.Starts ts)
    (heof : p.current.kind ≠ .eof) :
    (expressionStatement nested p).Meets
      (fun s q => q.Reads ts p.ahead s.nodes ∧ s.All (traced ts)) (fun _ => True) True := by
  rw [expressionStatement, meets_bind, meets_current, meets_bind]
  refine (hn.expr _ hp.within).imp (fun value q hvalue => ?_) (fun _ h => h) id
  rw [meets_bind]
  refine (optional_traces hvalue.reads).imp (fun _ r hr => ⟨hr, ?_, hvalue.all⟩) (fun _ h => h) id
  have hahead := hp.within.regular.ahead_eq_cons heof
  have hstarts := hvalue.starts
  rw [hahead] at hstarts
  have hends := hstarts.endsBlock_eq_false hvalue.all
  obtain ⟨front, hts, hfront⟩ := hp.fresh (fun hclose => by rw [hclose] at hends; cases hends) heof
  rw [hahead] at hts
  exact ⟨front, _, hts, hstarts.append [p.eof], hfront⟩

/-- **What is read as a statement** is picked from the source. -/
theorem statementForm_traces (hn : nested.Traces ts) (hp : p.Starts ts)
    (heof : p.current.kind ≠ .eof) :
    (statementForm p.statementForm nested p).Meets
      (fun s q => q.Reads ts p.ahead s.nodes ∧ s.All (traced ts)) (fun _ => True) True := by
  have hreg := hp.within.regular
  cases h : p.statementForm with
  | binding => exact binding_traces hn hp.within (hreg.statementForm_eq_binding_iff.mp h)
  | ret => exact ret_traces hn hp.within (hreg.statementForm_eq_ret_iff.mp h)
  | expression => exact expressionStatement_traces hn hp heof

/-- A statement that could not be read leaves tokens of the source, and behind them
another statement can start. -/
theorem statement_traces (hn : nested.Traces ts) (hp : p.Starts ts)
    (heof : p.current.kind ≠ .eof) :
    (statement nested p).Meets
      (fun result q => q.Within ts ∧ q.Fresh ∧ result.elim (q.ahead <:+ p.ahead) fun s =>
        Picked p.ahead q.ahead.tail s.nodes ∧ s.All (traced ts)) (fun _ => True) True := by
  rw [statement, meets_logged, meets_bind, meets_get, meets_bind, meets_attempt]
  have hempty := hp.withVisits []
  have hreaches := keeps_statementForm (Parser.invariant_reaches _).upholds (hn.keeps _).upholds
    p.statementForm _ (.refl { p with visits := [] })
  refine ((statementForm_traces hn hempty heof).and hreaches).imp (fun s q hq => ?_)
    (fun q hq => ?_) fun _ => trivial
  · obtain ⟨⟨hreads, hall⟩, -⟩ := hq
    exact ⟨hreads.within.withVisits _, .inl hreads.last, hreads.picked, hall⟩
  · have hrecover := hq.2.trans q.reaches_recover
    exact ⟨(hempty.within.of_reaches hrecover).withVisits _,
      (hempty.within.of_reaches hq.2).fresh_recover, hrecover.ahead⟩

/-! ## Runs of statements -/

/-- An item of a run of statements: what was picked for it, behind which another
statement can start, or none where the run is over. -/
def ItemTraces (ts : List Token) (ends : Token.Kind → Prop)
    (item : Parse (Option (Option Stmt))) : Prop :=
  ∀ p : Parser, p.Starts ts → (item p).Meets
    (fun next q => next.elim (q.Within ts ∧ q.ahead <:+ p.ahead ∧ ends q.current.kind) fun result =>
      q.Starts ts ∧ Picked p.ahead q.ahead (Stmt.nodesList result.toList) ∧
        Stmt.AllList (traced ts) result.toList) (fun _ => True) True

/-- A statement with the token behind it is an item. -/
theorem statement_item {result : Option Stmt}
    (h : q.Within ts ∧ q.Fresh ∧ result.elim (q.ahead <:+ p.ahead) fun s =>
      Picked p.ahead q.ahead.tail s.nodes ∧ s.All (traced ts)) :
    q.advance.Starts ts ∧ Picked p.ahead q.advance.ahead (Stmt.nodesList result.toList) ∧
      Stmt.AllList (traced ts) result.toList := by
  obtain ⟨hwithin, hfresh, hresult⟩ := h
  refine ⟨hwithin.starts_advance hfresh, ?_⟩
  cases result with
  | none => exact ⟨.of_suffix ((List.tail_suffix _).trans hresult), trivial⟩
  | some s =>
      rw [Option.toList_some, Stmt.nodesList, Stmt.nodesList, List.append_nil]
      exact ⟨hresult.1, hresult.2, trivial⟩

theorem blockItem_traces (hn : nested.Traces ts) :
    ItemTraces ts (fun k => k = .closeCurly ∨ k = .eof) (blockItem nested) := by
  intro p hp
  rw [blockItem, meets_bind, meets_current, meets_ite]
  refine ⟨fun hends => ⟨hp.within, List.suffix_refl _, by simpa [endsBlock] using hends⟩,
    fun hopen => ?_⟩
  have heof : p.current.kind ≠ .eof := fun heof => hopen (by rw [heof]; rfl)
  refine meets_bind.mpr ((statement_traces hn hp heof).imp (fun result q hq => ?_)
    (fun _ h => h) id)
  cases result with
  | some s => exact statement_item hq
  | none =>
      rw [meets_bind, meets_get, meets_ite]
      refine ⟨fun hinto => ?_, fun _ => statement_item hq⟩
      exact ⟨hq.1, hq.2.2, .inl (Parser.ranIntoClosingBrace_iff.mp hinto).1⟩

theorem programItem_traces (hn : nested.Traces ts) :
    ItemTraces ts (fun k => k = .eof) (programItem nested) := by
  intro p hp
  rw [programItem, meets_bind, meets_current, meets_ite]
  refine ⟨fun heof => ⟨hp.within, List.suffix_refl _, heof⟩, fun heof => ?_⟩
  exact meets_bind.mpr ((statement_traces hn hp heof).imp (fun _ _ hq => statement_item hq)
    (fun _ h => h) id)

/-- **What is read as a run of statements** is picked from the source. -/
theorem items_traces {ends : Token.Kind → Prop} {item : Parse (Option (Option Stmt))}
    (hitem : ItemTraces ts ends item) (hp : p.Starts ts) :
    (bounded (many item) p).Meets
      (fun items q => q.Within ts ∧ Picked p.ahead q.ahead (Stmt.nodesList (items.filterMap id)) ∧
        Stmt.AllList (traced ts) (items.filterMap id) ∧ ends q.current.kind) (fun _ => True)
      True := by
  refine meets_bounded.mpr (meets_many (I := fun items q => q.Starts ts ∧
    Picked p.ahead q.ahead (Stmt.nodesList (items.filterMap id)) ∧
      Stmt.AllList (traced ts) (items.filterMap id)) (fun items q hq => ?_)
    ⟨hp, .of_suffix (List.suffix_refl _), trivial⟩)
  obtain ⟨hstarts, hpicked, hall⟩ := hq
  refine (hitem q hstarts).imp (fun next r hr => ?_) (fun _ h => h) id
  cases next with
  | none =>
      obtain ⟨hwithin, hsuffix, hends⟩ := hr
      have hboth := hpicked.trans (.of_suffix hsuffix)
      rw [List.append_nil] at hboth
      exact ⟨hwithin, hboth, hall, hends⟩
  | some result =>
      obtain ⟨hstarts, hnext, hnextall⟩ := hr
      have hlist : (items ++ [result]).filterMap id = items.filterMap id ++ result.toList := by
        rw [List.filterMap_append]
        cases result <;> rfl
      rw [Option.elim_some, hlist, Stmt.nodesList_append, Stmt.allList_append]
      exact ⟨hstarts, hpicked.trans hnext, hall, hnextall⟩

/-- **What is read as a block** is picked from the source. -/
theorem block_traces (hn : nested.Traces ts) (hp : p.Within ts)
    (ht : p.current.kind = .openCurly) :
    (block nested p).Meets (fun b q => b.ReadFrom ts p.ahead q) (fun _ => True) True := by
  rw [block, meets_logged, meets_bind, meets_current, meets_bind, meets_advance, meets_bind]
  have hempty := hp.withVisits []
  refine (items_traces (blockItem_traces hn) (hempty.starts_advance (.inl (by
    show p.current.kind ≠ _
    rw [ht]
    decide)))).imp (fun items q hq => ?_) (fun _ h => h) id
  obtain ⟨hwithin, hpicked, hall, hends⟩ := hq
  have hlast : q.current.kind ≠ .openParen := by
    rcases hends with hends | hends <;> rw [hends] <;> decide
  have hreads : q.Reads ts p.ahead.tail (Stmt.nodesList (items.filterMap id)) :=
    ⟨hwithin, hpicked.tail, hlast⟩
  have hboth := hp.reads_cons (by rw [ht]; decide) hreads
  exact ⟨⟨hwithin.withVisits _, hboth.picked, hlast⟩, ⟨trivial, hall⟩, ht⟩

/-- **What is read as a program** is picked from the source. -/
theorem program_traces (hn : nested.Traces ts) (hp : p.Starts ts) :
    (program nested p).Meets
      (fun program _ => program.nodes.Sublist p.ahead ∧ program.All (traced ts)) (fun _ => True)
      True := by
  rw [program, meets_bind]
  refine (items_traces (programItem_traces hn) hp).imp (fun items q hq => ?_) (fun _ h => h) id
  exact ⟨hq.2.1.sublist, trivial, hq.2.2.1⟩

end Rule

/-- **What is read is picked from the source**, at every depth of nesting. -/
theorem Nested.traces_level (ts : List Token) (n : Nat) : (level n).Traces ts := by
  induction n with
  | zero => exact ⟨reaches_level 0, fun _ _ _ => trivial, fun _ _ => trivial⟩
  | succ n ih =>
      exact ⟨reaches_level (n + 1), fun floor _ hp => Rule.expression_traces ih hp floor,
        fun hp ht => Rule.block_traces ih hp ht⟩

/-! ## Programs -/

/-- The nodes of a program are picked from the tokens of its source. -/
theorem parse_traces (source : String) :
    (parse source).program.nodes.Sublist (Lexer.tokenize source) ∧
      (parse source).program.All (traced (Lexer.tokenize source)) := by
  obtain ⟨program, q, hrun, hparse⟩ := exists_parse_eq source
  have htraces := Rule.program_traces (Nested.traces_level (Lexer.tokenize source)
    ((Parser.ofSource source).ahead.length + 2)) (p := .ofSource source)
    (.of_source source)
  have hmeets : (Rule.program.run (Parser.ofSource source)).Meets _ _ _ := htraces
  rw [hrun, Outcome.meets_done] at hmeets
  obtain ⟨hsublist, hall⟩ := hmeets
  rw [hparse]
  refine ⟨hsublist.trans ?_, hall⟩
  rw [← Parser.ahead_ofSource source]
  exact List.sublist_append_left _ _

/-- **The nodes of a program come from its source**, whatever is wrong with it: in
the order of the source, each once, and saying what their tokens say.  In a source that
is shorter than 4 GiB their tokens start one behind the other. -/
theorem parse_provenance (source : String) :
    (parse source).program.nodes.Sublist (Lexer.tokenize source) ∧
      (source.utf8ByteSize < UInt32.size →
        (parse source).program.nodes.Pairwise fun t u => t.start < u.start) ∧
      (parse source).program.All (traced (Lexer.tokenize source)) := by
  obtain ⟨hsublist, hall⟩ := parse_traces source
  refine ⟨hsublist, fun hsize => ?_, hall⟩
  rw [← Parser.ahead_ofSource source] at hsublist
  exact ((Parser.ordered_ofSource hsize).ascending trivial).sublist hsublist

/-- In a longer source the second of two names may start in front of the first. -/
theorem parse_provenance_apart :
    ¬ (parse (apart " x;" ' ' (UInt32.size - 3) "y")).program.nodes.Pairwise
      fun t u => t.start < u.start := by
  have hturn : " x;".utf8ByteSize + (UInt32.size - 3) = UInt32.size + 0 := by decide +kernel
  rw [parse_apart (by decide) (by decide) hturn]
  decide +kernel

end ExprLang
