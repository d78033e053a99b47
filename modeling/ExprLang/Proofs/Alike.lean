/-
# Trees that are alike

Two trees are alike when they have the same shape and say the same at each node,
while their tokens only have to go together in a given way.  Blocks may be
exempted by their opening brace: what they hold is then not compared.  Main
statements: `Stmt.map_eq_map_of_alike` (alike trees become equal when tokens that go
together are replaced by the same one), `Stmt.eq_mapList_of_alike` (if the tokens of
one tree are a function of those of the other, then so is the tree) and
`Stmt.map_id`.
-/
import ExprLang.Tree.Basic
import Mathlib.Data.List.Forall2

namespace ExprLang

/-! ## Trees whose tokens go together -/

/-- Names that are the same and whose tokens go together. -/
structure Identifier.Alike (T : Token → Token → Prop) (i j : Identifier) : Prop where
  token : T i.token j.token
  name : i.name = j.name

section

variable (T : Token → Token → Prop) (free : Token → Prop)

mutual

/-- Expressions that differ only in their tokens, which go together, and in the
blocks behind exempted braces. -/
inductive Expr.Alike : Expr → Expr → Prop where
  | identifier {i j : Identifier} (name : Identifier.Alike T i j) :
      Expr.Alike (.identifier i) (.identifier j)
  | integer {t u : Token} (value : Int) (token : T t u) :
      Expr.Alike (.integer t value) (.integer u value)
  | boolean {t u : Token} (value : Bool) (token : T t u) :
      Expr.Alike (.boolean t value) (.boolean u value)
  | unary {t u : Token} {x y : Expr} (operator : String) (token : T t u)
      (operand : Expr.Alike x y) : Expr.Alike (.unary t operator x) (.unary u operator y)
  | binary {t u : Token} {x y x' y' : Expr} (operator : String) (token : T t u)
      (left : Expr.Alike x y) (right : Expr.Alike x' y') :
      Expr.Alike (.binary t operator x x') (.binary u operator y y')
  | conditional {t u : Token} {x y : Expr} {b c : Block} {b' c' : Option Block} (token : T t u)
      (condition : Expr.Alike x y) (consequence : Block.Alike b c)
      (alternative : Option.Rel Block.Alike b' c') :
      Expr.Alike (.conditional t x b b') (.conditional u y c c')
  | function {t u : Token} {is js : List Identifier} {b c : Block} (token : T t u)
      (parameters : List.Forall₂ (Identifier.Alike T) is js) (body : Block.Alike b c) :
      Expr.Alike (.function t is b) (.function u js c)
  | call {t u : Token} {x y : Expr} {xs ys : List Expr} (token : T t u) (callee : Expr.Alike x y)
      (arguments : List.Forall₂ Expr.Alike xs ys) : Expr.Alike (.call t x xs) (.call u y ys)

/-- Statements that differ in no more than expressions may. -/
inductive Stmt.Alike : Stmt → Stmt → Prop where
  | binding {t u : Token} {i j : Identifier} {x y : Expr} (token : T t u)
      (name : Identifier.Alike T i j) (value : Expr.Alike x y) :
      Stmt.Alike (.binding t i x) (.binding u j y)
  | ret {t u : Token} {x y : Option Expr} (token : T t u) (value : Option.Rel Expr.Alike x y) :
      Stmt.Alike (.ret t x) (.ret u y)
  | expression {t u : Token} {x y : Expr} (token : T t u) (value : Expr.Alike x y) :
      Stmt.Alike (.expression t x) (.expression u y)

/-- Blocks that differ in no more than expressions may, or that open with an
exempted brace. -/
inductive Block.Alike : Block → Block → Prop where
  | body {t u : Token} {ss rs : List Stmt} (token : T t u)
      (body : List.Forall₂ Stmt.Alike ss rs) : Block.Alike (.mk t ss) (.mk u rs)
  | exempt {t u : Token} (ss rs : List Stmt) (token : T t u) (hfree : free t) :
      Block.Alike (.mk t ss) (.mk u rs)

end

end

/-! ## Replacing the tokens of a tree -/

/-- A name with its token replaced. -/
def Identifier.map (f : Token → Token) (i : Identifier) : Identifier :=
  ⟨f i.token, i.name⟩

mutual

/-- An expression with every token replaced. -/
def Expr.map (f : Token → Token) : Expr → Expr
  | .identifier name => .identifier (name.map f)
  | .integer token value => .integer (f token) value
  | .boolean token value => .boolean (f token) value
  | .unary token operator operand => .unary (f token) operator (operand.map f)
  | .binary token operator left right => .binary (f token) operator (left.map f) (right.map f)
  | .conditional token condition consequence alternative =>
      .conditional (f token) (condition.map f) (consequence.map f) (Expr.mapElse f alternative)
  | .function token parameters body =>
      .function (f token) (parameters.map (Identifier.map f)) (body.map f)
  | .call token callee arguments =>
      .call (f token) (callee.map f) (Expr.mapArguments f arguments)

/-- Some expressions with every token replaced. -/
def Expr.mapArguments (f : Token → Token) : List Expr → List Expr
  | [] => []
  | x :: xs => x.map f :: Expr.mapArguments f xs

/-- An optional block with every token replaced. -/
def Expr.mapElse (f : Token → Token) : Option Block → Option Block
  | none => none
  | some b => some (b.map f)

/-- A statement with every token replaced. -/
def Stmt.map (f : Token → Token) : Stmt → Stmt
  | .binding token name value => .binding (f token) (name.map f) (value.map f)
  | .ret token value => .ret (f token) (Stmt.mapValue f value)
  | .expression token value => .expression (f token) (value.map f)

/-- An optional expression with every token replaced. -/
def Stmt.mapValue (f : Token → Token) : Option Expr → Option Expr
  | none => none
  | some x => some (x.map f)

/-- Some statements with every token replaced. -/
def Stmt.mapList (f : Token → Token) : List Stmt → List Stmt
  | [] => []
  | s :: ss => s.map f :: Stmt.mapList f ss

/-- A block with every token replaced. -/
def Block.map (f : Token → Token) : Block → Block
  | .mk token body => .mk (f token) (Stmt.mapList f body)

end

theorem Stmt.mapList_eq_map (f : Token → Token) (ss : List Stmt) :
    Stmt.mapList f ss = ss.map (Stmt.map f) := by
  induction ss with
  | nil => rfl
  | cons s ss ih => rw [Stmt.mapList, ih, List.map_cons]

mutual

theorem Expr.map_id : (x : Expr) → x.map id = x
  | .identifier _ => rfl
  | .integer _ _ => rfl
  | .boolean _ _ => rfl
  | .unary _ _ x => by rw [Expr.map, x.map_id, id]
  | .binary _ _ x y => by rw [Expr.map, x.map_id, y.map_id, id]
  | .conditional _ x b c => by rw [Expr.map, x.map_id, b.map_id, Expr.mapElse_id c, id]
  | .function _ is b => by
      have hnames : is.map (Identifier.map id) = is := List.map_id is
      rw [Expr.map, hnames, b.map_id, id]
  | .call _ x xs => by rw [Expr.map, x.map_id, Expr.mapArguments_id xs, id]

theorem Expr.mapArguments_id : (xs : List Expr) → Expr.mapArguments id xs = xs
  | [] => rfl
  | x :: xs => by rw [Expr.mapArguments, x.map_id, Expr.mapArguments_id xs]

theorem Expr.mapElse_id : (b : Option Block) → Expr.mapElse id b = b
  | none => rfl
  | some b => by rw [Expr.mapElse, b.map_id]

/-- Replacing each token by itself changes nothing. -/
theorem Stmt.map_id : (s : Stmt) → s.map id = s
  | .binding _ _ x => by
      rw [Stmt.map, x.map_id]
      rfl
  | .ret _ x => by rw [Stmt.map, Stmt.mapValue_id x, id]
  | .expression _ x => by rw [Stmt.map, x.map_id, id]

theorem Stmt.mapValue_id : (x : Option Expr) → Stmt.mapValue id x = x
  | none => rfl
  | some x => by rw [Stmt.mapValue, x.map_id]

theorem Stmt.mapList_id : (ss : List Stmt) → Stmt.mapList id ss = ss
  | [] => rfl
  | s :: ss => by rw [Stmt.mapList, s.map_id, Stmt.mapList_id ss]

theorem Block.map_id : (b : Block) → b.map id = b
  | .mk _ ss => by rw [Block.map, Stmt.mapList_id ss, id]

end

/-! ## Alike trees with their tokens replaced -/

section

variable {T : Token → Token → Prop} {f g : Token → Token}

theorem Identifier.Alike.map_eq_map (hT : ∀ t u, T t u → f t = g u) {i j : Identifier}
    (h : i.Alike T j) : i.map f = j.map g := by
  rw [Identifier.map, Identifier.map, hT _ _ h.token, h.name]

theorem Identifier.Alike.map_eq_map_list (hT : ∀ t u, T t u → f t = g u)
    {is js : List Identifier} (h : List.Forall₂ (Identifier.Alike T) is js) :
    is.map (Identifier.map f) = js.map (Identifier.map g) := by
  induction h with
  | nil => rfl
  | cons hname _ ih => rw [List.map_cons, List.map_cons, hname.map_eq_map hT, ih]

-- by recursion on the tree: recursion on the likeness is slow to check
mutual

theorem Expr.map_eq_map_of_alike (hT : ∀ t u, T t u → f t = g u) :
    (x y : Expr) → x.Alike T (fun _ => False) y → x.map f = y.map g
  | .identifier _, _, h => by
      cases h with | identifier hname => rw [Expr.map, Expr.map, hname.map_eq_map hT]
  | .integer _ _, _, h => by
      cases h with | integer _ ht => rw [Expr.map, Expr.map, hT _ _ ht]
  | .boolean _ _, _, h => by
      cases h with | boolean _ ht => rw [Expr.map, Expr.map, hT _ _ ht]
  | .unary _ _ x, _, h => by
      cases h with
      | unary _ ht hx => rw [Expr.map, Expr.map, hT _ _ ht, x.map_eq_map_of_alike hT _ hx]
  | .binary _ _ x y, _, h => by
      cases h with
      | binary _ ht hx hy =>
          rw [Expr.map, Expr.map, hT _ _ ht, x.map_eq_map_of_alike hT _ hx,
            y.map_eq_map_of_alike hT _ hy]
  | .conditional _ x b c, _, h => by
      cases h with
      | conditional ht hx hb hc =>
          rw [Expr.map, Expr.map, hT _ _ ht, x.map_eq_map_of_alike hT _ hx,
            b.map_eq_map_of_alike hT _ hb, Expr.mapElse_eq_of_alike hT c _ hc]
  | .function _ _ b, _, h => by
      cases h with
      | function ht hnames hb =>
          rw [Expr.map, Expr.map, hT _ _ ht, b.map_eq_map_of_alike hT _ hb,
            Identifier.Alike.map_eq_map_list hT hnames]
  | .call _ x xs, _, h => by
      cases h with
      | call ht hx hxs =>
          rw [Expr.map, Expr.map, hT _ _ ht, x.map_eq_map_of_alike hT _ hx,
            Expr.mapArguments_eq_of_alike hT xs _ hxs]
termination_by structural x => x

theorem Expr.mapArguments_eq_of_alike (hT : ∀ t u, T t u → f t = g u) :
    (xs ys : List Expr) → List.Forall₂ (Expr.Alike T (fun _ => False)) xs ys →
      Expr.mapArguments f xs = Expr.mapArguments g ys
  | [], _, .nil => rfl
  | x :: xs, _, .cons hx hxs => by
      rw [Expr.mapArguments, Expr.mapArguments, x.map_eq_map_of_alike hT _ hx,
        Expr.mapArguments_eq_of_alike hT xs _ hxs]
termination_by structural x => x

theorem Expr.mapElse_eq_of_alike (hT : ∀ t u, T t u → f t = g u) :
    (b c : Option Block) → Option.Rel (Block.Alike T (fun _ => False)) b c →
      Expr.mapElse f b = Expr.mapElse g c
  | none, _, .none => rfl
  | some b, _, .some hb => by rw [Expr.mapElse, Expr.mapElse, b.map_eq_map_of_alike hT _ hb]
termination_by structural x => x

/-- **Alike trees become equal** when tokens that go together are replaced by the
same token. -/
theorem Stmt.map_eq_map_of_alike (hT : ∀ t u, T t u → f t = g u) :
    (s r : Stmt) → s.Alike T (fun _ => False) r → s.map f = r.map g
  | .binding _ _ x, _, h => by
      cases h with
      | binding ht hname hx =>
          rw [Stmt.map, Stmt.map, hT _ _ ht, x.map_eq_map_of_alike hT _ hx, hname.map_eq_map hT]
  | .ret _ x, _, h => by
      cases h with
      | ret ht hx => rw [Stmt.map, Stmt.map, hT _ _ ht, Stmt.mapValue_eq_of_alike hT x _ hx]
  | .expression _ x, _, h => by
      cases h with
      | expression ht hx => rw [Stmt.map, Stmt.map, hT _ _ ht, x.map_eq_map_of_alike hT _ hx]
termination_by structural x => x

theorem Stmt.mapValue_eq_of_alike (hT : ∀ t u, T t u → f t = g u) :
    (x y : Option Expr) → Option.Rel (Expr.Alike T (fun _ => False)) x y →
      Stmt.mapValue f x = Stmt.mapValue g y
  | none, _, .none => rfl
  | some x, _, .some hx => by rw [Stmt.mapValue, Stmt.mapValue, x.map_eq_map_of_alike hT _ hx]
termination_by structural x => x

theorem Stmt.mapList_eq_of_alike (hT : ∀ t u, T t u → f t = g u) :
    (ss rs : List Stmt) → List.Forall₂ (Stmt.Alike T (fun _ => False)) ss rs →
      Stmt.mapList f ss = Stmt.mapList g rs
  | [], _, .nil => rfl
  | s :: ss, _, .cons hs hss => by
      rw [Stmt.mapList, Stmt.mapList, s.map_eq_map_of_alike hT _ hs,
        Stmt.mapList_eq_of_alike hT ss _ hss]
termination_by structural x => x

theorem Block.map_eq_map_of_alike (hT : ∀ t u, T t u → f t = g u) :
    (b c : Block) → b.Alike T (fun _ => False) c → b.map f = c.map g
  | .mk _ ss, _, h => by
      cases h with
      | body ht hss => rw [Block.map, Block.map, hT _ _ ht, Stmt.mapList_eq_of_alike hT ss _ hss]
      | exempt _ _ _ hfree => exact hfree.elim
termination_by structural x => x

end

end

/-- **Trees alike by a function of tokens**: statements like others, with each
token the value of a function at the other's, are those with their tokens
replaced. -/
theorem Stmt.eq_mapList_of_alike {f : Token → Token} (ss rs : List Stmt)
    (h : List.Forall₂ (Stmt.Alike (fun t u => u = f t) (fun _ => False)) ss rs) :
    rs = Stmt.mapList f ss := by
  have heq := Stmt.mapList_eq_of_alike (f := f) (g := id) (fun _ _ hu => hu.symm) ss rs h
  rw [heq, Stmt.mapList_id rs]

end ExprLang
