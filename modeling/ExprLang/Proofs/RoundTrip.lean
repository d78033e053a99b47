/-
# Rendering and reading back

Which programs are read back from their own text.  Two things can go wrong with
a well-formed program: a condition without parentheses is refused, and a
statement that runs into the next one is read as a call.  Main statement:
`parse_render_iff` (nothing else can).
-/
import ExprLang.Proofs.Guards

namespace ExprLang

/-- **A guarded program is read back without an error**, as what its statements
are when each is joined to the next one that it runs into. -/
theorem parse_render_of_ifsGuarded (p : Program) (hp : p.WellFormed) (hg : p.IfsGuarded) :
    (parse p.render).errors = [] ∧ (parse p.render).program.bare = p.reread := by
  obtain ⟨r, hr, hderived⟩ := p.exists_derivedFrom hp hg (p.lexeme_tokenize_render hp)
  obtain ⟨hprogram, herrors⟩ := parse_eq_of_derivedFrom hderived
  exact ⟨herrors, by rw [hprogram, hr]⟩

/-- **Rendering is undone by reading**, up to tokens, exactly for the programs in
which every conditional tests an operation and no statement runs into the next
one. -/
theorem parse_render_iff (p : Program) (hp : p.WellFormed) :
    (parse p.render).errors = [] ∧ (parse p.render).program.bare = p.bare ↔
      p.IfsGuarded ∧ p.Separated := by
  constructor
  · rintro ⟨herrors, hbare⟩
    have hg := p.ifsGuarded_of_errors_eq_nil hp herrors
    obtain ⟨-, hreread⟩ := parse_render_of_ifsGuarded p hp hg
    exact ⟨hg, (p.reread_eq_bare_iff hp).mp (hreread.symm.trans hbare)⟩
  · rintro ⟨hg, hs⟩
    obtain ⟨herrors, hreread⟩ := parse_render_of_ifsGuarded p hp hg
    exact ⟨herrors, hreread.trans ((p.reread_eq_bare_iff hp).mpr hs)⟩

/-- A program with an operator, a call or a block in each place that rendering
has to mark: `f` bound to a function of `n` and `m` whose body is a conditional,
and behind it a call of `f` with the largest integer. -/
def Program.sample : Program :=
  let token (text : String) : Token := ⟨.illegal, text, 0, 0⟩
  let name (text : String) : Identifier := ⟨token text, text⟩
  let n := Expr.identifier (name "n")
  let m := Expr.identifier (name "m")
  let consequence := Block.mk default [.ret (token "ret") (some (.unary default "-" n))]
  let alternative :=
    Block.mk default [.expression default (.call default (.unary default "!" m) [n])]
  let choice := Expr.conditional default (.binary default "<" n m) consequence (some alternative)
  let body := Block.mk default [.expression default choice, .ret (token "ret") none]
  ⟨[.binding (token "@") (name "f") (.function (token "fn") [name "n", name "m"] body),
    .expression default (.call default (.identifier (name "f"))
      [.integer default Text.maxInteger, .boolean default true])]⟩

/-- The sample is read back. -/
theorem parse_render_sample :
    Program.sample.WellFormed ∧ (parse Program.sample.render).errors = [] ∧
      (parse Program.sample.render).program.bare = Program.sample.bare :=
  ⟨by decide, (parse_render_iff Program.sample (by decide)).mpr ⟨by decide, by decide⟩⟩

end ExprLang
