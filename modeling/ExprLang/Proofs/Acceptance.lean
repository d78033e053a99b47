/-
# Sources without errors

A source is read without an error exactly when its tokens are those of a program,
and then that program is the only one and is what is read.  Main statement:
`parse_errors_eq_nil_iff`.
-/
import ExprLang.Proofs.Completeness
import ExprLang.Proofs.Soundness

namespace ExprLang

/-- What is read without an error is derived. -/
theorem derivedFrom_of_errors_eq_nil {source : String} (h : (parse source).errors = []) :
    (parse source).program.DerivedFrom (Lexer.tokenize source).dropLast := by
  obtain ⟨program, q, hrun, hparse⟩ := exists_parse_eq source
  have hsound := Rule.program_sound
    (Nested.sound_level ((Parser.ofSource source).ahead.length + 2))
    (Parser.regular_ofSource source)
  rw [Rule.run] at hrun
  rw [hrun] at hsound
  rw [hparse] at h ⊢
  rw [← Parser.ahead_ofSource_eq_dropLast]
  exact (hsound.clean h).2

/-- What is derived is read without an error. -/
theorem parse_eq_of_derivedFrom {source : String} {program : Program}
    (h : program.DerivedFrom (Lexer.tokenize source).dropLast) :
    (parse source).program = program ∧ (parse source).errors = [] := by
  obtain ⟨result, q, hrun, hparse⟩ := exists_parse_eq source
  rw [← Parser.ahead_ofSource_eq_dropLast] at h
  have hcomplete := Rule.program_complete h (Parser.regular_ofSource source)
    ((Parser.ofSource source).ahead.length + 2)
  rw [Rule.run] at hrun
  rw [hrun] at hcomplete
  rw [hparse]
  exact ⟨hcomplete.1, hcomplete.2⟩

/-- **Sources without errors** are those with the tokens of a program, and a
program with these tokens is the one that is read. -/
theorem parse_errors_eq_nil_iff (source : String) :
    ((parse source).errors = [] ↔
        ∃ program : Program, program.DerivedFrom (Lexer.tokenize source).dropLast) ∧
      ∀ program : Program, program.DerivedFrom (Lexer.tokenize source).dropLast →
        program = (parse source).program := by
  refine ⟨⟨fun h => ⟨_, derivedFrom_of_errors_eq_nil h⟩, ?_⟩, fun program h => ?_⟩
  · rintro ⟨program, h⟩
    exact (parse_eq_of_derivedFrom h).2
  · exact (parse_eq_of_derivedFrom h).1.symm

end ExprLang
