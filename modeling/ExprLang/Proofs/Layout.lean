/-
# What the layout of a source does not change

Two sources with the same lexemes differ only in the blanks between them.  The
two are read side by side: the parser compares places in the source, to find out
whether a statement broke on a closing brace, but below 4 GiB the places of two tokens
are ordered as the tokens are numbered.  Main statements: `parse_layout` (the program
but for the places of its tokens, the messages, and the numbers of the tokens that
the errors point at are the same) and, from 4 GiB on, `parse_layout_apart`.
-/
import ExprLang.Proofs.Alignment
import ExprLang.Proofs.Lexemes
import ExprLang.Proofs.Wrapping

namespace ExprLang

/-! ## Programs without places -/

/-- A token without its place. -/
def Token.unplaced (t : Token) : Token :=
  { t with start := 0, stop := 0 }

/-- A program without the places of its tokens. -/
def Program.unplaced (p : Program) : Program :=
  ⟨p.statements.map (Stmt.map Token.unplaced)⟩

/-! ## Tokens with the same number -/

/-- Tokens with the same number in two lists. -/
def Token.SameNumber (ts us : List Token) (t u : Token) : Prop :=
  ∃ i : Nat, ts[i]? = some t ∧ us[i]? = some u

/-- Errors with the same cause that point at tokens with the same number. -/
def SyntaxError.SameNumber (ts us : List Token) (e f : SyntaxError) : Prop :=
  e.cause = f.cause ∧
    ∃ t u, Token.SameNumber ts us t u ∧ e.position = t.start ∧ f.position = u.start

namespace Token.SameNumber

variable {ts us : List Token} {t u : Token}

theorem cons {a b : Token} (h : SameNumber ts us t u) : SameNumber (a :: ts) (b :: us) t u := by
  obtain ⟨i, ht, hu⟩ := h
  exact ⟨i + 1, ht, hu⟩

/-- Lists of the same length have tokens with the same numbers, whatever stands
behind them. -/
theorem forall₂ {front front' : List Token} (h : front.length = front'.length) :
    List.Forall₂ (SameNumber (front ++ ts) (front' ++ us)) front front' := by
  induction front generalizing front' with
  | nil =>
      cases front' with
      | nil => exact .nil
      | cons => cases h
  | cons t front ih =>
      cases front' with
      | nil => cases h
      | cons u front' =>
          exact .cons ⟨0, rfl, rfl⟩ ((ih (Nat.succ.inj h)).imp fun _ _ hboth => hboth.cons)

section Lexemes

variable (h : SameNumber ts us t u) (hlexemes : ts.map lexeme = us.map lexeme)
include h hlexemes

/-- Where the lexemes are the same, tokens with the same number have the same one. -/
theorem lexeme_eq : t.lexeme = u.lexeme := by
  obtain ⟨i, ht, hu⟩ := h
  have hmap : (ts.map lexeme)[i]? = (us.map lexeme)[i]? := by rw [hlexemes]
  rwa [List.getElem?_map, List.getElem?_map, ht, hu, Option.map_some, Option.map_some,
    Option.some.injEq] at hmap

theorem kind_eq : t.kind = u.kind :=
  congrArg Lexeme.kind (h.lexeme_eq hlexemes)

theorem text_eq : t.text = u.text :=
  String.toList_inj.mp (congrArg Lexeme.chars (h.lexeme_eq hlexemes))

theorem unplaced_eq : t.unplaced = u.unplaced := by
  rw [unplaced, unplaced, h.kind_eq hlexemes, h.text_eq hlexemes]

end Lexemes

end Token.SameNumber

/-- Errors with the same causes have the same messages. -/
theorem SyntaxError.SameNumber.map_message_eq {ts us : List Token} {es fs : List SyntaxError}
    (h : List.Forall₂ (SyntaxError.SameNumber ts us) es fs) :
    es.map SyntaxError.message = fs.map SyntaxError.message := by
  induction h with
  | nil => rfl
  | cons hboth _ ih =>
      rw [List.map_cons, List.map_cons, ih, SyntaxError.message, SyntaxError.message, hboth.1]

/-! ## Sources with the same lexemes -/

section Layouts

variable {a b : String}
  (h : (Lexer.tokenize a).map Token.lexeme = (Lexer.tokenize b).map Token.lexeme)
include h

/-- The tokens ahead of two sources with the same lexemes have the same numbers, and
so have the end markers. -/
theorem Parser.sameNumber_ofSource :
    List.Forall₂ (Token.SameNumber (Lexer.tokenize a) (Lexer.tokenize b))
        (ofSource a).ahead (ofSource b).ahead ∧
      Token.SameNumber (Lexer.tokenize a) (Lexer.tokenize b) (ofSource a).eof
        (ofSource b).eof := by
  have hlength := congrArg List.length h
  rw [List.length_map, List.length_map, ← ahead_ofSource a, ← ahead_ofSource b,
    List.length_append, List.length_append] at hlength
  have hahead : (ofSource a).ahead.length = (ofSource b).ahead.length := Nat.succ.inj hlength
  rw [← ahead_ofSource a, ← ahead_ofSource b]
  refine ⟨Token.SameNumber.forall₂ hahead, (ofSource a).ahead.length, by simp, ?_⟩
  rw [hahead]
  simp

/-- Sources with the same lexemes, side by side. -/
def Alignment.layouts : Alignment :=
  .pointwise (Token.SameNumber (Lexer.tokenize a) (Lexer.tokenize b)) (Parser.ofSource a).eof
    (Parser.ofSource b).eof
    (List.Forall₂ (SyntaxError.SameNumber (Lexer.tokenize a) (Lexer.tokenize b)))
    (fun htu => htu.kind_eq h) (fun htu => htu.text_eq h) (Parser.sameNumber_ofSource h).2
    (fun cause herrors htu => List.rel_append herrors
      (.cons ⟨by rw [htu.kind_eq h, htu.text_eq h], _, _, htu, rfl, rfl⟩ .nil))

/-- **Blanks between tokens change nothing but places**: sources with the same
lexemes, well-formed or not, have the same program up to places and the same
messages, and their errors point at tokens with the same numbers.  Both sources are
shorter than 4 GiB. -/
theorem parse_layout (hsize : a.utf8ByteSize < UInt32.size)
    (hsize' : b.utf8ByteSize < UInt32.size) :
    (parse a).program.unplaced = (parse b).program.unplaced ∧
      (parse a).messages = (parse b).messages ∧
      List.Forall₂ (SyntaxError.SameNumber (Lexer.tokenize a) (Lexer.tokenize b))
        (parse a).errors (parse b).errors := by
  obtain ⟨hstatements, herrors⟩ := (Alignment.layouts h).parse_alike (fun _ _ h => h)
    ⟨Parser.ordered_ofSource hsize, Parser.ordered_ofSource hsize', rfl, rfl,
      (Parser.sameNumber_ofSource h).1, .nil⟩
  have hmap := Stmt.mapList_eq_of_alike (fun _ _ htu => Token.SameNumber.unplaced_eq htu h) _ _
    hstatements
  rw [Stmt.mapList_eq_map, Stmt.mapList_eq_map] at hmap
  exact ⟨congrArg Program.mk hmap, SyntaxError.SameNumber.map_message_eq herrors, herrors⟩

end Layouts

/-- A broken statement, a broken block and a stray brace, with and without blanks. -/
theorem parse_layout_sample :
    "@1;if(c)\x7b!\x7d;\x7dx+".utf8ByteSize < UInt32.size ∧
      "@ 1 ;\n  if ( c ) \x7b\t! \x7d ;\n\x7d\nx +\n".utf8ByteSize < UInt32.size ∧
      (Lexer.tokenize "@1;if(c)\x7b!\x7d;\x7dx+").map Token.lexeme =
        (Lexer.tokenize "@ 1 ;\n  if ( c ) \x7b\t! \x7d ;\n\x7d\nx +\n").map Token.lexeme ∧
      (parse "@1;if(c)\x7b!\x7d;\x7dx+").program.unplaced =
        (parse "@ 1 ;\n  if ( c ) \x7b\t! \x7d ;\n\x7d\nx +\n").program.unplaced ∧
      (parse "@ 1 ;\n  if ( c ) \x7b\t! \x7d ;\n\x7d\nx +\n").errors.length = 4 := by
  have h : (Lexer.tokenize "@1;if(c)\x7b!\x7d;\x7dx+").map Token.lexeme =
      (Lexer.tokenize "@ 1 ;\n  if ( c ) \x7b\t! \x7d ;\n\x7d\nx +\n").map Token.lexeme := by
    decide +kernel
  have hsize : "@1;if(c)\x7b!\x7d;\x7dx+".utf8ByteSize < UInt32.size := by decide +kernel
  have hsize' : "@ 1 ;\n  if ( c ) \x7b\t! \x7d ;\n\x7d\nx +\n".utf8ByteSize < UInt32.size := by
    decide +kernel
  obtain ⟨hprogram, -, herrors⟩ := parse_layout h hsize hsize'
  refine ⟨hsize, hsize', h, hprogram, herrors.length_eq.symm.trans ?_⟩
  decide +kernel

/-- With 4 GiB of blanks an error behind a closing brace may be taken to be on the brace. -/
theorem parse_layout_apart :
    (Lexer.tokenize (apart "f(fn() \x7b\x7d" ' ' (UInt32.size - 1) "3); z")).map Token.lexeme =
        (Lexer.tokenize "f(fn() \x7b\x7d 3); z").map Token.lexeme ∧
      (parse (apart "f(fn() \x7b\x7d" ' ' (UInt32.size - 1) "3); z")).messages ≠
        (parse "f(fn() \x7b\x7d 3); z").messages := by
  have hturn : "f(fn() \x7b\x7d".utf8ByteSize + (UInt32.size - 1) = UInt32.size + 8 := by
    decide +kernel
  rw [parse_apart (by decide) (by decide) hturn,
    Lexer.tokenize_apart_of_turn (by decide) (by decide) hturn]
  decide +kernel

end ExprLang
