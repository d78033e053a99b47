/-
# Where the caret stands

The columns of a report, counted in characters.  The caret is put under a token by the
bytes in front of it (`Pointing`), so it is moved to the right by all that the characters
there take beyond one byte each, in a source that is shorter than 4 GiB.  Main
statement: `caretColumn_eq_tokenColumn_iff`.
-/
import ExprLang.Proofs.Reports

namespace ExprLang

open Text

/-! ## Bytes and characters -/

namespace Text

/-- No text has more characters than bytes. -/
theorem length_le_byteLength (cs : List Char) : cs.length ≤ byteLength cs := by
  induction cs with
  | nil => exact Nat.le_refl 0
  | cons c cs ih =>
      have hpos := c.utf8Size_pos
      rw [List.length_cons, byteLength_cons]
      omega

/-- Only one-byte characters make a text with as many bytes as characters. -/
theorem byteLength_eq_length_iff {cs : List Char} :
    byteLength cs = cs.length ↔ ∀ c ∈ cs, c.utf8Size = 1 := by
  refine ⟨fun h => ?_, byteLength_eq_length⟩
  induction cs with
  | nil => exact List.forall_mem_nil _
  | cons c cs ih =>
      have hpos := c.utf8Size_pos
      have hle := length_le_byteLength cs
      rw [byteLength_cons, List.length_cons] at h
      exact List.forall_mem_cons.mpr ⟨by omega, ih (by omega)⟩

end Text

/-! ## Tokens and carets -/

/-- How the report on an error shows a token of the source.  The third of its four lines
has the number of the line, then the line of the source without its indentation: what is
in front of the token, the token and what is shown behind it. -/
structure Pointing (source : String) (e : SyntaxError) (t : Token) : Type where
  heading : String
  bar : String
  line : String
  pointer : String
  lines_eq : (Report.ofError source e).lines = [heading, bar, line, pointer]
  margin : List Char
  before : List Char
  after : List Char
  margin_eq : margin = (toString (Report.ofError source e).line ++ " | ").toList
  line_eq : line.toList = margin ++ (before ++ (t.text.toList ++ after))
  /-- The lines of the source in front. -/
  front : List Char
  indent : List Char
  /-- The source behind the token. -/
  back : List Char
  source_eq : source.toList = front ++ (indent ++ (before ++ (t.text.toList ++ back)))
  start_eq : t.start.toNat = byteLength (front ++ (indent ++ before))
  begins : ∀ c ∈ front.getLast?, c = '\n'
  isIndent_indent : ∀ c ∈ indent, isIndent c
  unbroken : '\n' ∉ before

namespace Pointing

variable {source : String} {e : SyntaxError} {t : Token}

/-- The column of the first character of the token in its line. -/
def tokenColumn (p : Pointing source e t) : Nat :=
  (p.margin ++ p.before).length

/-- The column of the caret in the line below. -/
def caretColumn (p : Pointing source e t) : Nat :=
  p.pointer.toList.idxOf '^'

/-- The caret is in the column that its report has, behind a margin as wide as that of the
line. -/
theorem caretColumn_eq (p : Pointing source e t) :
    p.caretColumn = p.margin.length + (Report.ofError source e).caret := by
  generalize hr : Report.ofError source e = r
  have hlines := p.lines_eq
  have hmargin := p.margin_eq
  rw [hr] at hlines hmargin
  have hpointer : p.pointer = r.margin ++ " " ++ rightAligned '-' (r.caret + 1) '^' := by
    have hlast := congrArg List.getLast? hlines
    exact (Option.some.inj hlast).symm
  have hlist : p.pointer.toList =
      (List.replicate ((toString r.line).length + 1) ' ' ++ ['|', ' '] ++
        List.replicate r.caret '-') ++ ['^'] := by
    simp [hpointer, Report.margin, rightAligned]
  have hnot : '^' ∉ List.replicate ((toString r.line).length + 1) ' ' ++ ['|', ' '] ++
      List.replicate r.caret '-' := by
    simp
  have hbar : " | ".toList = [' ', '|', ' '] := rfl
  rw [caretColumn, hlist, List.idxOf_append_of_notMem hnot, hmargin, String.toList_append, hbar,
    List.idxOf_cons_self]
  simp only [List.length_append, List.length_replicate, List.length_cons, List.length_nil,
    String.length_toList]
  omega

end Pointing

/-- A token that is not the end marker begins within the source. -/
theorem Lexer.start_lt_of_kind_ne {source : String} (hsize : source.utf8ByteSize < UInt32.size)
    {t : Token} (ht : t ∈ Lexer.tokenize source) (hkind : t.kind ≠ .eof) :
    t.start.toNat < byteLength source.toList := by
  obtain ⟨heof, -⟩ | ⟨hspells, before, after, hsource, hstart⟩ := Lexer.toNat_start hsize ht
  case inl => exact absurd heof hkind
  obtain ⟨c, tail, hword, -⟩ := hspells.exists_cons
  have hpos := c.utf8Size_pos
  rw [hstart, hsource, hword, byteLength_append, List.cons_append, byteLength_cons]
  omega

/-- A line is its indentation, what is shown of it, and white space. -/
theorem Text.LineAt.exists_line_eq_shown {cs : List Char} {position : Nat}
    (l : LineAt cs position) :
    ∃ blanks, l.line = l.line.takeWhile isIndent ++ (l.shown ++ blanks) := by
  refine ⟨((l.line.dropWhile isIndent).reverse.takeWhile isBlank).reverse, ?_⟩
  rw [LineAt.shown, trimEnd_append, List.takeWhile_append_dropWhile]

/-- A token that can be seen and gives rise to an error is shown by the report on it, with
the caret as far to the right as there are bytes in front of the token. -/
theorem exists_pointing {source : String} (hsize : source.utf8ByteSize < UInt32.size)
    {e : SyntaxError} {t : Token} (he : e ∈ (parse source).errors) (ht : t ∈ Lexer.tokenize source)
    (harises : e.ArisesAt t) (hvisible : t.Visible) :
    ∃ p : Pointing source e t, (Report.ofError source e).caret = byteLength p.before := by
  obtain ⟨s, rfl, hreport⟩ := exists_ofError_eq hsize (toList_ne_nil_of_mem_errors he) ht harises
  obtain ⟨before, after, hshown, hcaret⟩ := s.above hvisible
  obtain ⟨blanks, hline⟩ := s.exists_line_eq_shown
  have hlt := Lexer.start_lt_of_kind_ne hsize ht hvisible.1
  rw [← harises.1] at hlt
  have hcolumn : s.token.start.toNat = byteLength s.front + s.column := by
    rw [← harises.1]
    exact (s.place_of_lt hlt).1
  have hindent := s.caret_add_indent
  have hunbroken : '\n' ∉ before := fun hmem =>
    s.feed_not_mem_shown (hshown ▸ List.mem_append_left _ hmem)
  refine ⟨{
    heading := "Error[" ++ e.name ++ "]: " ++ e.fullMessage
    bar := (Report.ofError source e).margin
    line := toString s.number ++ " | " ++ String.ofList s.shown
    pointer := (Report.ofError source e).margin ++ " " ++ rightAligned '-' (s.caret + 1) '^'
    lines_eq := by rw [hreport, Report.lines]
    margin := (toString s.number ++ " | ").toList
    before := before
    after := after
    margin_eq := by rw [hreport]
    line_eq := by rw [String.toList_append, String.toList_ofList, hshown]
    front := s.front
    indent := s.line.takeWhile isIndent
    back := after ++ blanks ++ s.back
    source_eq := ?_
    start_eq := ?_
    begins := s.begins
    isIndent_indent := List.all_eq_true.mp List.all_takeWhile
    unbroken := hunbroken }, (congrArg Report.caret hreport).trans hcaret.symm⟩
  · have htext := s.text
    rw [hline, hshown] at htext
    simpa using htext
  · rw [byteLength_append, byteLength_append, hcolumn]
    rw [LineAt.indent] at hindent
    omega

/-- **The caret stands below the token** of its error, in the column of the first character
of the token, exactly if every character that is shown in front of the token takes one
byte.  Otherwise it is as much further to the right as they take more.  The source is
shorter than 4 GiB. -/
theorem caretColumn_eq_tokenColumn_iff {source : String} (hsize : source.utf8ByteSize < UInt32.size)
    {e : SyntaxError} (he : e ∈ (parse source).errors) :
    (∃ t ∈ Lexer.tokenize source, e.ArisesAt t) ∧
      ∀ t ∈ Lexer.tokenize source, e.ArisesAt t → t.Visible →
        ∃ p : Pointing source e t,
          p.caretColumn + p.before.length = p.tokenColumn + byteLength p.before ∧
            (p.caretColumn = p.tokenColumn ↔ ∀ c ∈ p.before, c.utf8Size = 1) := by
  refine ⟨exists_arisesAt_of_mem_errors he, fun t ht harises hvisible => ?_⟩
  obtain ⟨p, hcaret⟩ := exists_pointing hsize he ht harises hvisible
  have hcolumn := p.caretColumn_eq
  have htoken : p.tokenColumn = p.margin.length + p.before.length := List.length_append
  refine ⟨p, by omega, ?_⟩
  rw [← byteLength_eq_length_iff]
  omega

/-- The second error of a source in which a character of two bytes is in front of it. -/
theorem caretColumn_eq_tokenColumn_sample :
    "é; @ 5".utf8ByteSize < UInt32.size ∧
      ⟨.unexpected .identifier .integer, 6⟩ ∈ (parse "é; @ 5").errors ∧
      (∃ t ∈ Lexer.tokenize "é; @ 5",
        SyntaxError.ArisesAt ⟨.unexpected .identifier .integer, 6⟩ t) ∧
      ∀ t ∈ Lexer.tokenize "é; @ 5",
        SyntaxError.ArisesAt ⟨.unexpected .identifier .integer, 6⟩ t → t.Visible →
          ∃ p : Pointing "é; @ 5" ⟨.unexpected .identifier .integer, 6⟩ t,
            p.caretColumn + p.before.length = p.tokenColumn + byteLength p.before ∧
              (p.caretColumn = p.tokenColumn ↔ ∀ c ∈ p.before, c.utf8Size = 1) :=
  have he : ⟨.unexpected .identifier .integer, 6⟩ ∈ (parse "é; @ 5").errors := by decide +kernel
  have hsize : "é; @ 5".utf8ByteSize < UInt32.size := by decide +kernel
  ⟨hsize, he, caretColumn_eq_tokenColumn_iff hsize he⟩

/-- There the caret stands beside the token. -/
theorem caretColumn_ne_tokenColumn :
    ∃ e ∈ (parse "é; @ 5").errors, ∃ t ∈ Lexer.tokenize "é; @ 5", e.ArisesAt t ∧ t.Visible ∧
      ∃ p : Pointing "é; @ 5" e t, p.tokenColumn = 9 ∧ p.caretColumn = 10 := by
  refine ⟨⟨.unexpected .identifier .integer, 6⟩, by decide +kernel, ⟨.integer, "5", 6, 7⟩,
    by decide +kernel, ⟨rfl, rfl, by decide⟩, ⟨by decide, fun c hc => ?_⟩, {
      heading := "Error[UnexpectedToken]: expected identifier but got integer"
      bar := "  |"
      line := "1 | é; @ 5"
      pointer := "  | ------^"
      lines_eq := by decide +kernel
      margin := "1 | ".toList
      before := "é; @ ".toList
      after := []
      margin_eq := by decide +kernel
      line_eq := by decide +kernel
      front := []
      indent := []
      back := []
      source_eq := by decide +kernel
      start_eq := by decide +kernel
      begins := by simp
      isIndent_indent := by simp
      unbroken := by decide +kernel }, by decide +kernel, by decide +kernel⟩
  obtain rfl : '5' = c := by simpa using hc
  decide

end ExprLang
